import Mathlib.Data.List.Basic
import Mathlib.Data.List.Nodup
import Mathlib.Data.List.Perm.Basic
import Mathlib.Order.Basic
import Mathlib.Order.Lattice
import Mathlib.Tactic.Common

/-!
# Ordered maps as sorted association lists

A map whose entries are kept in the order of their keys, given by a comparison `lt`. `insert` leaves
an existing entry alone, and a scan from either end that stops at the first key failing a test is a
`takeWhile`. The functions only use `lt`; the lemmas are about a comparison that decides the order
of a linear order.
-/

namespace OrdMap

variable {K V : Type*} (lt : K → K → Bool)

/-- The value stored under a key. -/
def find? (k : K) (m : List (K × V)) : Option V :=
  (m.find? fun e => !lt k e.1 && !lt e.1 k).map Prod.snd

/-- Insertion at the place of the key, unless the key is present. -/
def insert (k : K) (v : V) : List (K × V) → List (K × V)
  | [] => [(k, v)]
  | e :: rest =>
    if lt k e.1 then (k, v) :: e :: rest
    else if lt e.1 k then e :: insert k v rest
    else e :: rest

/-- Insertion at the place of the key; a value that is there is replaced. -/
def put (k : K) (v : V) : List (K × V) → List (K × V)
  | [] => [(k, v)]
  | e :: rest =>
    if lt k e.1 then (k, v) :: e :: rest
    else if lt e.1 k then e :: put k v rest
    else (k, v) :: rest

theorem mem_of_mem_insert {lt : K → K → Bool} {k : K} {v : V} {m : List (K × V)} {e : K × V}
    (mem : e ∈ insert lt k v m) : e = (k, v) ∨ e ∈ m := by
  induction m with
  | nil => exact .inl (List.mem_singleton.mp mem)
  | cons a rest ih =>
      unfold insert at mem
      split at mem
      · exact List.mem_cons.mp mem
      · split at mem
        · rcases List.mem_cons.mp mem with rfl | mem
          · exact .inr List.mem_cons_self
          · exact (ih mem).imp_right (List.mem_cons_of_mem a)
        · exact .inr mem

theorem key_of_mem_put {lt : K → K → Bool} {k : K} {v : V} {m : List (K × V)} {e : K × V}
    (mem : e ∈ put lt k v m) : e.1 = k ∨ e ∈ m := by
  induction m with
  | nil => exact .inl (congrArg Prod.fst (List.mem_singleton.mp mem))
  | cons a rest ih =>
      unfold put at mem
      split at mem
      · rcases List.mem_cons.mp mem with rfl | old
        · exact .inl rfl
        · exact .inr old
      · split at mem
        · rcases List.mem_cons.mp mem with rfl | later
          · exact .inr List.mem_cons_self
          · exact (ih later).imp_right (List.mem_cons_of_mem a)
        · rcases List.mem_cons.mp mem with rfl | old
          · exact .inl rfl
          · exact .inr (List.mem_cons_of_mem a old)

theorem mem_of_mem_foldl_insert {lt : K → K → Bool} {entries done : List (K × V)} {e : K × V}
    (mem : e ∈ entries.foldl (fun m e => insert lt e.1 e.2 m) done) : e ∈ entries ∨ e ∈ done := by
  induction entries generalizing done with
  | nil => exact .inr mem
  | cons first rest ih =>
      rcases ih mem with later | early
      · exact .inl (List.mem_cons_of_mem first later)
      · rcases mem_of_mem_insert early with rfl | old
        · exact .inl List.mem_cons_self
        · exact .inr old

/-- The first entry of each key has a property, and keys that are known already have none. -/
def FirstsSatisfy (p : V → Prop) : List K → List (K × V) → Prop
  | _, [] => True
  | known, e :: rest => (e.1 ∈ known ∨ p e.2) ∧ FirstsSatisfy p (e.1 :: known) rest

section Lemmas

variable [LinearOrder K] {lt} {m : List (K × V)} {k : K} {v : V} {e : K × V}

/-- Keys increase strictly. -/
def Sorted (m : List (K × V)) : Prop := m.Pairwise fun a b => a.1 < b.1

theorem Sorted.nil : Sorted ([] : List (K × V)) := List.Pairwise.nil

theorem Sorted.nodup_keys (sorted : Sorted m) : (m.map Prod.fst).Nodup :=
  (List.pairwise_map.mpr sorted).imp ne_of_lt

theorem Sorted.nodup (sorted : Sorted m) : m.Nodup :=
  sorted.imp fun less same => (less.trans_eq (congrArg Prod.fst same.symm)).false

/-- A key has one value. -/
theorem Sorted.eq_of_key (sorted : Sorted m) {v' : V} (mem : (k, v) ∈ m) (mem' : (k, v') ∈ m) :
    v = v' := by
  obtain ⟨i, ltI, atI⟩ := List.getElem_of_mem mem
  obtain ⟨j, ltJ, atJ⟩ := List.getElem_of_mem mem'
  have increasing := List.pairwise_iff_getElem.mp sorted
  rcases Nat.lt_trichotomy i j with less | rfl | greater
  · have := increasing i j ltI ltJ less
    rw [atI, atJ] at this
    exact absurd this (lt_irrefl k)
  · exact congrArg Prod.snd (atI.symm.trans atJ)
  · have := increasing j i ltJ ltI greater
    rw [atI, atJ] at this
    exact absurd this (lt_irrefl k)

/-- The first entry that passes a test has the least key of those. -/
theorem Sorted.le_of_find? (sorted : Sorted m) {p : K × V → Bool} (first : m.find? p = some e)
    {e' : K × V} (mem : e' ∈ m) (pass : p e' = true) : e.1 ≤ e'.1 := by
  obtain ⟨-, before, after, rfl, failing⟩ := List.find?_eq_some_iff_append.mp first
  rcases List.mem_append.mp mem with isBefore | isAfter
  · have fails := failing e' isBefore
    rw [pass] at fails
    cases fails
  · rcases List.mem_cons.mp isAfter with rfl | isAfter
    · exact le_rfl
    · have sorted' := (List.pairwise_append.mp sorted).2.1
      exact ((List.pairwise_cons.mp sorted').1 e' isAfter).le

variable (law : ∀ a b, lt a b = true ↔ a < b)

include law

theorem not_lt_and_not_lt (a b : K) : (!lt a b && !lt b a) = true ↔ a = b := by
  rw [Bool.and_eq_true, Bool.not_eq_true', Bool.not_eq_true', ← Bool.not_eq_true,
    ← Bool.not_eq_true,
    law, law, not_lt, not_lt]
  exact ⟨fun le => le_antisymm le.2 le.1, fun same => ⟨same.ge, same.le⟩⟩

theorem find?_eq_some (sorted : Sorted m) : find? lt k m = some v ↔ (k, v) ∈ m := by
  unfold find?
  constructor
  · intro found
    obtain ⟨⟨k', v'⟩, first, rfl⟩ := Option.map_eq_some_iff.mp found
    have passes : (!lt k k' && !lt k' k) = true := by simpa using List.find?_some first
    rw [(not_lt_and_not_lt law k k').mp passes]
    exact List.mem_of_find?_eq_some first
  · intro mem
    cases first : m.find? fun e => !lt k e.1 && !lt e.1 k with
    | none =>
        have absent := List.find?_eq_none.mp first (k, v) mem
        exact absurd ((not_lt_and_not_lt law k k).mpr rfl) absent
    | some e =>
        obtain ⟨k', v'⟩ := e
        have passes : (!lt k k' && !lt k' k) = true := by simpa using List.find?_some first
        obtain rfl := (not_lt_and_not_lt law k k').mp passes
        rw [Option.map_some, sorted.eq_of_key (List.mem_of_find?_eq_some first) mem]

theorem find?_eq_none : find? lt k m = none ↔ ∀ e ∈ m, e.1 ≠ k := by
  unfold find?
  rw [Option.map_eq_none_iff, List.find?_eq_none]
  refine forall_congr' fun e => forall_congr' fun _ => not_congr ?_
  rw [not_lt_and_not_lt law]
  exact eq_comm

/-- A look-up by key is a filter. -/
theorem toList_find? (sorted : Sorted m) :
    (find? lt k m).toList = (m.filter fun e => decide (e.1 = k)).map Prod.snd := by
  cases found : find? lt k m with
  | none =>
      have absent : ∀ e ∈ m, ¬ decide (e.1 = k) = true := by
        simpa using (find?_eq_none law).mp found
      rw [List.filter_eq_nil_iff.mpr absent]
      rfl
  | some v =>
      have mem := (find?_eq_some law sorted).mp found
      have only : (m.filter fun e => decide (e.1 = k)).Perm [(k, v)] := by
        rw [List.perm_ext_iff_of_nodup (sorted.nodup.filter _) (List.nodup_singleton _)]
        rintro ⟨k', v'⟩
        simp only [List.mem_filter, decide_eq_true_eq, List.mem_singleton, Prod.mk.injEq]
        constructor
        · rintro ⟨mem', rfl⟩
          exact ⟨rfl, sorted.eq_of_key mem' mem⟩
        · rintro ⟨rfl, rfl⟩
          exact ⟨mem, rfl⟩
      rw [List.perm_singleton.mp only]
      rfl

theorem mem_insert (sorted : Sorted m) :
    e ∈ insert lt k v m ↔ e ∈ m ∨ (e = (k, v) ∧ ∀ e' ∈ m, e'.1 ≠ k) := by
  induction m with
  | nil => simp [insert]
  | cons a rest ih =>
      obtain ⟨first, sorted'⟩ := List.pairwise_cons.mp sorted
      unfold insert
      by_cases before : lt k a.1 = true
      · rw [if_pos before]
        have less := (law _ _).mp before
        have fresh : ∀ e' ∈ a :: rest, e'.1 ≠ k := by
          intro e' mem
          rcases List.mem_cons.mp mem with rfl | mem
          · exact less.ne'
          · exact (less.trans (first e' mem)).ne'
        rw [List.mem_cons, or_comm]
        exact or_congr_right ⟨fun same => ⟨same, fresh⟩, And.left⟩
      · rw [if_neg before]
        by_cases after : lt a.1 k = true
        · rw [if_pos after, List.mem_cons, ih sorted', List.mem_cons, or_assoc]
          refine or_congr_right (or_congr_right (and_congr_right fun _ => ?_))
          have ne := ((law _ _).mp after).ne
          exact ⟨fun rest_fresh e' mem => by
            rcases List.mem_cons.mp mem with rfl | mem
            · exact ne
            · exact rest_fresh e' mem, fun all e' mem => all e' (List.mem_cons_of_mem a mem)⟩
        · rw [if_neg after]
          have same : a.1 = k := (not_lt_and_not_lt law a.1 k).mp (by simp [before, after])
          refine ⟨Or.inl, ?_⟩
          rintro (mem | ⟨-, fresh⟩)
          · exact mem
          · exact absurd same (fresh a List.mem_cons_self)

theorem sorted_insert (sorted : Sorted m) : Sorted (insert lt k v m) := by
  induction m with
  | nil => exact List.pairwise_singleton _ _
  | cons a rest ih =>
      obtain ⟨first, sorted'⟩ := List.pairwise_cons.mp sorted
      unfold insert
      by_cases before : lt k a.1 = true
      · rw [if_pos before]
        have less := (law _ _).mp before
        refine List.pairwise_cons.mpr ⟨fun e mem => ?_, sorted⟩
        rcases List.mem_cons.mp mem with rfl | mem
        · exact less
        · exact less.trans (first e mem)
      · rw [if_neg before]
        by_cases after : lt a.1 k = true
        · rw [if_pos after]
          refine List.pairwise_cons.mpr ⟨fun e mem => ?_, ih sorted'⟩
          rcases (mem_insert law sorted').mp mem with old | ⟨rfl, -⟩
          · exact first e old
          · exact (law _ _).mp after
        · rw [if_neg after]
          exact sorted

/-! ### Replacing the value of a key -/

theorem find?_put (a : K) :
    find? lt a (put lt k v m) = if a = k then some v else find? lt a m := by
  have atKey : ∀ (b : K) (w : V) (rest : List (K × V)),
      find? lt a ((b, w) :: rest) = if a = b then some w else find? lt a rest := by
    intro b w rest
    have test := not_lt_and_not_lt law a b
    unfold find?
    by_cases same : a = b
    · simp only [List.find?_cons, test.mpr same, if_pos same, Option.map_some]
    · simp only [List.find?_cons, Bool.not_eq_true _ ▸ mt test.mp same, if_neg same]
  induction m with
  | nil => exact atKey k v []
  | cons e rest ih =>
      unfold put
      by_cases before : lt k e.1 = true
      · rw [if_pos before]
        exact atKey k v _
      · rw [if_neg before]
        by_cases after : lt e.1 k = true
        · have ne := ((law _ _).mp after).ne
          rw [if_pos after, atKey, ih, atKey]
          by_cases same : a = e.1
          · rw [if_pos same, if_neg (same ▸ ne), if_pos same]
          · simp only [if_neg same]
        · have same : k = e.1 := (not_lt_and_not_lt law k e.1).mp (by simp [before, after])
          rw [if_neg after, atKey, same, atKey]
          by_cases here : a = e.1
          · rw [if_pos here, if_pos here]
          · simp only [if_neg here]

theorem sorted_put (sorted : Sorted m) : Sorted (put lt k v m) := by
  induction m with
  | nil => exact List.pairwise_singleton _ _
  | cons a rest ih =>
      obtain ⟨first, sorted'⟩ := List.pairwise_cons.mp sorted
      unfold put
      by_cases before : lt k a.1 = true
      · rw [if_pos before]
        have less := (law _ _).mp before
        refine List.pairwise_cons.mpr ⟨fun e mem => ?_, sorted⟩
        rcases List.mem_cons.mp mem with rfl | mem
        · exact less
        · exact less.trans (first e mem)
      · rw [if_neg before]
        by_cases after : lt a.1 k = true
        · rw [if_pos after]
          refine List.pairwise_cons.mpr ⟨fun e mem => ?_, ih sorted'⟩
          rcases key_of_mem_put mem with isKey | old
          · exact ((law _ _).mp after).trans_eq isKey.symm
          · exact first e old
        · have same : k = a.1 := (not_lt_and_not_lt law k a.1).mp (by simp [before, after])
          rw [if_neg after, same]
          exact List.pairwise_cons.mpr ⟨first, sorted'⟩

theorem perm_insert (fresh : ∀ e ∈ m, e.1 ≠ k) : (insert lt k v m).Perm ((k, v) :: m) := by
  induction m with
  | nil => exact List.Perm.refl _
  | cons a rest ih =>
      unfold insert
      split
      · exact List.Perm.refl _
      · rw [if_pos ?_]
        · exact ((ih fun e mem => fresh e (List.mem_cons_of_mem a mem)).cons a).trans
            (List.Perm.swap _ _ _)
        · rename_i notBefore
          rw [law] at notBefore ⊢
          exact lt_of_le_of_ne (not_lt.mp notBefore) (fresh a List.mem_cons_self)

/-- Entries with different keys are all inserted. -/
theorem foldl_insert_fresh {entries done : List (K × V)} (sorted : Sorted done)
    (nodup : ((entries ++ done).map Prod.fst).Nodup) :
    Sorted (entries.foldl (fun m e => insert lt e.1 e.2 m) done) ∧
      (entries.foldl (fun m e => insert lt e.1 e.2 m) done).Perm (entries ++ done) := by
  induction entries generalizing done with
  | nil => exact ⟨sorted, List.Perm.refl _⟩
  | cons e rest ih =>
      have fresh : ∀ e' ∈ done, e'.1 ≠ e.1 := by
        intro e' mem same
        rw [List.cons_append, List.map_cons, List.nodup_cons] at nodup
        exact nodup.1 (same ▸ List.mem_map_of_mem (List.mem_append_right rest mem))
      have inserted : (rest ++ insert lt e.1 e.2 done).Perm (e :: rest ++ done) :=
        ((perm_insert law fresh).append_left rest).trans List.perm_middle
      obtain ⟨sorted', perm'⟩ := ih (sorted_insert law sorted)
        ((inserted.map Prod.fst).nodup_iff.mpr nodup)
      exact ⟨sorted', perm'.trans inserted⟩

/-- Entries with different keys end up in the order of the keys, whatever the order of insertion. -/
theorem foldl_insert_of_perm {entries : List (K × V)} (perm : entries.Perm m) (sorted : Sorted m) :
    entries.foldl (fun m e => insert lt e.1 e.2 m) [] = m := by
  have keys : ((entries ++ []).map Prod.fst).Nodup := by
    rw [List.append_nil]
    exact (perm.map Prod.fst).nodup_iff.mpr sorted.nodup_keys
  obtain ⟨sorted', perm'⟩ := foldl_insert_fresh law .nil keys
  rw [List.append_nil] at perm'
  exact (perm'.trans perm).eq_of_pairwise
    (fun a b _ _ less greater => absurd (less.trans greater) (lt_irrefl _)) sorted' sorted

theorem sorted_foldl_insert {entries done : List (K × V)} (sorted : Sorted done) :
    Sorted (entries.foldl (fun m e => insert lt e.1 e.2 m) done) := by
  induction entries generalizing done with
  | nil => exact sorted
  | cons first rest ih => exact ih (sorted_insert law sorted)

/-- Only the first entry of each key gets into the map. -/
theorem forall_foldl_insert {entries done : List (K × V)} (sorted : Sorted done) {p : V → Prop}
    {known : List K} (isKnown : ∀ k, k ∈ known ↔ ∃ e ∈ done, e.1 = k) :
    (∀ e ∈ entries.foldl (fun m e => insert lt e.1 e.2 m) done, p e.2) ↔
      (∀ e ∈ done, p e.2) ∧ FirstsSatisfy p known entries := by
  induction entries generalizing done known with
  | nil => exact (and_iff_left trivial).symm
  | cons first rest ih =>
      have inserted : ∀ {e}, e ∈ insert lt first.1 first.2 done ↔
          e ∈ done ∨ (e = (first.1, first.2) ∧ ∀ e' ∈ done, e'.1 ≠ first.1) := mem_insert law sorted
      have isKnown' : ∀ k, k ∈ first.1 :: known ↔
          ∃ e ∈ insert lt first.1 first.2 done, e.1 = k := by
        intro k
        rw [List.mem_cons, isKnown]
        constructor
        · intro either
          rcases either with rfl | ⟨e, mem, isKey⟩
          · by_cases before : ∃ e ∈ done, e.1 = first.1
            · obtain ⟨e, mem, isKey⟩ := before
              exact ⟨e, inserted.mpr (.inl mem), isKey⟩
            · exact ⟨_, inserted.mpr (.inr ⟨rfl, fun e mem same =>
                before ⟨e, mem, same⟩⟩), rfl⟩
          · exact ⟨e, inserted.mpr (.inl mem), isKey⟩
        · intro inMap
          obtain ⟨e, mem, isKey⟩ := inMap
          rcases inserted.mp mem with old | ⟨rfl, -⟩
          · exact .inr ⟨e, old, isKey⟩
          · exact .inl isKey.symm
      rw [List.foldl_cons, ih (sorted_insert law sorted) isKnown', FirstsSatisfy, ← and_assoc]
      refine and_congr_left fun _ => ⟨fun all => ⟨fun e mem => all e ?_, ?_⟩, fun both e mem => ?_⟩
      · exact inserted.mpr (.inl mem)
      · refine or_iff_not_imp_left.mpr fun fresh => all (first.1, first.2) ?_
        exact inserted.mpr (.inr ⟨rfl, fun e mem same =>
          fresh ((isKnown _).mpr ⟨e, mem, same⟩)⟩)
      · rcases inserted.mp mem with old | ⟨rfl, fresh⟩
        · exact both.1 e old
        · refine both.2.resolve_left fun isIn => ?_
          obtain ⟨e, mem, same⟩ := (isKnown _).mp isIn
          exact fresh e mem same

/-- If a map has as many entries as were inserted, their keys were different. -/
theorem nodup_keys_of_length {entries : List (K × V)}
    (all : entries.length ≤ (entries.foldl (fun m e => insert lt e.1 e.2 m) []).length) :
    (entries.map Prod.fst).Nodup := by
  have nodup : ((entries.foldl (fun m e => insert lt e.1 e.2 m) []).map Prod.fst).Nodup :=
    (sorted_foldl_insert law .nil).nodup_keys
  have subset : (entries.foldl (fun m e => insert lt e.1 e.2 m) []).map Prod.fst ⊆
      entries.map Prod.fst := by
    intro k mem
    obtain ⟨e, inMap, rfl⟩ := List.mem_map.mp mem
    rcases mem_of_mem_foldl_insert inMap with inEntries | inNone
    · exact List.mem_map_of_mem inEntries
    · cases inNone
  have perm := (List.subperm_of_subset nodup subset).perm_of_length_le (by
    rw [List.length_map, List.length_map]
    exact all)
  exact perm.nodup_iff.mp nodup

end Lemmas

/-! ## Scans with a stop -/

section Scans

variable [LinearOrder K] {m : List (K × V)} {p : K → Bool}

/-- An ascending scan that stops at the first key failing a downward closed test visits every entry
that passes it. -/
theorem takeWhile_eq_filter (sorted : Sorted m) (down : ∀ a b, a < b → p b = true → p a = true) :
    m.takeWhile (fun e => p e.1) = m.filter fun e => p e.1 := by
  induction m with
  | nil => rfl
  | cons a rest ih =>
      obtain ⟨first, sorted'⟩ := List.pairwise_cons.mp sorted
      by_cases pass : p a.1 = true
      · rw [List.takeWhile_cons, List.filter_cons, if_pos pass, if_pos pass, ih sorted']
      · rw [List.takeWhile_cons, List.filter_cons, if_neg pass, if_neg pass]
        symm
        rw [List.filter_eq_nil_iff]
        exact fun e mem pass' => pass (down a.1 e.1 (first e mem) pass')

/-- A descending scan, for an upward closed test. -/
theorem takeWhile_reverse_eq_filter (sorted : Sorted m)
    (up : ∀ a b, a < b → p a = true → p b = true) :
    m.reverse.takeWhile (fun e => p e.1) = (m.filter fun e => p e.1).reverse := by
  have descending : m.reverse.Pairwise fun a b => b.1 < a.1 := List.pairwise_reverse.mpr sorted
  rw [← List.filter_reverse]
  generalize m.reverse = l at descending
  induction l with
  | nil => rfl
  | cons a rest ih =>
      obtain ⟨first, descending'⟩ := List.pairwise_cons.mp descending
      by_cases pass : p a.1 = true
      · rw [List.takeWhile_cons, List.filter_cons, if_pos pass, if_pos pass, ih descending']
      · rw [List.takeWhile_cons, List.filter_cons, if_neg pass, if_neg pass]
        symm
        rw [List.filter_eq_nil_iff]
        exact fun e mem pass' => pass (up e.1 a.1 (first e mem) pass')

end Scans

end OrdMap

/-! ## Ordered sets -/

namespace OrdSet

variable {K : Type*} [LinearOrder K]

/-- Insertion at its place, unless the element is present. -/
def insert (k : K) : List K → List K
  | [] => [k]
  | a :: rest => if k < a then k :: a :: rest else if a < k then a :: insert k rest else a :: rest

@[simp] theorem mem_insert {k a : K} {s : List K} : a ∈ insert k s ↔ a = k ∨ a ∈ s := by
  induction s with
  | nil => simp [insert]
  | cons b rest ih =>
      unfold insert
      split
      · exact List.mem_cons
      · split
        · rw [List.mem_cons, ih, List.mem_cons, or_left_comm]
        · rename_i notBefore notAfter
          have same : b = k := le_antisymm (not_lt.mp notBefore) (not_lt.mp notAfter)
          rw [← same, List.mem_cons]
          exact ⟨Or.inr, fun either => either.elim Or.inl id⟩

theorem pairwise_insert {k : K} {s : List K} (ordered : s.Pairwise (· < ·)) :
    (insert k s).Pairwise (· < ·) := by
  induction s with
  | nil => exact List.pairwise_singleton _ _
  | cons b rest ih =>
      obtain ⟨first, ordered'⟩ := List.pairwise_cons.mp ordered
      unfold insert
      split
      case isTrue before =>
        refine List.pairwise_cons.mpr ⟨fun a mem => ?_, ordered⟩
        rcases List.mem_cons.mp mem with rfl | later
        · exact before
        · exact before.trans (first a later)
      case isFalse =>
        split
        case isTrue after =>
          refine List.pairwise_cons.mpr ⟨fun a mem => ?_, ih ordered'⟩
          rcases mem_insert.mp mem with rfl | later
          · exact after
          · exact first a later
        case isFalse => exact ordered

theorem mem_foldl_insert {elements s : List K} {a : K} :
    a ∈ elements.foldl (fun s e => insert e s) s ↔ a ∈ elements ∨ a ∈ s := by
  induction elements generalizing s with
  | nil => simp
  | cons e rest ih => rw [List.foldl_cons, ih, mem_insert, List.mem_cons, or_left_comm, or_assoc]

end OrdSet
