import Mathlib.Data.List.Perm.Subperm
import Mathlib.Data.List.Range
import TRex.Lib.OrdMap

/-!
# Filling an array from a map

A loop runs over the entries of a map and appends the values to an array, in the order of the keys,
unless they are refused. `Appends` describes one step. `whole_iff` says when the array holds every
entry that was put into the map, each at the index that is its key: the keys are 0, 1, … and no
value is refused there. -/

namespace Appending

variable {σ α γ : Type}

/-- A loop that leaves something alone. -/
theorem foldl_keeps {β : Type} {f : σ → α → σ} (member : σ → β)
    (one : ∀ s a, member (f s a) = member s) (as : List α) (s : σ) :
    member (as.foldl f s) = member s := by
  induction as generalizing s with
  | nil => rfl
  | cons a rest ih => rw [List.foldl_cons, ih, one]

/-- The step appends the element, as `conv` has it, if it is accepted behind those already there. -/
structure Appends (f : σ → α → σ) (get : σ → List γ) (conv : α → γ) (Accepted : Nat → α → Prop)
    (Inv : σ → Prop) : Prop where
  keeps : ∀ {s} a, Inv s → Inv (f s a)
  accepted : ∀ {s a}, Inv s → Accepted (get s).length a → get (f s a) = get s ++ [conv a]
  refused : ∀ {s a}, Inv s → ¬ Accepted (get s).length a → get (f s a) = get s

namespace Appends

variable {f : σ → α → σ} {get : σ → List γ} {conv : α → γ} {Accepted : Nat → α → Prop}
  {Inv : σ → Prop}

theorem length_le (appends : Appends f get conv Accepted Inv) (as : List α) {s : σ} (inv : Inv s) :
    (get (as.foldl f s)).length ≤ (get s).length + as.length := by
  induction as generalizing s with
  | nil => exact Nat.le_add_right _ _
  | cons a rest ih =>
      have later := ih (appends.keeps a inv)
      rw [List.foldl_cons, List.length_cons]
      by_cases accepted : Accepted (get s).length a
      · rw [appends.accepted inv accepted, List.length_append, List.length_singleton] at later
        omega
      · rw [appends.refused inv accepted] at later
        omega

/-- All are accepted. -/
theorem get_of_all (appends : Appends f get conv Accepted Inv) {as : List α} {s : σ} (inv : Inv s)
    (all : ∀ i a, as[i]? = some a → Accepted ((get s).length + i) a) :
    get (as.foldl f s) = get s ++ as.map conv := by
  induction as generalizing s with
  | nil => exact (List.append_nil _).symm
  | cons a rest ih =>
      have added := appends.accepted inv (all 0 a rfl)
      have later := ih (appends.keeps a inv) fun i b at_i => by
        rw [added, List.length_append, List.length_singleton, Nat.add_assoc, Nat.add_comm 1 i]
        exact all (i + 1) b at_i
      rw [List.foldl_cons, later, added, List.append_assoc]
      rfl

/-- If as many are appended as there are, none was refused. -/
theorem all_of_length (appends : Appends f get conv Accepted Inv) {as : List α} {s : σ}
    (inv : Inv s)
    (length : (get s).length + as.length ≤ (get (as.foldl f s)).length) :
    ∀ i a, as[i]? = some a → Accepted ((get s).length + i) a := by
  induction as generalizing s with
  | nil => exact fun i a at_i => nomatch at_i
  | cons first rest ih =>
      have bound := appends.length_le rest (appends.keeps first inv)
      rw [List.foldl_cons, List.length_cons] at length
      by_cases accepted : Accepted (get s).length first
      · have added := congrArg List.length (appends.accepted inv accepted)
        rw [List.length_append, List.length_singleton] at added
        intro i a at_i
        cases i with
        | zero =>
            cases at_i
            exact accepted
        | succ i =>
            have later := ih (appends.keeps first inv) (by omega) i a at_i
            rw [added, Nat.add_assoc, Nat.add_comm 1 i] at later
            exact later
      · rw [appends.refused inv accepted] at bound
        omega

end Appends

/-! ## Keys that are positions -/

variable {V : Type}

/-- The keys are 0, 1, … up to the number of entries, in some order. -/
def Keyed (entries : List (Int × V)) : Prop :=
  (entries.map Prod.fst).Perm ((List.range entries.length).map fun i : Nat => (i : Int))

/-- The entries in the order of their keys, of several with the same key the first. -/
def mapOf (entries : List (Int × V)) : List (Int × V) :=
  entries.foldl (fun m e => OrdMap.insert (fun a b => decide (a < b)) e.1 e.2 m) []

theorem law (a b : Int) : decide (a < b) = true ↔ a < b := decide_eq_true_iff

/-- Different keys from 0 up to the number of entries. -/
theorem keyed_of_bounded {entries : List (Int × V)} (nodup : (entries.map Prod.fst).Nodup)
    (bounded : ∀ e ∈ entries, 0 ≤ e.1 ∧ e.1 < entries.length) : Keyed entries := by
  have subset : entries.map Prod.fst ⊆
      (List.range entries.length).map fun i : Nat => (i : Int) := by
    intro k mem
    obtain ⟨e, inEntries, rfl⟩ := List.mem_map.mp mem
    obtain ⟨nonneg, less⟩ := bounded e inEntries
    refine List.mem_map.mpr ⟨e.1.toNat, List.mem_range.mpr (by omega), ?_⟩
    exact Int.toNat_of_nonneg nonneg
  refine (List.subperm_of_subset nodup subset).perm_of_length_le ?_
  rw [List.length_map, List.length_map, List.length_range]

namespace Keyed

variable {entries : List (Int × V)} (keyed : Keyed entries)

include keyed

theorem nodup : (entries.map Prod.fst).Nodup := by
  have increasing : ((List.range entries.length).map fun i : Nat => (i : Int)).Nodup :=
    List.nodup_range.map fun a b same => Int.ofNat.inj same
  exact keyed.nodup_iff.mpr increasing

theorem perm : (mapOf entries).Perm entries := by
  have nodup : ((entries ++ []).map Prod.fst).Nodup := by
    rw [List.append_nil]
    exact keyed.nodup
  have perm := (OrdMap.foldl_insert_fresh law .nil nodup).2
  rw [List.append_nil] at perm
  exact perm

/-- The keys of the map are its positions. -/
theorem keys :
    (mapOf entries).map Prod.fst = (List.range entries.length).map fun i : Nat => (i : Int) := by
  have sorted : ((mapOf entries).map Prod.fst).Pairwise (· < ·) :=
    List.pairwise_map.mpr (OrdMap.sorted_foldl_insert law .nil)
  have increasing : ((List.range entries.length).map fun i : Nat => (i : Int)).Pairwise (· < ·) :=
    List.pairwise_map.mpr (List.pairwise_lt_range.imp fun less => Int.ofNat_lt.mpr less)
  exact ((keyed.perm.map Prod.fst).trans keyed).eq_of_pairwise
    (fun a b _ _ less greater => absurd (less.trans greater) (lt_irrefl _)) sorted increasing

/-- The entry at a position has the position as its key. -/
theorem key_eq {i : Nat} {e : Int × V} (at_i : (mapOf entries)[i]? = some e) : e.1 = i := by
  have key : ((mapOf entries).map Prod.fst)[i]? = some e.1 := by
    rw [List.getElem?_map, at_i]
    rfl
  rw [keyed.keys, List.getElem?_map] at key
  obtain ⟨j, at_j, same⟩ := Option.map_eq_some_iff.mp key
  obtain ⟨less, value⟩ := List.getElem?_eq_some_iff.mp at_j
  rw [List.getElem_range] at value
  omega

theorem getElem? {e : Int × V} (mem : e ∈ entries) :
    0 ≤ e.1 ∧ (mapOf entries)[e.1.toNat]? = some e := by
  obtain ⟨i, at_i⟩ := List.mem_iff_getElem?.mp (keyed.perm.mem_iff.mpr mem)
  have key := keyed.key_eq at_i
  refine ⟨by omega, ?_⟩
  rw [key, Int.toNat_natCast]
  exact at_i

end Keyed

/-! ## The whole map -/

/-- The array holds as many elements as were put into the map, each at the index of its key. -/
def Whole (conv : Int × V → γ) (entries : List (Int × V)) (array : List γ) : Prop :=
  array.length = entries.length ∧
    ∀ e ∈ entries, 0 ≤ e.1 ∧ array[e.1.toNat]? = some (conv e)

theorem whole_iff {f : σ → Int × V → σ} {get : σ → List γ} {conv : Int × V → γ}
    {Accepted : Nat → Int × V → Prop} {Inv : σ → Prop} (appends : Appends f get conv Accepted Inv)
    {s : σ} (inv : Inv s) (empty : get s = []) (entries : List (Int × V)) :
    Whole conv entries (get ((mapOf entries).foldl f s)) ↔
      Keyed entries ∧ ∀ e ∈ entries, Accepted e.1.toNat e := by
  have none : (get s).length = 0 := by rw [empty, List.length_nil]
  constructor
  · intro whole
    have bound := appends.length_le (mapOf entries) inv
    rw [whole.1, none, Nat.zero_add] at bound
    have nodup := OrdMap.nodup_keys_of_length law bound
    have keyed : Keyed entries := by
      refine keyed_of_bounded nodup fun e mem => ?_
      obtain ⟨nonneg, at_key⟩ := whole.2 e mem
      have less := (List.getElem?_eq_some_iff.mp at_key).1
      rw [whole.1] at less
      omega
    refine ⟨keyed, fun e mem => ?_⟩
    have length : (get s).length + (mapOf entries).length ≤
        (get ((mapOf entries).foldl f s)).length := by
      rw [whole.1, none, Nat.zero_add, keyed.perm.length_eq]
    have accepted := appends.all_of_length inv length e.1.toNat e (keyed.getElem? mem).2
    rw [none, Nat.zero_add] at accepted
    exact accepted
  · intro acceptable
    obtain ⟨keyed, accepted⟩ := acceptable
    have array : get ((mapOf entries).foldl f s) = get s ++ (mapOf entries).map conv := by
      refine appends.get_of_all inv fun i e at_i => ?_
      have own := accepted e (keyed.perm.mem_iff.mp (List.mem_of_getElem? at_i))
      rw [keyed.key_eq at_i, Int.toNat_natCast] at own
      rw [none, Nat.zero_add]
      exact own
    rw [array, empty, List.nil_append]
    refine ⟨?_, fun e mem => ?_⟩
    · rw [List.length_map, keyed.perm.length_eq]
    · obtain ⟨nonneg, at_key⟩ := keyed.getElem? mem
      refine ⟨nonneg, ?_⟩
      rw [List.getElem?_map, at_key]
      rfl

end Appending
