import Mathlib.Data.List.Count
import Mathlib.Data.List.Perm.Basic
import Mathlib.Logic.Function.Basic
import Mathlib.Tactic.Common

/-!
# Reference counts

Objects that are created with one reference and deleted when the last one is given up, with counters
of fixed width. The references in use are a list of objects, one entry for each of them; `Exact`
says that every counter is the number of its entries and that the objects without an entry are those
that do not exist.

`Keeps` is the discipline under which this stays so: a thread uses what it has a reference to, or
what is lent to it, and gives up its own references only. It speaks of one thread and of no heap.
`Exact.on` says that one access of a thread that keeps to it, at any point of an execution of many
threads, finds its object and leaves the counters exact.
-/

namespace RefCount

variable {K : Type*} [DecidableEq K]

/-! ## The heap -/

inductive Access (K : Type*)
  | new (a : K)
  | read (a : K)
  | inc (a : K)
  | dec (a : K)

/-- The counter of each object that exists. -/
abbrev Heap (K : Type*) := K → Option Nat

/-- An access with counters modulo `m`; `none` if the object does not exist. Reaching zero deletes
the object. -/
def Access.on (m : Nat) (h : Heap K) : Access K → Option (Heap K)
  | .new a => some (Function.update h a (some 1))
  | .read a => (h a).map fun _ => h
  | .inc a => (h a).map fun n => Function.update h a (some ((n + 1) % m))
  | .dec a => (h a).map fun n =>
    let less := (n + (m - 1)) % m
    Function.update h a (if less = 0 then none else some less)

def exec (m : Nat) (h : Heap K) (accesses : List (Access K)) : Option (Heap K) :=
  accesses.foldlM (Access.on m) h

/-- Every counter is the number of references. -/
def Exact (m : Nat) (h : Heap K) (held : List K) : Prop :=
  ∀ a, held.count a < m ∧ h a = if held.count a = 0 then none else some (held.count a)

variable {m : Nat} {h : Heap K} {held held' : List K} {a : K}

theorem exact_nil (pos : 0 < m) : Exact m (fun _ : K => none) [] := fun _ => ⟨pos, rfl⟩

theorem Exact.perm (exact : Exact m h held) (perm : held.Perm held') : Exact m h held' := by
  intro a
  rw [← perm.count_eq]
  exact exact a

theorem Exact.eq_some (exact : Exact m h held) (mem : a ∈ held) :
    h a = some (held.count a) := by
  have pos := List.count_pos_iff.mpr mem
  rw [(exact a).2, if_neg (by omega)]

theorem Exact.eq_none_iff (exact : Exact m h held) : h a = none ↔ a ∉ held := by
  rw [(exact a).2, ← List.count_eq_zero]
  split
  case isTrue zero => exact iff_of_true rfl zero
  case isFalse pos => exact iff_of_false (Option.some_ne_none _) pos

/-- Counters elsewhere are not touched. -/
theorem Exact.update (exact : Exact m h held) {counter : Option Nat}
    (others : ∀ b, b ≠ a → held'.count b = held.count b) (few : held'.count a < m)
    (here : counter = if held'.count a = 0 then none else some (held'.count a)) :
    Exact m (Function.update h a counter) held' := by
  intro b
  rcases eq_or_ne b a with rfl | ne
  · rw [Function.update_self]
    exact ⟨few, here⟩
  · rw [Function.update_of_ne ne, others b ne]
    exact exact b

/-! ## One access -/

theorem Exact.read (exact : Exact m h held) (mem : a ∈ held) :
    (Access.read a).on m h = some h := by
  simp [Access.on, exact.eq_some mem]

theorem Exact.inc (exact : Exact m h held) (mem : a ∈ held) (few : (a :: held).count a < m) :
    ∃ h', (Access.inc a).on m h = some h' ∧ Exact m h' (a :: held) := by
  refine ⟨_, by rw [Access.on, exact.eq_some mem, Option.map_some], ?_⟩
  rw [List.count_cons_self] at few
  refine exact.update (fun b ne => List.count_cons_of_ne ne.symm) ?_ ?_
  · rw [List.count_cons_self]
    exact few
  · rw [List.count_cons_self, if_neg (by omega), Nat.mod_eq_of_lt few]

theorem Exact.dec (exact : Exact m h (a :: held)) :
    ∃ h', (Access.dec a).on m h = some h' ∧ Exact m h' held := by
  have few := (exact a).1
  refine ⟨_, by rw [Access.on, exact.eq_some List.mem_cons_self, Option.map_some], ?_⟩
  rw [List.count_cons_self] at few ⊢
  have less : (held.count a + 1 + (m - 1)) % m = held.count a := by
    rw [show held.count a + 1 + (m - 1) = held.count a + m by omega, Nat.add_mod_right]
    exact Nat.mod_eq_of_lt (by omega)
  refine exact.update (fun b ne => (List.count_cons_of_ne ne.symm).symm) (by omega) ?_
  simp only [less]

theorem Exact.new (exact : Exact m h held) (fresh : h a = none) (wide : 1 < m) :
    Exact m (Function.update h a (some 1)) (a :: held) := by
  have zero := List.count_eq_zero.mpr (exact.eq_none_iff.mp fresh)
  refine exact.update (fun b ne => List.count_cons_of_ne ne.symm) ?_ ?_
  · rw [List.count_cons_self, zero]
    exact wide
  · rw [List.count_cons_self, zero]
    rfl

/-! ## The discipline -/

/-- What one access does to the references of the thread. -/
def Access.after (held : List K) : Access K → List K
  | .inc a => a :: held
  | .dec a => held.erase a
  | _ => held

/-- What it creates. -/
def Access.created : Access K → List K
  | .new a => [a]
  | _ => []

def Access.Allowed (lent held : List K) : Access K → Prop
  | .new _ => True
  | .read a => a ∈ held ∨ a ∈ lent
  | .inc a => a ∈ held ∨ a ∈ lent
  | .dec a => a ∈ held

/-- A thread with the references `held` makes the accesses and is left with `final`. -/
def Keeps (lent : List K) : (held : List K) → List (Access K) → (final : List K) → Prop
  | held, [], final => held.Perm final
  | held, access :: rest, final =>
    access.Allowed lent held ∧ Keeps lent (access.after held) rest final

variable {lent final : List K} {access : Access K} {accesses : List (Access K)}

omit [DecidableEq K] in
theorem Access.Allowed.perm (allowed : access.Allowed lent held) (perm : held.Perm held') :
    access.Allowed lent held' := by
  cases access with
  | new a => trivial
  | read a => exact allowed.imp_left perm.mem_iff.mp
  | inc a => exact allowed.imp_left perm.mem_iff.mp
  | dec a => exact perm.mem_iff.mp allowed

theorem Access.after_perm (perm : held.Perm held') (access : Access K) :
    (access.after held).Perm (access.after held') := by
  cases access with
  | new a => exact perm
  | read a => exact perm
  | inc a => exact perm.cons a
  | dec a => exact perm.erase a

theorem Keeps.perm (keeps : Keeps lent held accesses final) (perm : held.Perm held') :
    Keeps lent held' accesses final := by
  induction accesses generalizing held held' with
  | nil => exact perm.symm.trans keeps
  | cons access rest ih => exact ⟨keeps.1.perm perm, ih keeps.2 (access.after_perm perm)⟩

theorem Keeps.append {mid : List K} {more : List (Access K)} (keeps : Keeps lent held accesses mid)
    (later : Keeps lent mid more final) : Keeps lent held (accesses ++ more) final := by
  induction accesses generalizing held with
  | nil => exact later.perm (List.Perm.symm keeps)
  | cons access rest ih => exact ⟨keeps.1, ih keeps.2⟩

theorem keeps_nil (lent held : List K) : Keeps lent held [] held := List.Perm.refl held

theorem keeps_reads {as : List K} (here : ∀ a ∈ as, a ∈ held ∨ a ∈ lent) :
    Keeps lent held (as.map .read) held := by
  induction as with
  | nil => exact keeps_nil lent held
  | cons a rest ih =>
      obtain ⟨first, later⟩ := List.forall_mem_cons.mp here
      exact ⟨first, ih later⟩

theorem keeps_news (as : List K) : Keeps lent held (as.map .new) held := by
  induction as with
  | nil => exact keeps_nil lent held
  | cons a rest ih => exact ⟨trivial, ih⟩

theorem keeps_decs {as : List K} (perm : held.Perm (as ++ final)) :
    Keeps lent held (as.map .dec) final := by
  induction as generalizing held with
  | nil => exact perm
  | cons a rest ih =>
      refine ⟨perm.mem_iff.mpr List.mem_cons_self, ih ?_⟩
      have erased := perm.erase a
      rw [List.cons_append, List.erase_cons_head] at erased
      exact erased

/-- What a sequence of accesses creates. -/
def created (accesses : List (Access K)) : List K := accesses.flatMap Access.created

omit [DecidableEq K] in
@[simp] theorem created_append (accesses more : List (Access K)) :
    created (accesses ++ more) = created accesses ++ created more := List.flatMap_append

omit [DecidableEq K] in
@[simp] theorem created_cons (access : Access K) (accesses : List (Access K)) :
    created (access :: accesses) = access.created ++ created accesses := List.flatMap_cons

omit [DecidableEq K] in
@[simp] theorem created_nil : created ([] : List (Access K)) = [] := rfl

omit [DecidableEq K] in
@[simp] theorem created_reads (as : List K) : created (as.map .read) = [] := by
  simp [created, List.flatMap_map, Access.created]

omit [DecidableEq K] in
@[simp] theorem created_decs (as : List K) : created (as.map .dec) = [] := by
  simp [created, List.flatMap_map, Access.created]

omit [DecidableEq K] in
@[simp] theorem created_news (as : List K) : created (as.map .new) = as := by
  simp [created, List.flatMap_map, Access.created]

/-! ## Loops -/

section Loops

variable {S I : Type*}

/-- The accesses of a loop, whose turns change a state that the accesses depend on. -/
def logged (turn : S → I → S) (log : S → I → List (Access K)) : S → List I → List (Access K)
  | _, [] => []
  | s, i :: rest => log s i ++ logged turn log (turn s i) rest

theorem keeps_logged (refs : S → List K) {turn : S → I → S} {log : S → I → List (Access K)}
    {P : S → Prop} {visited : List I}
    (step : ∀ s, P s → ∀ i ∈ visited,
      P (turn s i) ∧ Keeps lent (refs s) (log s i) (refs (turn s i)))
    {s : S} (start : P s) :
    Keeps lent (refs s) (logged turn log s visited) (refs (visited.foldl turn s)) := by
  induction visited generalizing s with
  | nil => exact keeps_nil lent (refs s)
  | cons i rest ih =>
      obtain ⟨next, first⟩ := step s start i List.mem_cons_self
      exact first.append (ih (fun s start j mem => step s start j (List.mem_cons_of_mem i mem))
        next)

omit [DecidableEq K] in
theorem created_logged {turn : S → I → S} {log : S → I → List (Access K)}
    (nothing : ∀ s i, created (log s i) = []) (s : S) (visited : List I) :
    created (logged turn log s visited) = [] := by
  induction visited generalizing s with
  | nil => rfl
  | cons i rest ih =>
      rw [logged, created_append, nothing, ih]
      rfl

end Loops

/-! ## Many threads -/

/-- An access to something that is held finds it. -/
theorem Exact.isSome_on {total : List K} (exact : Exact m h total)
    (allowed : access.Allowed lent held) (isHeld : ∀ a, a ∈ held ∨ a ∈ lent → a ∈ total) :
    (access.on m h).isSome = true := by
  cases access with
  | new a => rfl
  | read a => simp [Access.on, exact.eq_some (isHeld a allowed)]
  | inc a => simp [Access.on, exact.eq_some (isHeld a allowed)]
  | dec a => simp [Access.on, exact.eq_some (isHeld a (.inl allowed))]

/-- One access of a thread with the references `held`, all other references being `others`. -/
theorem Exact.on {others : List K} (exact : Exact m h (others ++ held))
    (allowed : access.Allowed lent held) (lentByOthers : ∀ a ∈ lent, a ∈ others)
    (fresh : ∀ a, access = .new a → h a = none)
    (few : ∀ a, (others ++ (access.created ++ access.after held)).count a < m) :
    ∃ h', access.on m h = some h' ∧
      Exact m h' (others ++ (access.created ++ access.after held)) := by
  have exists_ : ∀ a, a ∈ held ∨ a ∈ lent → a ∈ others ++ held := by
    intro a isHeld
    rcases isHeld with own | borrowed
    · exact List.mem_append_right others own
    · exact List.mem_append_left held (lentByOthers a borrowed)
  cases access with
  | new a =>
      have moved : (a :: (others ++ held)).Perm (others ++ ([a] ++ held)) :=
        List.perm_middle.symm
      have one := few a
      rw [show (Access.new a).created ++ (Access.new a).after held = [a] ++ held from rfl,
        ← moved.count_eq, List.count_cons_self,
        List.count_eq_zero.mpr (exact.eq_none_iff.mp (fresh a rfl))] at one
      exact ⟨_, rfl, (exact.new (fresh a rfl) one).perm moved⟩
  | read a => exact ⟨h, exact.read (exists_ a allowed), exact⟩
  | inc a =>
      have moved : (a :: (others ++ held)).Perm (others ++ a :: held) := List.perm_middle.symm
      have room : (a :: (others ++ held)).count a < m := by
        rw [moved.count_eq]
        exact few a
      obtain ⟨h', done, exact'⟩ := exact.inc (exists_ a allowed) room
      exact ⟨h', done, exact'.perm moved⟩
  | dec a =>
      have split : (others ++ held).Perm (a :: (others ++ held.erase a)) :=
        ((List.perm_cons_erase allowed).append_left others).trans List.perm_middle
      exact (exact.perm split).dec

omit [DecidableEq K] in
/-- The references of many holders, one of which has others instead. -/
theorem flatMap_update_perm {I : Type*} [DecidableEq I] {holders : List I}
    (nodup : holders.Nodup) {i : I} (mem : i ∈ holders) (refs : I → List K) (x : List K) :
    (holders.flatMap (Function.update refs i x)).Perm
      (x ++ (holders.erase i).flatMap refs) := by
  have first : (holders.flatMap (Function.update refs i x)).Perm
      (x ++ (holders.erase i).flatMap (Function.update refs i x)) := by
    have split := (List.perm_cons_erase mem).flatMap_right (Function.update refs i x)
    rw [List.flatMap_cons, Function.update_self] at split
    exact split
  have others : (holders.erase i).flatMap (Function.update refs i x) =
      (holders.erase i).flatMap refs := by
    refine List.flatMap_congr fun j left => ?_
    exact Function.update_of_ne (nodup.mem_erase_iff.mp left).1 _ _
  rw [others] at first
  exact first

/-! ## Sequences of accesses -/

theorem exec_append (h : Heap K) (accesses more : List (Access K)) :
    exec m h (accesses ++ more) = (exec m h accesses).bind fun h' => exec m h' more :=
  List.foldlM_append

theorem Exact.exec_reads (exact : Exact m h held) (as : List K) (here : ∀ a ∈ as, a ∈ held) :
    exec m h (as.map .read) = some h := by
  induction as with
  | nil => rfl
  | cons a rest ih =>
      obtain ⟨first, later⟩ := List.forall_mem_cons.mp here
      unfold exec
      rw [List.map_cons, List.foldlM_cons, exact.read first]
      exact ih later

theorem Exact.exec_decs {as : List K} (exact : Exact m h (as ++ held)) :
    ∃ h', exec m h (as.map .dec) = some h' ∧ Exact m h' held := by
  induction as generalizing h with
  | nil => exact ⟨h, rfl, exact⟩
  | cons a rest ih =>
      obtain ⟨next, first, exact'⟩ := exact.dec
      obtain ⟨h', later, final⟩ := ih exact'
      refine ⟨h', ?_, final⟩
      unfold exec
      rw [List.map_cons, List.foldlM_cons, first]
      exact later

end RefCount
