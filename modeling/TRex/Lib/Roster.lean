import Mathlib.Data.List.Basic
import Mathlib.Data.Set.Insert

/-!
# Lists that stand for sets

A list of entries stands for the set of their keys. An entry is added at the end, possibly only when
no entry is taken for it, and the first entry taken for another one is erased. What is taken for
what need not follow the keys: `held_addUnless_iff` and `held_eraseP_iff` say when the set of keys
still changes as the set of a key added or taken away. -/

namespace Roster

variable {α κ : Type*} {key : α → κ} {taken : α → Bool} {l l' : List α} {x : α} {k : κ}

/-- The keys of the entries. -/
def held (key : α → κ) (l : List α) : Set κ := {k | ∃ x ∈ l, key x = k}

theorem held_cons : held key (x :: l) = insert (key x) (held key l) := by
  ext k
  simp only [held, Set.mem_ofPred_eq, Set.mem_insert_iff, List.mem_cons, or_and_right, exists_or,
    exists_eq_left, eq_comm (a := k)]

theorem held_concat : held key (l ++ [x]) = insert (key x) (held key l) := by
  ext k
  simp only [held, Set.mem_ofPred_eq, Set.mem_insert_iff, List.mem_append, List.mem_singleton,
    or_and_right, exists_or, exists_eq_left, eq_comm (a := k)]
  exact or_comm

/-- Adding an entry unless one is taken for it. -/
def addUnless (taken : α → Bool) (l : List α) (x : α) : List α :=
  if l.any taken then l else l ++ [x]

/-- The key is added unless an entry is taken for the new one that has not its key. -/
theorem held_addUnless_iff :
    held key (addUnless taken l x) = insert (key x) (held key l) ↔
      (l.any taken = true → key x ∈ held key l) := by
  rw [addUnless]
  split
  case isTrue some =>
    constructor
    · intro same _
      rw [same]
      exact Set.mem_insert _ _
    · intro already
      exact (Set.insert_eq_of_mem (already some)).symm
  case isFalse none => exact ⟨fun _ some => absurd some none, fun _ => held_concat⟩

/-- Erasing the first entry taken for it takes away the key `k` and nothing else: either the entry
has the key and is the only one, or the key is not there and the entry is not the only one of its
key. -/
def ErasesOnly (key : α → κ) (taken : α → Bool) (l : List α) (k : κ) : Prop :=
  match l.find? taken with
  | none => k ∉ held key l
  | some x => key x = k ∧ k ∉ held key (l.eraseP taken) ∨
      k ∉ held key l ∧ key x ∈ held key (l.eraseP taken)

theorem held_eq_insert (found : l.find? taken = some x) :
    held key l = insert (key x) (held key (l.eraseP taken)) := by
  induction l with
  | nil => cases found
  | cons y rest ih =>
      by_cases here : taken y = true
      · rw [List.find?_cons_of_pos here] at found
        cases found
        rw [List.eraseP_cons_of_pos here, held_cons]
      · rw [List.find?_cons_of_neg here] at found
        rw [List.eraseP_cons_of_neg here, held_cons, held_cons, ih found, Set.insert_comm]

theorem sdiff_singleton_eq_self_iff {s : Set κ} : s = s \ {k} ↔ k ∉ s := by
  constructor
  · intro same mem
    rw [same] at mem
    exact mem.2 rfl
  · intro absent
    ext j
    refine ⟨fun mem => ⟨mem, ?_⟩, And.left⟩
    rintro rfl
    exact absent mem

theorem held_eraseP_iff :
    held key (l.eraseP taken) = held key l \ {k} ↔ ErasesOnly key taken l k := by
  rw [ErasesOnly]
  cases found : l.find? taken with
  | none =>
      rw [List.eraseP_of_forall_not (by simpa using found)]
      exact sdiff_singleton_eq_self_iff
  | some x =>
      simp only [held_eq_insert found]
      generalize held key (l.eraseP taken) = rest
      by_cases same : key x = k
      · have without : insert (key x) rest \ {k} = rest \ {k} := by
          rw [same]
          ext j
          grind
        rw [without, sdiff_singleton_eq_self_iff]
        simp [same]
      · constructor
        · intro eq
          have kept : key x ∈ rest := by
            rw [eq]
            exact ⟨Set.mem_insert _ _, same⟩
          refine .inr ⟨?_, kept⟩
          rw [Set.insert_eq_of_mem kept] at eq ⊢
          exact sdiff_singleton_eq_self_iff.mp eq
        · rintro (⟨isKey, -⟩ | ⟨absent, kept⟩)
          · exact absurd isKey same
          · rw [Set.insert_eq_of_mem kept] at absent ⊢
            exact sdiff_singleton_eq_self_iff.mpr absent

end Roster
