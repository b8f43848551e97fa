import Mathlib.Data.List.Perm.Basic
import Mathlib.Data.List.Sort
import Mathlib.Order.Basic
import Mathlib.Tactic.Common

/-!
# Steps taken in another order

A fold over a list does not depend on the order of the list if the steps commute in the states that
an invariant allows (`foldl_eq_of_perm`). The case in point is insertion into a list ordered by a
key: an element goes behind those with the same key, so two insertions commute as soon as the keys
are different (`orderedInsert_comm`), whatever the list is.
-/

namespace Reordering

variable {α β : Type*}

/-- Two orders of the same steps lead to the same state, if the invariant survives every step and
any two steps commute under it. -/
theorem foldl_eq_of_perm {f : β → α → β} {Inv : β → Prop} {l₁ l₂ : List α} (perm : l₁.Perm l₂)
    (keeps : ∀ a ∈ l₁, ∀ b, Inv b → Inv (f b a))
    (comm : ∀ a ∈ l₁, ∀ a' ∈ l₁, ∀ b, Inv b → f (f b a) a' = f (f b a') a) {b : β} (inv : Inv b) :
    l₁.foldl f b = l₂.foldl f b := by
  induction perm generalizing b with
  | nil => rfl
  | cons a _ ih =>
      rw [List.foldl_cons, List.foldl_cons]
      refine ih (fun a' mem => keeps a' (List.mem_cons_of_mem a mem)) ?_
        (keeps a List.mem_cons_self b inv)
      intro a' mem a'' mem'
      exact comm a' (List.mem_cons_of_mem a mem) a'' (List.mem_cons_of_mem a mem')
  | swap a a' l =>
      simp only [List.foldl_cons]
      rw [comm a' List.mem_cons_self a (List.mem_cons_of_mem a' List.mem_cons_self) b inv]
  | trans first _ ih ih' =>
      rw [ih keeps comm inv]
      refine ih' (fun a mem => keeps a (first.mem_iff.mpr mem)) ?_ inv
      intro a mem a' mem'
      exact comm a (first.mem_iff.mpr mem) a' (first.mem_iff.mpr mem')

/-! ## Insertion by a key -/

section OrderedInsert

variable [LinearOrder β] (key : α → β)

/-- Insertion before the first element with a greater key. -/
def insertByKey (a : α) (l : List α) : List α :=
  l.orderedInsert (fun x y => key x < key y) a

variable {key}

theorem insertByKey_comm {a b : α} (ne : key a ≠ key b) (l : List α) :
    insertByKey key b (insertByKey key a l) = insertByKey key a (insertByKey key b l) := by
  unfold insertByKey
  induction l with
  | nil =>
      rcases lt_or_gt_of_ne ne with lt | gt
      · simp [lt, lt.asymm]
      · simp [gt, gt.asymm]
  | cons c l ih =>
      -- an element with the smaller key never passes the other one
      rcases lt_or_gt_of_ne ne with lt | gt
      · by_cases before : key b < key c
        · simp [before, lt, lt.trans before, lt.asymm]
        · by_cases before' : key a < key c
          · simp [before, before', lt.asymm]
          · simp [before, before', ih]
      · by_cases before : key a < key c
        · simp [before, gt, gt.trans before, gt.asymm]
        · by_cases before' : key b < key c
          · simp [before, before', gt.asymm]
          · simp [before, before', ih]

/-- An index that separates the elements up to the new key from the greater ones is where the
element goes. -/
theorem insertByKey_eq_of_cut {a : α} {l : List α} {k : Nat}
    (before : ∀ x ∈ l.take k, key x ≤ key a) (after : ∀ x ∈ l.drop k, key a < key x) :
    insertByKey key a l = l.take k ++ a :: l.drop k := by
  unfold insertByKey
  induction l generalizing k with
  | nil => simp
  | cons c l ih =>
      cases k with
      | zero =>
          have greater := after c List.mem_cons_self
          simp [greater]
      | succ k =>
          have le := before c List.mem_cons_self
          have rest := ih (fun x mem => before x (List.mem_cons_of_mem c mem)) after
          simp [not_lt.mpr le, rest]

end OrderedInsert

end Reordering
