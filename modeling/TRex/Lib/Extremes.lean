import Mathlib.Order.Bounds.Basic
import Mathlib.Order.Lattice
import Mathlib.Tactic.Common

/-!
# Least and greatest element in one pass

One pass over a list keeps the least and the greatest element seen so far, starting from one element
that is both. As the least never exceeds the greatest, an element that lowers the one does not raise
the other, so a pass may test the greatest only when the least stays (`widen`).
-/

namespace Extremes

variable {α : Type*} [LinearOrder α]

/-- One element more: the first test that succeeds is the last one made. -/
def widen (bounds : α × α) (x : α) : α × α :=
  if x < bounds.1 then (x, bounds.2)
  else if bounds.2 < x then (bounds.1, x)
  else bounds

/-- The two are the least and the greatest element of a set. -/
def Are (s : Set α) (bounds : α × α) : Prop := IsLeast s bounds.1 ∧ IsGreatest s bounds.2

variable {s : Set α} {bounds bounds' : α × α}

theorem are_singleton (x : α) : Are {x} (x, x) := ⟨isLeast_singleton, isGreatest_singleton⟩

theorem Are.le (are : Are s bounds) : bounds.1 ≤ bounds.2 := are.1.2 are.2.1

theorem Are.unique (are : Are s bounds) (are' : Are s bounds') : bounds = bounds' :=
  Prod.ext (are.1.unique are'.1) (are.2.unique are'.2)

theorem Are.widen (are : Are s bounds) (x : α) : Are (insert x s) (widen bounds x) := by
  have le := are.le
  have least := are.1.insert x
  have greatest := are.2.insert x
  unfold Extremes.widen
  by_cases lower : x < bounds.1
  · rw [if_pos lower]
    rw [min_eq_left lower.le] at least
    rw [max_eq_right (lower.le.trans le)] at greatest
    exact ⟨least, greatest⟩
  · rw [if_neg lower]
    rw [min_eq_right (not_lt.mp lower)] at least
    by_cases higher : bounds.2 < x
    · rw [if_pos higher]
      rw [max_eq_left higher.le] at greatest
      exact ⟨least, greatest⟩
    · rw [if_neg higher]
      rw [max_eq_right (not_lt.mp higher)] at greatest
      exact ⟨least, greatest⟩

/-- The pass over a list widens the bounds to those of all elements. -/
theorem Are.foldl_widen (are : Are s bounds) (l : List α) :
    Are (s ∪ {x | x ∈ l}) (l.foldl Extremes.widen bounds) := by
  induction l generalizing s bounds with
  | nil => simpa using are
  | cons x rest ih =>
      have all : s ∪ {y | y ∈ x :: rest} = insert x s ∪ {y | y ∈ rest} := by
        ext y
        simp only [Set.mem_union, Set.mem_ofPred_eq, List.mem_cons, Set.mem_insert_iff]
        exact or_left_comm.trans or_assoc.symm
      rw [all]
      exact ih (are.widen x)

end Extremes
