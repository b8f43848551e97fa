import Mathlib.Data.List.Basic
import Mathlib.Data.List.Flatten
import Mathlib.Tactic.Common

/-!
# Search level by level

A search extends every element of a level by each of its extensions (`reach`). A test that depends
on the levels up to `m` alone may be made on level `m`, of each extension, or on the last level, of
the elements reached: the elements that pass are the same ones if level `m` keeps exactly the
extensions that pass (`filter_reach_eq`). If level `m` chooses among the extensions, choosing among
those that pass may keep more (`filter_reach_sublist`). -/

namespace LevelSearch

variable {α : Type*}

def reach (extend : Nat → α → List α) (start : List α) : Nat → List α
  | 0 => start
  | k + 1 => (reach extend start k).flatMap (extend (k + 1))

variable {extend extend' : Nat → α → List α} {start : List α} {m k : Nat}

theorem reach_congr (same : ∀ i, 1 ≤ i → i ≤ k → ∀ a ∈ reach extend start (i - 1),
    extend' i a = extend i a) : reach extend' start k = reach extend start k := by
  induction k with
  | zero => rfl
  | succ k ih =>
      rw [reach, reach, ih fun i pos le => same i pos (by omega)]
      exact List.flatMap_congr fun a mem => same (k + 1) (by omega) (Nat.le_refl _) a mem

section Filter

variable {test : α → Bool}
  (before : ∀ i, 1 ≤ i → i < m → ∀ a ∈ reach extend start (i - 1), extend' i a = extend i a)
  (after : ∀ i, m < i → ∀ a, extend' i a = extend i a)
  (kept : ∀ i, m < i → ∀ a, ∀ b ∈ extend i a, test b = test a)

include kept

/-- Below level `m` a test passes through the extension. -/
theorem filter_flatMap_extend (l : List α) (lt : m < k) :
    (l.flatMap (extend k)).filter test = (l.filter test).flatMap (extend k) := by
  induction l with
  | nil => rfl
  | cons a rest ih =>
      rw [List.flatMap_cons, List.filter_append, ih]
      by_cases pass : test a = true
      · have all : (extend k a).filter test = extend k a :=
          List.filter_eq_self.mpr fun b mem => (kept k lt a b mem).trans pass
        rw [List.filter_cons_of_pos pass, List.flatMap_cons, all]
      · have none : (extend k a).filter test = [] :=
          List.filter_eq_nil_iff.mpr fun b mem => (kept k lt a b mem) ▸ pass
        rw [List.filter_cons_of_neg pass, none, List.nil_append]

include before after

theorem filter_reach_sublist (pos : 1 ≤ m)
    (chosen : ∀ a ∈ reach extend start (m - 1), ((extend m a).filter test).Sublist (extend' m a))
    (le : m ≤ k) : ((reach extend start k).filter test).Sublist (reach extend' start k) := by
  induction k with
  | zero => omega
  | succ k ih =>
      rcases Nat.lt_or_eq_of_le le with lt | rfl
      · rw [reach, reach, filter_flatMap_extend kept _ lt, funext fun a => after (k + 1) lt a]
        exact (ih (by omega)).flatMap _
      · have same : reach extend' start k = reach extend start k :=
          reach_congr fun i pos le => before i pos (by omega)
        rw [reach, reach, same, List.filter_flatMap]
        exact List.Sublist.flatMap_right _ chosen

theorem filter_reach_eq (pos : 1 ≤ m)
    (chosen : ∀ a ∈ reach extend start (m - 1), (extend m a).filter test = extend' m a)
    (le : m ≤ k) : (reach extend start k).filter test = reach extend' start k := by
  induction k with
  | zero => omega
  | succ k ih =>
      rcases Nat.lt_or_eq_of_le le with lt | rfl
      · rw [reach, reach, filter_flatMap_extend kept _ lt, ih (by omega),
          funext fun a => after (k + 1) lt a]
      · have same : reach extend' start k = reach extend start k :=
          reach_congr fun i pos le => before i pos (by omega)
        rw [reach, reach, same, List.filter_flatMap]
        exact List.flatMap_congr chosen

end Filter

/-! ## Choosing one extension -/

section Choice

variable {test : α → Bool} {l : List α}

theorem filter_take_one_sublist (test : α → Bool) (l : List α) :
    ((l.take 1).filter test).Sublist ((l.filter test).take 1) := by
  cases l with
  | nil => exact .refl _
  | cons a rest =>
      by_cases pass : test a = true
      · simp [pass]
      · simp [pass]

theorem filter_take_one_eq (chosen : ∀ a ∈ l, test a = true → ∀ b ∈ l.take 1, test b = true) :
    (l.take 1).filter test = (l.filter test).take 1 := by
  cases l with
  | nil => rfl
  | cons a rest =>
      by_cases pass : test a = true
      · simp [pass]
      · have none : (a :: rest).filter test = [] :=
          List.filter_eq_nil_iff.mpr fun b mem passes => pass (chosen b mem passes a (by simp))
        rw [none]
        simp [pass]

end Choice

end LevelSearch
