import Mathlib.Algebra.BigOperators.Group.List.Basic
import Mathlib.Algebra.Order.BigOperators.Group.List
import Mathlib.Algebra.Order.Group.Nat
import Mathlib.Algebra.Order.Ring.Nat
import Mathlib.Data.List.Count
import Mathlib.Data.List.Induction
import Mathlib.Logic.Function.Basic
import Mathlib.Tactic.Common

/-!
# Counting up to a threshold

A tally keeps one counter for each item. A hit increments the item's counter and reports the item
when the counter reaches the item's threshold. Counters pass every value on their way up, so an item
is reported exactly if its threshold is above the start and it was hit often enough to get there
(`reported_foldl_hit`). The last section counts the pairs of a relation between two lists, which is
how hits add up.
-/

namespace Tally

variable {α β : Type*} [DecidableEq α] (threshold : α → Nat) (report : α → β → β)

/-- One hit: the counters and what has been reported so far. -/
def hit (s : (α → Nat) × β) (a : α) : (α → Nat) × β :=
  if s.1 a + 1 = threshold a then (Function.update s.1 a (s.1 a + 1), report a s.2)
  else (Function.update s.1 a (s.1 a + 1), s.2)

variable {threshold report}

theorem fst_hit (s : (α → Nat) × β) (a : α) :
    (hit threshold report s a).1 = Function.update s.1 a (s.1 a + 1) := by
  unfold hit
  split <;> rfl

theorem fst_foldl_hit (hits : List α) (s : (α → Nat) × β) (a : α) :
    (hits.foldl (hit threshold report) s).1 a = s.1 a + hits.count a := by
  induction hits generalizing s with
  | nil => simp
  | cons b rest ih =>
      rw [List.foldl_cons, ih, fst_hit]
      rcases eq_or_ne a b with rfl | ne
      · rw [Function.update_self, List.count_cons_self]
        omega
      · rw [Function.update_of_ne ne, List.count_cons_of_ne ne.symm]

/-- What the report of any item with the property `target` adds, and no other report does, is
present in the end exactly if it was there before or the counter of such an item reached its
threshold. -/
theorem reported_foldl_hit {present : β → Prop} {target : α → Prop}
    (reports : ∀ a s, present (report a s) ↔ present s ∨ target a) (hits : List α)
    (s : (α → Nat) × β) :
    present (hits.foldl (hit threshold report) s).2 ↔ present s.2 ∨
      ∃ a, target a ∧ s.1 a < threshold a ∧ threshold a ≤ s.1 a + hits.count a := by
  induction hits using List.reverseRecOn with
  | nil =>
      rw [List.foldl_nil]
      refine ⟨Or.inl, ?_⟩
      rintro (there | ⟨a, -, less, le⟩)
      · exact there
      · rw [List.count_nil] at le
        omega
  | append_singleton hits b ih =>
      have counts : ∀ a, (hits ++ [b]).count a = hits.count a + if b = a then 1 else 0 := by
        intro a
        rw [List.count_append, List.count_singleton]
        simp only [beq_iff_eq]
      -- the last hit reports `b` exactly when its counter gets to the threshold
      have last : present ((hits ++ [b]).foldl (hit threshold report) s).2 ↔
          present (hits.foldl (hit threshold report) s).2 ∨
            (target b ∧ s.1 b + hits.count b + 1 = threshold b) := by
        rw [List.foldl_append, List.foldl_cons, List.foldl_nil]
        generalize at_b : hits.foldl (hit threshold report) s = s'
        have count : s'.1 b = s.1 b + hits.count b := by rw [← at_b, fst_foldl_hit]
        unfold hit
        rw [count]
        split
        case isTrue reached =>
          rw [reports]
          simp [reached]
        case isFalse before => simp [before]
      rw [last, ih, or_assoc]
      refine or_congr_right ⟨?_, ?_⟩
      · rintro (⟨a, is_target, less, le⟩ | ⟨is_target, reached⟩)
        · exact ⟨a, is_target, less, by rw [counts]; omega⟩
        · exact ⟨b, is_target, by omega, by rw [counts, if_pos rfl]; omega⟩
      · rintro ⟨a, is_target, less, le⟩
        rw [counts] at le
        by_cases enough : threshold a ≤ s.1 a + hits.count a
        · exact .inl ⟨a, is_target, less, enough⟩
        · split at le
          case isTrue same =>
            subst same
            exact .inr ⟨is_target, by omega⟩
          case isFalse => omega

/-! ## Counting pairs -/

section Pairs

variable {δ γ : Type*}

theorem sum_map_ite_one (l : List γ) (p : γ → Bool) :
    (l.map fun c => if p c = true then 1 else 0).sum = l.countP p := by
  induction l with
  | nil => rfl
  | cons c rest ih => rw [List.map_cons, List.sum_cons, List.countP_cons, ih, Nat.add_comm]

/-- Pairs in a relation can be counted by rows or by columns. -/
theorem sum_countP_comm (xs : List δ) (ys : List γ) (r : δ → γ → Bool) :
    (xs.map fun x => ys.countP (r x)).sum = (ys.map fun y => xs.countP fun x => r x y).sum := by
  induction xs with
  | nil => simp
  | cons x rest ih =>
      have column : ∀ y, (x :: rest).countP (fun x => r x y) =
          (rest.countP fun x => r x y) + if r x y = true then 1 else 0 :=
        fun y => List.countP_cons
      simp only [column]
      rw [List.map_cons, List.sum_cons, List.sum_map_add, sum_map_ite_one, ih, Nat.add_comm]

/-- A sum of terms at most 1 is as large as the number of terms only if each term is 1. -/
theorem length_le_sum_iff {l : List γ} {f : γ → Nat} (le_one : ∀ c ∈ l, f c ≤ 1) :
    l.length ≤ (l.map f).sum ↔ ∀ c ∈ l, f c = 1 := by
  induction l with
  | nil => simp
  | cons c rest ih =>
      obtain ⟨here, there⟩ := List.forall_mem_cons.mp le_one
      have bound : (rest.map f).sum ≤ rest.length := by
        have each : ∀ n ∈ rest.map f, n ≤ 1 := by
          intro n mem
          obtain ⟨c', inRest, rfl⟩ := List.mem_map.mp mem
          exact there c' inRest
        simpa using List.sum_le_card_nsmul (rest.map f) 1 each
      rw [List.forall_mem_cons, ← ih there, List.map_cons, List.sum_cons, List.length_cons]
      omega

end Pairs

end Tally
