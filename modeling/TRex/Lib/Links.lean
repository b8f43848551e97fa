import Mathlib.Algebra.Order.Group.Nat
import Mathlib.Algebra.Group.Basic
import Mathlib.Tactic.Common

/-!
# Weighted links to earlier nodes

Nodes are numbered, and every node but the root 0 is linked to an earlier one. `Climb i j w` is a
way from node `i` up its links to `j`, and `w` is the weight of the links taken. Every node climbs
to the root, and some leaf climbs to it (`exists_climb_leaf`). Where a quantity rises along each
link, by less than its weight, it rises along a way by less than the weight of the way
(`Climb.rise`).
-/

namespace Links

section Climb

variable {M : Type*} [AddCommMonoid M] (parent : Nat → Nat) (weight : Nat → M)

inductive Climb : Nat → Nat → M → Prop
  | here (i : Nat) : Climb i i 0
  | up {i j : Nat} {w : M} (earlier : parent i < i) (rest : Climb (parent i) j w) :
    Climb i j (w + weight i)

variable {parent weight} {i j k n : Nat} {v w : M}

theorem Climb.le (climb : Climb parent weight i j w) : j ≤ i := by
  induction climb with
  | here i => exact le_rfl
  | up earlier _ ih => exact ih.trans earlier.le

theorem Climb.trans (first : Climb parent weight i j w) (second : Climb parent weight j k v) :
    Climb parent weight i k (v + w) := by
  induction first with
  | here i => rwa [add_zero]
  | up earlier _ ih =>
      rw [← add_assoc]
      exact .up earlier (ih second)

/-- A way that leaves its node takes the link of that node. -/
theorem Climb.of_ne (climb : Climb parent weight i j w) (ne : i ≠ j) :
    parent i < i ∧ ∃ v, Climb parent weight (parent i) j v ∧ w = v + weight i := by
  cases climb with
  | here => exact absurd rfl ne
  | up earlier rest => exact ⟨earlier, _, rest, rfl⟩

/-- There is one way between two nodes. -/
theorem Climb.unique (climb : Climb parent weight i j w) (climb' : Climb parent weight i j v) :
    w = v := by
  induction climb generalizing v with
  | here i =>
      cases climb' with
      | here => rfl
      | up earlier rest => exact absurd rest.le (by omega)
  | up earlier rest ih =>
      obtain ⟨-, v, rest', rfl⟩ := climb'.of_ne fun same => by
        have := rest.le
        omega
      rw [ih rest']

variable (linked : ∀ i, 1 ≤ i → i < n → parent i < i)

include linked

theorem exists_climb_root (lt : i < n) : ∃ w, Climb parent weight i 0 w := by
  induction i using Nat.strong_induction_on with
  | _ i ih =>
      rcases Nat.eq_zero_or_pos i with rfl | pos
      · exact ⟨0, .here 0⟩
      · have earlier := linked i pos lt
        obtain ⟨w, rest⟩ := ih (parent i) earlier (earlier.trans lt)
        exact ⟨w + weight i, .up earlier rest⟩

/-- A node that no node is linked to climbs to `i`: one follows the links downwards. -/
theorem exists_climb_leaf (lt : i < n) :
    ∃ leaf, leaf < n ∧ (∀ k, 1 ≤ k → k < n → parent k ≠ leaf) ∧
      ∃ w, Climb parent weight leaf i w := by
  obtain ⟨gap, isGap⟩ : ∃ gap, gap = n - i := ⟨n - i, rfl⟩
  induction gap using Nat.strong_induction_on generalizing i with
  | _ gap ih =>
      by_cases child : ∃ k, 1 ≤ k ∧ k < n ∧ parent k = i
      · obtain ⟨k, pos, ltK, rfl⟩ := child
        have earlier := linked k pos ltK
        obtain ⟨leaf, ltLeaf, isLeaf, w, climb⟩ := ih (n - k) (by omega) ltK rfl
        exact ⟨leaf, ltLeaf, isLeaf, _, climb.trans (.up earlier (.here (parent k)))⟩
      · refine ⟨i, lt, fun k pos ltK same => child ⟨k, pos, ltK, same⟩, 0, .here i⟩

end Climb

/-! ## Quantities along a way -/

variable {parent weight time : Nat → Nat} {i j w : Nat}

theorem Climb.rise (climb : Climb parent weight i j w)
    (rises : ∀ k, j < k → k ≤ i → time k < time (parent k) ∧ time (parent k) < time k + weight k)
    (ne : i ≠ j) : time i < time j ∧ time j < time i + w := by
  induction climb with
  | here i => exact absurd rfl ne
  | @up i j w earlier rest ih =>
      have below := rest.le
      have link := rises i (by omega) le_rfl
      by_cases arrived : parent i = j
      · have none : w = 0 := (arrived ▸ rest).unique (.here j)
        rw [arrived] at link
        omega
      · have higher := ih (fun k lt le => rises k lt (by omega)) arrived
        omega

end Links
