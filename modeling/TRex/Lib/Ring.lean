import Mathlib.Data.List.Basic
import Mathlib.Logic.Function.Basic
import Mathlib.Order.Basic
import Mathlib.Tactic.Common
import Mathlib.Tactic.SplitIfs

/-!
# Circular ranges

A range of a circular array of length `n` runs from `low` up to `high`, which is not part of it.
`pos n low k` is the place of its element number `k`. A range grows at its high end by `size_push`
and loses elements at its low end by `size_pos` and `pos_pos`; `Sorted.push_iff` says when a sorted
range stays sorted as it grows.
-/

namespace Ring

variable {n low high d k l : Nat}

/-- The number of elements from `low` up to `high`. -/
def size (n low high : Nat) : Nat := if low ≤ high then high - low else n + high - low

/-- The place of element number `k`. -/
def pos (n low k : Nat) : Nat := (low + k) % n

/-! ## Places -/

/-- One round at most. -/
theorem pos_eq (inside : low < n) (few : k ≤ n) :
    pos n low k = if low + k < n then low + k else low + k - n := by
  rw [pos]
  split
  case isTrue before => exact Nat.mod_eq_of_lt before
  case isFalse beyond =>
    rw [Nat.mod_eq_sub_mod (Nat.not_lt.mp beyond)]
    exact Nat.mod_eq_of_lt (by omega)

theorem size_lt (lowIn : low < n) (highIn : high < n) : size n low high < n := by
  rw [size]
  split <;> omega

theorem pos_lt (inside : low < n) : pos n low k < n := Nat.mod_lt _ (Nat.zero_lt_of_lt inside)

theorem pos_zero (inside : low < n) : pos n low 0 = low := Nat.mod_eq_of_lt inside

/-- The high end is the place behind the last element. -/
theorem pos_size (lowIn : low < n) (highIn : high < n) : pos n low (size n low high) = high := by
  rw [pos_eq lowIn (Nat.le_of_lt (size_lt lowIn highIn)), size]
  split <;> split <;> omega

/-- The place of the last element. -/
theorem pos_last (lowIn : low < n) (highIn : high < n) (some' : size n low high ≠ 0) :
    pos n low (size n low high - 1) = if high = 0 then n - 1 else high - 1 := by
  have bound := size_lt lowIn highIn
  rw [pos_eq lowIn (by omega)]
  rw [size] at some' bound ⊢
  split_ifs at some' bound ⊢ <;> omega

theorem pos_injective (inside : low < n) (before : k < n) (before' : l < n)
    (same : pos n low k = pos n low l) : k = l := by
  rw [pos_eq inside (Nat.le_of_lt before), pos_eq inside (Nat.le_of_lt before')] at same
  split at same <;> split at same <;> omega

/-- The places of the range are between its ends, or outside of them if it is wrapped. -/
theorem pos_within (lowIn : low < n) (highIn : high < n) (before : k < size n low high) :
    if low ≤ high then low ≤ pos n low k ∧ pos n low k < high
    else low ≤ pos n low k ∨ pos n low k < high := by
  have few := Nat.le_of_lt (Nat.lt_trans before (size_lt lowIn highIn))
  rw [pos_eq lowIn few]
  rw [size] at before
  split_ifs at before ⊢ <;> omega

theorem pos_pos : pos n (pos n low d) k = pos n low (d + k) := by
  rw [pos, pos, pos, Nat.mod_add_mod, Nat.add_assoc]

/-! ## Growing and shrinking -/

theorem size_eq_zero (lowIn : low < n) : size n low high = 0 ↔ high = low := by
  rw [size]
  split <;> omega

theorem succ_mod (inside : high < n) : (high + 1) % n = if high + 1 = n then 0 else high + 1 := by
  split
  case isTrue last => rw [last, Nat.mod_self]
  case isFalse other => exact Nat.mod_eq_of_lt (by omega)

theorem size_push (lowIn : low < n) (highIn : high < n) (room : (high + 1) % n ≠ low) :
    size n low ((high + 1) % n) = size n low high + 1 := by
  rw [succ_mod highIn] at room ⊢
  simp only [size]
  split_ifs at room ⊢ <;> omega

theorem size_pos (lowIn : low < n) (highIn : high < n) (few : d ≤ size n low high) :
    size n (pos n low d) high = size n low high - d := by
  have bound := size_lt lowIn highIn
  rw [pos_eq lowIn (by omega)]
  simp only [size] at few bound ⊢
  split_ifs at few bound ⊢ <;> omega

/-! ## The places in order -/

/-- The places of the elements. -/
def places (n low high : Nat) : List Nat := (List.range (size n low high)).map (pos n low)

theorem length_places : (places n low high).length = size n low high := by
  rw [places, List.length_map, List.length_range]

theorem mem_take_places {i : Nat} :
    i ∈ (places n low high).take d ↔ ∃ k < size n low high, k < d ∧ pos n low k = i := by
  rw [places, ← List.map_take, List.take_range, List.mem_map]
  simp only [List.mem_range, Nat.lt_min]
  constructor
  · intro ⟨k, before, at_⟩
    exact ⟨k, before.2, before.1, at_⟩
  · intro ⟨k, inside, before, at_⟩
    exact ⟨k, ⟨before, inside⟩, at_⟩

theorem mem_drop_places {i : Nat} :
    i ∈ (places n low high).drop d ↔ ∃ k < size n low high, d ≤ k ∧ pos n low k = i := by
  rw [places, List.mem_drop_iff_getElem]
  simp only [List.length_map, List.length_range, List.getElem_map, List.getElem_range]
  constructor
  · intro ⟨k, before, at_⟩
    exact ⟨k + d, by omega, by omega, by rw [← at_, Nat.add_comm]⟩
  · intro ⟨k, inside, from_, at_⟩
    exact ⟨k - d, by omega, by rw [← at_, show d + (k - d) = k by omega]⟩

/-- Losing elements at the low end. -/
theorem places_pos (lowIn : low < n) (highIn : high < n) (few : d ≤ size n low high) :
    places n (pos n low d) high = (places n low high).drop d := by
  apply List.ext_getElem
  · rw [List.length_drop, length_places, length_places, size_pos lowIn highIn few]
  · intro i _ _
    simp only [places, List.getElem_drop, List.getElem_map, List.getElem_range, pos_pos]

/-! ## Sorted ranges -/

section Sorted

variable {β : Type*} [Preorder β] {column : Nat → β} {t : β}

/-- The elements of the range are in order. -/
def Sorted (n : Nat) (column : Nat → β) (low high : Nat) : Prop :=
  ∀ k l, k ≤ l → l < size n low high → column (pos n low k) ≤ column (pos n low l)

theorem Sorted.of_size_le_one (few : size n low high ≤ 1) : Sorted n column low high := by
  intro k l order inside
  have same : k = l := by omega
  rw [same]

/-- Losing elements at the high end. -/
theorem Sorted.take {high' : Nat} (sorted : Sorted n column low high)
    (fewer : size n low high' ≤ size n low high) : Sorted n column low high' :=
  fun k l order inside => sorted k l order (Nat.lt_of_lt_of_le inside fewer)

/-- Losing elements at the low end. -/
theorem Sorted.drop (sorted : Sorted n column low high) (lowIn : low < n) (highIn : high < n)
    (few : d ≤ size n low high) : Sorted n column (pos n low d) high := by
  intro k l order inside
  rw [size_pos lowIn highIn few] at inside
  rw [pos_pos, pos_pos]
  exact sorted (d + k) (d + l) (Nat.add_le_add_left order d) (by omega)

/-- Growing at the high end keeps a range sorted if and only if the new element is not below the
last one. -/
theorem Sorted.push_iff (sorted : Sorted n column low high) (lowIn : low < n) (highIn : high < n)
    (room : (high + 1) % n ≠ low) :
    Sorted n (Function.update column high t) low ((high + 1) % n) ↔
      (size n low high ≠ 0 → column (pos n low (size n low high - 1)) ≤ t) := by
  have bound := size_lt lowIn highIn
  have top : Function.update column high t (pos n low (size n low high)) = t := by
    rw [pos_size lowIn highIn, Function.update_self]
  have old : ∀ k < size n low high,
      Function.update column high t (pos n low k) = column (pos n low k) := by
    intro k before
    apply Function.update_of_ne
    intro same
    rw [← pos_size lowIn highIn] at same
    have equal := pos_injective lowIn (Nat.lt_trans before bound) bound same
    omega
  have grown := size_push lowIn highIn room
  constructor
  · intro sorted' some
    have last := sorted' (size n low high - 1) (size n low high) (Nat.sub_le _ _) (by omega)
    rw [top, old _ (by omega)] at last
    exact last
  · intro above k l order inside
    rcases Nat.lt_or_ge l (size n low high) with before | atTop
    · rw [old k (Nat.lt_of_le_of_lt order before), old l before]
      exact sorted k l order before
    · have isTop : l = size n low high := by omega
      rw [isTop, top]
      rcases Nat.lt_or_ge k (size n low high) with before | new
      · rw [old k before]
        exact le_trans (sorted k _ (by omega) (by omega)) (above (by omega))
      · have isNew : k = size n low high := by omega
        rw [isNew, top]

end Sorted

end Ring
