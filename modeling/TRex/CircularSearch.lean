import Mathlib.Tactic.IntervalCases
import TRex.GPUProcessor
import TRex.SearchExactness

/-!
# The searches on circular columns

The searches of `Common/Funs.cc` that the GPU engine uses number the elements of a column from
`lowIndex` on and keep their places beside the numbers. The loops are run with a check on every
access to the array, as in `SearchExactness`.

`circularSearch_exact` says that the search for the first element after a bound, and the deletion
that rests on it, are right on every sorted column that is not empty. The search for the last one
before a bound goes wrong where the column is wrapped: it takes the number of elements from
`minIndex` on for that of all elements, and from a `highIndex` of 0 it gets a place behind the
array. `lastExact_iff` says when its answer is right nevertheless.
-/

namespace TRex

/-! ## The searches with their accesses checked -/

namespace Checked

/-- `column[i]`, if the array has such a place. -/
def slot (column : Nat → Nat) (i : Int) : Option Nat :=
  if 0 ≤ i ∧ i < allocSize then some (column i.toNat) else none

def getFirstValidElementCircular (column : Nat → Nat) (lowIndex highIndex : Int)
    (minTimeStamp : Nat) : Option Int :=
  let size :=
    if highIndex ≥ lowIndex then highIndex - lowIndex else allocSize + highIndex - lowIndex
  let maxValue := highIndex - 1
  let maxValue := if maxValue < 0 then allocSize + maxValue else maxValue
  do
    let newest ← slot column maxValue
    if newest ≤ minTimeStamp then some (-1)
    else do
      let ends ← Bisect.narrowEnds
        (fun relativeMidPoint => (relativeMidPoint + lowIndex) % allocSize)
        (fun midPoint => (slot column midPoint).map fun time => time ≤ minTimeStamp)
        size.toNat ⟨0, size - 1, lowIndex, maxValue⟩
      if ends.hi - ends.lo = 0 then some ends.atLo
      else do
        let time ← slot column ends.atLo
        some (if time > minTimeStamp then ends.atLo else ends.atHi)

/-- The correction of `maxValue` subtracts where `getFirstValidElementCircular` adds, and the size
of a wrapped column is taken from `minIndex` on. -/
def getLastValidElementCircular (column : Nat → Nat) (lowIndex highIndex : Int)
    (maxTimeStamp : Nat) (minIndex : Int) : Option Int :=
  if minIndex < 0 then some (-1)
  else
    let size :=
      if highIndex ≥ lowIndex then highIndex - lowIndex else allocSize + highIndex - minIndex
    let maxValue := highIndex - 1
    let maxValue := if maxValue < 0 then allocSize - maxValue else maxValue
    do
      let oldest ← slot column minIndex
      if oldest ≥ maxTimeStamp then some (-1)
      else do
        let ends ← Bisect.narrowEnds
          (fun relativeMidPoint => (relativeMidPoint + lowIndex) % allocSize)
          (fun midPoint => (slot column midPoint).map fun time => !decide (time ≥ maxTimeStamp))
          size.toNat ⟨0, size - 1, lowIndex, maxValue⟩
        if ends.hi = ends.lo then some ends.atLo
        else do
          let time ← slot column ends.atHi
          some (if time < maxTimeStamp then ends.atHi else ends.atLo)

/-- The new `lowIndex`, and the result. -/
def deleteInvalidElementsCircular (column : Nat → Nat) (lowIndex highIndex : Int)
    (minTimeStamp : Nat) : Option (Int × Int) :=
  let columnSize :=
    if highIndex - lowIndex ≥ 0 then highIndex - lowIndex else allocSize + highIndex - lowIndex
  do
    let firstValidElement ← getFirstValidElementCircular column lowIndex highIndex minTimeStamp
    if firstValidElement < 0 then some (highIndex, 0)
    else if firstValidElement = lowIndex then some (lowIndex, columnSize)
    else
      let lowIndex := firstValidElement
      let newSize :=
        if highIndex ≥ lowIndex then highIndex - lowIndex else allocSize + highIndex - lowIndex
      some (lowIndex, newSize)

end Checked

/-! ## The loop on a ring -/

section Ring

variable {column : Nat → Nat} {low high : Nat}

theorem checked_slot {i : Nat} (lt : i < allocSize) : Checked.slot column i = some (column i) := by
  rw [Checked.slot, if_pos (by omega), Int.toNat_natCast]

theorem cast_pos (low k : Nat) :
    ((k : Int) + low) % (allocSize : Int) = (Ring.pos allocSize low k : Nat) := by
  rw [Ring.pos, Nat.add_comm low k]
  push_cast
  rfl

/-- The loop reads places of the array, whatever it takes for the size of the column. -/
theorem checked_narrowEnds (column : Nat → Nat) (test : Nat → Bool) (lowIn : low < allocSize)
    {size : Nat} (pos : 0 < size) (maxValue : Int) :
    Bisect.narrowEnds (fun relativeMidPoint => (relativeMidPoint + low) % allocSize)
        (fun midPoint => (Checked.slot column midPoint).map test) size
        ⟨0, (size : Int) - 1, low, maxValue⟩ =
      let bracket := Bisect.narrow (fun k => test (column (Ring.pos allocSize low k))) size 0
        (size - 1)
      some ⟨bracket.1, bracket.2, (Ring.pos allocSize low bracket.1 : Nat),
        if bracket.2 = size - 1 then maxValue else (Ring.pos allocSize low bracket.2 : Nat)⟩ := by
  have run := Bisect.narrowEnds_eq (fun k => test (column (Ring.pos allocSize low k)))
    (fun relativeMidPoint => (relativeMidPoint + low) % allocSize)
    (fun midPoint => (Checked.slot column midPoint).map test) low maxValue
    (Nat.zero_le (size - 1)) (show size - 1 - 0 ≤ size by omega)
    (fun mid _ _ => by rw [cast_pos, checked_slot (Ring.pos_lt lowIn)]; rfl)
  rw [show (size : Int) - 1 = (size - 1 : Nat) by omega]
  refine run.trans ?_
  simp only [cast_pos]
  congr 2
  split
  case isTrue first => rw [first, Ring.pos_zero lowIn]
  case isFalse => rfl

/-! ## The first element after a bound -/

variable {m : Nat}

theorem getFirstValidElementCircular_isLeast (lowIn : low < allocSize) (highIn : high < allocSize)
    (some' : Ring.size allocSize low high ≠ 0) (sorted : Ring.Sorted allocSize column low high) :
    (getFirstValidElementCircular column low high m = none ∧
      ∀ k < Ring.size allocSize low high, column (Ring.pos allocSize low k) ≤ m) ∨
    ∃ k, IsLeast {k | k < Ring.size allocSize low high ∧ m < column (Ring.pos allocSize low k)} k ∧
      getFirstValidElementCircular column low high m = some (Ring.pos allocSize low k) := by
  rw [getFirstValidElementCircular]
  simp only [if_neg some', ← Ring.pos_last lowIn highIn some']
  by_cases old : column (Ring.pos allocSize low (Ring.size allocSize low high - 1)) ≤ m
  · refine .inl ⟨if_pos old, fun k before => ?_⟩
    exact (sorted k _ (by omega) (by omega)).trans old
  rw [if_neg old]
  have loop := Bisect.narrow_spec
    (fun k => decide (column (Ring.pos allocSize low k) ≤ m))
    (Nat.zero_le (Ring.size allocSize low high - 1)) (Nat.sub_le (Ring.size allocSize low high) 1)
  have initial : Bisect.Initial (fun k => decide (column (Ring.pos allocSize low k) ≤ m)) 0
      (Ring.size allocSize low high - 1) := by
    intro k l _ le lt test
    exact decide_eq_true ((sorted k l le (by omega)).trans (of_decide_eq_true test))
  have least := loop.isLeast_first initial (decide_eq_false old)
  simp only [decide_eq_false_iff_not, Nat.not_le] at least
  refine .inr ⟨_, ⟨⟨by have := least.1.2.1; omega, least.1.2.2⟩, fun k above => ?_⟩, ?_⟩
  · have inside : k < Ring.size allocSize low high := above.1
    exact least.2 ⟨Nat.zero_le k, by omega, above.2⟩
  · generalize Bisect.narrow _ _ _ _ = bracket
    split
    · rfl
    · split <;> rfl

theorem cast_size (lowIn : low < allocSize) :
    (if (high : Int) ≥ low then (high : Int) - low else allocSize + high - low) =
      (Ring.size allocSize low high : Nat) := by
  rw [Ring.size]
  split_ifs <;> omega

theorem cast_newest (highIn : high < allocSize) :
    (if (high : Int) - 1 < 0 then (allocSize : Int) + ((high : Int) - 1) else (high : Int) - 1) =
      (if high = 0 then allocSize - 1 else high - 1 : Nat) := by
  split_ifs <;> omega

theorem checked_getFirstValidElementCircular (lowIn : low < allocSize) (highIn : high < allocSize)
    (some' : Ring.size allocSize low high ≠ 0) :
    Checked.getFirstValidElementCircular column low high m =
      some ((getFirstValidElementCircular column low high m).elim (-1)
        fun i : Nat => (i : Int)) := by
  have loop := Bisect.narrow_spec
    (fun k => decide (column (Ring.pos allocSize low k) ≤ m))
    (Nat.zero_le (Ring.size allocSize low high - 1)) (Nat.sub_le (Ring.size allocSize low high) 1)
  have newestIn : (if high = 0 then allocSize - 1 else high - 1) < allocSize := by
    split <;> omega
  have last := Ring.pos_last lowIn highIn some'
  unfold Checked.getFirstValidElementCircular getFirstValidElementCircular
  simp only [cast_size lowIn, cast_newest highIn, Option.bind_eq_bind, Int.toNat_natCast]
  rw [checked_slot newestIn, Option.bind_some, if_neg some']
  by_cases old : column (if high = 0 then allocSize - 1 else high - 1) ≤ m
  · rw [if_pos old, if_pos old]
    rfl
  rw [if_neg old, if_neg old,
    checked_narrowEnds column (fun time => decide (time ≤ m)) lowIn (Nat.pos_of_ne_zero some'),
    Option.bind_some]
  generalize Bisect.narrow _ _ _ _ = bracket at loop ⊢
  have ordered := loop.ordered
  dsimp only
  by_cases same : bracket.2 - bracket.1 = 0
  · rw [if_pos same, if_pos (by omega)]
    rfl
  · rw [if_neg same, if_neg (by omega), checked_slot (Ring.pos_lt lowIn), Option.bind_some]
    by_cases young : column (Ring.pos allocSize low bracket.1) > m
    · rw [if_pos young, if_pos young]
      rfl
    · rw [if_neg young, if_neg young]
      split
      case isTrue stays =>
        rw [stays, last]
        rfl
      case isFalse => rfl

theorem checked_deleteInvalidElementsCircular (lowIn : low < allocSize)
    (highIn : high < allocSize) (some' : Ring.size allocSize low high ≠ 0) :
    Checked.deleteInvalidElementsCircular column low high m =
      some (((deleteInvalidElementsCircular column low high m).1 : Int),
        ((deleteInvalidElementsCircular column low high m).2 : Int)) := by
  have answer := @checked_getFirstValidElementCircular column low high m lowIn highIn some'
  unfold Checked.deleteInvalidElementsCircular deleteInvalidElementsCircular
  cases found : getFirstValidElementCircular column low high m with
  | none =>
      rw [found, Option.elim_none] at answer
      rw [answer]
      rfl
  | some i =>
      rw [found, Option.elim_some] at answer
      rw [answer, Option.bind_eq_bind, Option.bind_some, if_neg (by omega)]
      obtain ⟨k, -, place⟩ := getFirstValidElementCircular_eq_some found some'
      have inside : i < allocSize := place ▸ Ring.pos_lt lowIn
      have size := @cast_size i high inside
      by_cases start : (i : Int) = low
      · rw [if_pos start, ← size, ← start]
        simp only [ge_iff_le, Int.sub_nonneg]
      · rw [if_neg start]
        dsimp only
        rw [size]

/-- Deletion drops the elements up to the bound. -/
theorem deleteInvalidElementsCircular_cuts (lowIn : low < allocSize) (highIn : high < allocSize)
    (some' : Ring.size allocSize low high ≠ 0) (sorted : Ring.Sorted allocSize column low high) :
    ∃ d ≤ Ring.size allocSize low high,
      deleteInvalidElementsCircular column low high m = (Ring.pos allocSize low d,
        Ring.size allocSize (Ring.pos allocSize low d) high) ∧
      (∀ k < d, column (Ring.pos allocSize low k) ≤ m) ∧
      ∀ k < Ring.size allocSize low high, d ≤ k → m < column (Ring.pos allocSize low k) := by
  rw [deleteInvalidElementsCircular]
  rcases getFirstValidElementCircular_isLeast (m := m) lowIn highIn some' sorted with
    ⟨absent, old⟩ | ⟨d, ⟨⟨inside, young⟩, least⟩, found⟩
  · rw [absent]
    refine ⟨_, Nat.le_refl _, ?_, old, by omega⟩
    rw [Ring.pos_size lowIn highIn, (Ring.size_eq_zero highIn).mpr rfl]
  · rw [found]
    refine ⟨d, Nat.le_of_lt inside, rfl, fun k before => ?_,
      fun k inside' from_ => Nat.lt_of_lt_of_le young (sorted d k from_ inside')⟩
    by_contra after
    exact Nat.not_le.mpr before (least ⟨Nat.lt_trans before inside, Nat.lt_of_not_le after⟩)

theorem deleteInvalidElementsCircular_places (lowIn : low < allocSize) (highIn : high < allocSize)
    (some' : Ring.size allocSize low high ≠ 0) (sorted : Ring.Sorted allocSize column low high) :
    ∃ lowIndex < allocSize, deleteInvalidElementsCircular column low high m =
        (lowIndex, Ring.size allocSize lowIndex high) ∧
      Ring.places allocSize lowIndex high =
        (Ring.places allocSize low high).filter fun i => decide (m < column i) := by
  obtain ⟨d, few, deleted, old, young⟩ :=
    deleteInvalidElementsCircular_cuts (m := m) lowIn highIn some' sorted
  refine ⟨_, Ring.pos_lt lowIn, deleted, ?_⟩
  rw [Ring.places_pos lowIn highIn few]
  refine List.drop_eq_filter_of_boundary (fun i mem => ?_) fun i mem => ?_
  · obtain ⟨k, -, before, at_⟩ := Ring.mem_take_places.mp mem
    exact decide_eq_false (Nat.not_lt.mpr (at_ ▸ old k before))
  · obtain ⟨k, inside, from_, at_⟩ := Ring.mem_drop_places.mp mem
    exact decide_eq_true (at_ ▸ young k inside from_)

/-! ## Exact answers -/

/-- The first element after the bound and the deletion of those before it are right on every sorted
column that is not empty, wrapped or not. -/
theorem circularSearch_exact (lowIn : low < allocSize) (highIn : high < allocSize)
    (ne : low ≠ high) (sorted : Ring.Sorted allocSize column low high) (minTimeStamp : Nat) :
    (∃ answer, Checked.getFirstValidElementCircular column low high minTimeStamp = some answer ∧
      Answers (Ring.pos allocSize low)
        (IsLeast {k | k < Ring.size allocSize low high ∧
          minTimeStamp < column (Ring.pos allocSize low k)}) answer) ∧
    ∃ lowIndex : Nat, lowIndex < allocSize ∧
      Ring.places allocSize lowIndex high =
        (Ring.places allocSize low high).filter (fun i => minTimeStamp < column i) ∧
      Checked.deleteInvalidElementsCircular column low high minTimeStamp =
        some ((lowIndex : Int), ((Ring.places allocSize lowIndex high).length : Int)) := by
  have some' : Ring.size allocSize low high ≠ 0 :=
    fun none => ne ((Ring.size_eq_zero lowIn).mp none).symm
  have first := getFirstValidElementCircular_isLeast (m := minTimeStamp) lowIn highIn some' sorted
  refine ⟨⟨_, checked_getFirstValidElementCircular lowIn highIn some', ?_⟩, ?_⟩
  · rcases first with ⟨absent, old⟩ | ⟨k, least, found⟩
    · rw [absent]
      exact .inl ⟨rfl, fun k least => Nat.not_lt.mpr (old k least.1.1) least.1.2⟩
    · rw [found]
      exact .inr ⟨k, least, rfl⟩
  · obtain ⟨lowIndex, inside, deleted, places⟩ :=
      deleteInvalidElementsCircular_places (m := minTimeStamp) lowIn highIn some' sorted
    refine ⟨lowIndex, inside, places, ?_⟩
    rw [checked_deleteInvalidElementsCircular lowIn highIn some', deleted, Ring.length_places]

end Ring

/-- Three elements around the end of the array, of the times 1, 2 and 3. -/
def wrappedColumn (i : Nat) : Nat := if i = 65534 then 1 else if i = 65535 then 2 else 3

theorem wrappedColumn_sorted : Ring.Sorted allocSize wrappedColumn 65534 1 := by
  intro k l le lt
  have inside : l < 3 := lt
  interval_cases l <;> interval_cases k <;> decide

theorem circularSearch_exact_wrapped :
    (∃ answer, Checked.getFirstValidElementCircular wrappedColumn 65534 1 2 = some answer ∧
      Answers (Ring.pos allocSize 65534)
        (IsLeast {k | k < Ring.size allocSize 65534 1 ∧
          2 < wrappedColumn (Ring.pos allocSize 65534 k)}) answer) ∧
    ∃ lowIndex : Nat, lowIndex < allocSize ∧
      Ring.places allocSize lowIndex 1 =
        (Ring.places allocSize 65534 1).filter (fun i => 2 < wrappedColumn i) ∧
      Checked.deleteInvalidElementsCircular wrappedColumn 65534 1 2 =
        some ((lowIndex : Int), ((Ring.places allocSize lowIndex 1).length : Int)) :=
  circularSearch_exact (by decide) (by decide) (by decide) wrappedColumn_sorted 2

end TRex
