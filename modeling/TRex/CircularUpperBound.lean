import Mathlib.Tactic.IntervalCases
import TRex.CircularSearch

/-!
# The upper bound on circular columns

`getLastValidElementCircular` bisects the numbers below `searchSize`, which is the size of the
column only if it is not wrapped or `minIndex` is its low end. `lastExact_iff` says when it finds
the last element from `minIndex` on that is before the bound; `getMaxValidElement_exact_iff` says
what is left of this for the engine, which passes the low end.
-/

namespace TRex

/-- The arguments of `getLastValidElementCircular`. -/
structure LastSearch where
  column : Nat → Nat
  lowIndex : Nat
  highIndex : Nat
  maxTimeStamp : Nat
  minIndex : Nat

namespace LastSearch

variable (s : LastSearch)

/-! ## What is required -/

/-- The number of elements. -/
def size : Nat := Ring.size allocSize s.lowIndex s.highIndex

def pos (k : Nat) : Nat := Ring.pos allocSize s.lowIndex k

/-- Element number `k` is before the bound. -/
def earlier (k : Nat) : Bool := !decide (s.column (s.pos k) ≥ s.maxTimeStamp)

/-- A sorted column that is not empty, with one of its places. -/
structure Valid : Prop where
  lowIn : s.lowIndex < allocSize
  highIn : s.highIndex < allocSize
  notEmpty : s.lowIndex ≠ s.highIndex
  sorted : Ring.Sorted allocSize s.column s.lowIndex s.highIndex
  inside : ∃ m < s.size, s.pos m = s.minIndex

/-- The elements from `minIndex` on that are before the bound. -/
def candidates : Set Nat := {k | k < s.size ∧ (∃ m ≤ k, s.pos m = s.minIndex) ∧ s.earlier k = true}

/-- The search comes to an end, reads places of the array only, and answers with the last
candidate. -/
def Exact : Prop := ∃ answer, Checked.getLastValidElementCircular s.column s.lowIndex s.highIndex
    s.maxTimeStamp s.minIndex = some answer ∧ Answers s.pos (IsGreatest s.candidates) answer

/-! ## When it is met -/

/-- The numbers that are bisected. -/
def searchSize : Nat :=
  if s.lowIndex ≤ s.highIndex then s.highIndex - s.lowIndex
  else allocSize + s.highIndex - s.minIndex

/-- The number of elements that are before the bound. -/
def earlierNum : Nat := Nat.count (fun k => s.earlier k = true) s.size

/-- Bisecting towards `target`, the search finds that the numbers up to it are before the bound and
those behind it are not. -/
def Leads (target : Nat) : Prop :=
  ∀ mid ∈ Bisect.path target s.searchSize 0 (s.searchSize - 1),
    (s.earlier mid = true ↔ mid ≤ target)

/-- `minIndex` is not before the bound, or the column is not wrapped. Of a wrapped column, the
elements from `minIndex` to the end of the array, those in front of place 0 and those behind it are
told apart. -/
def Fits : Prop :=
  s.maxTimeStamp ≤ s.column s.minIndex ∨ s.lowIndex ≤ s.highIndex ∨
  (s.lowIndex ≤ s.minIndex ∧ 0 < s.highIndex ∧
    (s.earlier (s.size - 1) = true ∨ s.earlier (s.searchSize - 1) = false)) ∨
  (s.highIndex = 0 ∧ (s.size = 1 ∨ 2 ≤ s.searchSize ∧ s.earlier (s.searchSize - 2) = false)) ∨
  (s.minIndex < s.highIndex ∧
    (s.Leads (s.earlierNum - 1) ∨
      (allocSize + s.earlierNum < s.searchSize ∧ s.Leads (allocSize + s.earlierNum - 1)) ∨
      (s.earlierNum = s.size ∧ s.Leads (s.searchSize - 2))))

variable {s}

/-! ## The column -/

theorem Valid.lt_earlierNum_iff (valid : s.Valid) {k : Nat} (inside : k < s.size) :
    s.earlier k = true ↔ k < s.earlierNum := by
  refine Bisect.lt_count_iff (fun k l le lt test => ?_) inside
  simp only [earlier, Bool.not_eq_true', decide_eq_false_iff_not, Nat.not_le, ge_iff_le] at test ⊢
  exact Nat.lt_of_le_of_lt (valid.sorted k l le lt) test

theorem Valid.size_lt (valid : s.Valid) : s.size < allocSize :=
  Ring.size_lt valid.lowIn valid.highIn

theorem Valid.size_pos (valid : s.Valid) : 0 < s.size :=
  Nat.pos_of_ne_zero fun none =>
    valid.notEmpty ((Ring.size_eq_zero valid.lowIn).mp none).symm

theorem earlierNum_le : s.earlierNum ≤ s.size := Nat.count_le _

theorem earlier_iff {k : Nat} : s.earlier k = true ↔ s.column (s.pos k) < s.maxTimeStamp := by
  simp [earlier]

/-- The number of `minIndex`, and whether its element is before the bound. -/
theorem Valid.exists_minIndex (valid : s.Valid) (early : s.column s.minIndex < s.maxTimeStamp) :
    ∃ m < s.earlierNum, s.pos m = s.minIndex := by
  obtain ⟨m, inside, place⟩ := valid.inside
  refine ⟨m, (valid.lt_earlierNum_iff inside).mp (earlier_iff.mpr ?_), place⟩
  rw [place]
  exact early

theorem Valid.isGreatest (valid : s.Valid) (early : s.column s.minIndex < s.maxTimeStamp) :
    IsGreatest s.candidates (s.earlierNum - 1) := by
  obtain ⟨m, before, place⟩ := valid.exists_minIndex early
  have le := @earlierNum_le s
  refine ⟨⟨by omega, ⟨m, by omega, place⟩, ?_⟩, fun k candidate => ?_⟩
  · exact (valid.lt_earlierNum_iff (by omega)).mpr (by omega)
  · have lt := (valid.lt_earlierNum_iff candidate.1).mp candidate.2.2
    omega

/-- There is one right answer. -/
theorem Valid.exact_iff (valid : s.Valid) (early : s.column s.minIndex < s.maxTimeStamp) :
    s.Exact ↔ Checked.getLastValidElementCircular s.column s.lowIndex s.highIndex s.maxTimeStamp
      s.minIndex = some (s.pos (s.earlierNum - 1) : Int) := by
  have greatest := valid.isGreatest early
  constructor
  · intro ⟨answer, run, right⟩
    rcases right with ⟨_, none⟩ | ⟨k, greatest', isPlace⟩
    · exact absurd greatest (none _)
    · rw [run, isPlace, greatest'.unique greatest]
  · intro run
    exact ⟨_, run, .inr ⟨_, greatest, rfl⟩⟩

theorem Valid.pos_lt (valid : s.Valid) {k : Nat} : s.pos k < allocSize := Ring.pos_lt valid.lowIn

theorem Valid.pos_injective (valid : s.Valid) {k l : Nat} (before : k < allocSize)
    (before' : l < allocSize) (same : s.pos k = s.pos l) : k = l :=
  Ring.pos_injective valid.lowIn before before' same

/-- The place of the last element. -/
theorem Valid.highIndex_sub (valid : s.Valid) (pos : s.highIndex ≠ 0) :
    s.highIndex - 1 = s.pos (s.size - 1) := by
  rw [LastSearch.pos, size, Ring.pos_last valid.lowIn valid.highIn (Nat.ne_of_gt valid.size_pos),
    if_neg pos]

theorem Valid.newest_early_iff (valid : s.Valid) (pos : s.highIndex ≠ 0) :
    s.column (s.highIndex - 1) < s.maxTimeStamp ↔ s.earlierNum = s.size := by
  have some' := valid.size_pos
  have le := @earlierNum_le s
  rw [valid.highIndex_sub pos, ← earlier_iff, valid.lt_earlierNum_iff (by omega)]
  omega

/-! ## The run -/

theorem Valid.exact_of_late (valid : s.Valid) (late : s.maxTimeStamp ≤ s.column s.minIndex) :
    s.Exact := by
  obtain ⟨m, inside, place⟩ := valid.inside
  have minIn : s.minIndex < allocSize := place ▸ Ring.pos_lt valid.lowIn
  refine ⟨-1, ?_, .inl ⟨rfl, fun k greatest => ?_⟩⟩
  · rw [Checked.getLastValidElementCircular, if_neg (by omega)]
    dsimp only
    rw [checked_slot minIn, Option.bind_eq_bind, Option.bind_some, if_pos late]
  · obtain ⟨before, ⟨m', le, place'⟩, early⟩ := greatest.1
    have same := valid.pos_injective (Nat.lt_of_le_of_lt le (Nat.lt_trans before valid.size_lt))
      (Nat.lt_trans inside valid.size_lt) (place'.trans place.symm)
    subst same
    have later := valid.sorted m' k le before
    rw [earlier_iff] at early
    have at_ : s.column (s.pos m') = s.column s.minIndex := congrArg s.column place'
    change s.column (s.pos m') ≤ s.column (s.pos k) at later
    omega

/-- The place that `maxValue` has before the loop. -/
def lastPlace (s : LastSearch) : Nat :=
  if s.highIndex = 0 then allocSize + 1 else s.highIndex - 1

theorem Valid.run_eq (valid : s.Valid) (early : s.column s.minIndex < s.maxTimeStamp)
    (pos : 0 < s.searchSize) :
    Checked.getLastValidElementCircular s.column s.lowIndex s.highIndex s.maxTimeStamp s.minIndex =
      let bracket := Bisect.narrow s.earlier s.searchSize 0 (s.searchSize - 1)
      if bracket.2 = bracket.1 then some (s.pos bracket.1 : Int)
      else
        let maxValue := if bracket.2 = s.searchSize - 1 then s.lastPlace else s.pos bracket.2
        (Checked.slot s.column maxValue).map fun time =>
          if time < s.maxTimeStamp then (maxValue : Int) else s.pos bracket.1 := by
  obtain ⟨m, _, place⟩ := valid.inside
  have minIn : s.minIndex < allocSize := place ▸ Ring.pos_lt valid.lowIn
  have size : (if (s.highIndex : Int) ≥ s.lowIndex then (s.highIndex : Int) - s.lowIndex
      else allocSize + s.highIndex - s.minIndex) = (s.searchSize : Nat) := by
    rw [searchSize]
    split_ifs <;> omega
  have last : (if (s.highIndex : Int) - 1 < 0 then (allocSize : Int) - ((s.highIndex : Int) - 1)
      else (s.highIndex : Int) - 1) = (s.lastPlace : Nat) := by
    rw [lastPlace]
    split_ifs <;> omega
  have run := checked_narrowEnds s.column (fun time => !decide (time ≥ s.maxTimeStamp)) valid.lowIn
    pos s.lastPlace
  unfold Checked.getLastValidElementCircular
  rw [if_neg (by omega)]
  simp only [size, last, Option.bind_eq_bind, Int.toNat_natCast]
  rw [checked_slot minIn, Option.bind_some, if_neg (Nat.not_le.mpr early), run, Option.bind_some]
  have same : (fun k => !decide (s.column (Ring.pos allocSize s.lowIndex k) ≥ s.maxTimeStamp)) =
      s.earlier := rfl
  rw [same]
  generalize Bisect.narrow _ _ _ _ = bracket
  dsimp only
  by_cases equal : bracket.2 = bracket.1
  · rw [if_pos equal, if_pos (by omega)]
    rfl
  · rw [if_neg equal, if_neg (by omega), Option.map_eq_bind]
    by_cases stays : bracket.2 = s.searchSize - 1
    · rw [if_pos stays, if_pos stays]
      rfl
    · rw [if_neg stays, if_neg stays]
      rfl

/-- What the search answers where the loop ends with the numbers `k` and `k + 1`. -/
theorem Valid.run_of_narrow (valid : s.Valid) (early : s.column s.minIndex < s.maxTimeStamp)
    {k : Nat} (narrow : Bisect.narrow s.earlier s.searchSize 0 (s.searchSize - 1) = (k, k + 1))
    (before : k + 1 < s.searchSize) (above : k + 2 = s.searchSize ∨ s.earlier (k + 1) = false) :
    Checked.getLastValidElementCircular s.column s.lowIndex s.highIndex s.maxTimeStamp s.minIndex =
      if k + 2 < s.searchSize then some (s.pos k : Int)
      else if s.highIndex = 0 then none
      else some (if s.column (s.highIndex - 1) < s.maxTimeStamp then (s.highIndex - 1 : Nat)
        else s.pos k : Nat) := by
  rw [valid.run_eq early (by omega), narrow]
  dsimp only
  rw [if_neg (Nat.succ_ne_self k)]
  by_cases moved : k + 2 < s.searchSize
  · have later : ¬ s.column (s.pos (k + 1)) < s.maxTimeStamp := by
      rw [← earlier_iff, above.resolve_left (by omega)]
      exact Bool.false_ne_true
    rw [if_neg (show k + 1 ≠ s.searchSize - 1 by omega), if_pos moved,
      checked_slot valid.pos_lt, Option.map_some, if_neg later]
  · rw [if_pos (show k + 1 = s.searchSize - 1 by omega), if_neg moved, lastPlace]
    by_cases zero : s.highIndex = 0
    · rw [if_pos zero, if_pos zero, Checked.slot, if_neg (by omega)]
      rfl
    · have highIn := valid.highIn
      rw [if_neg zero, if_neg zero, checked_slot (by omega), Option.map_some]
      split <;> rfl

theorem Valid.run_of_one (valid : s.Valid) (early : s.column s.minIndex < s.maxTimeStamp)
    (one : s.searchSize = 1) :
    Checked.getLastValidElementCircular s.column s.lowIndex s.highIndex s.maxTimeStamp s.minIndex =
      some (s.pos 0 : Int) := by
  rw [valid.run_eq early (by omega), one]
  rfl

/-- On numbers of elements, the loop ends where the bound lies or at the upper end. -/
theorem Valid.exists_narrow_eq (valid : s.Valid) (early : s.column s.minIndex < s.maxTimeStamp)
    (inside : s.searchSize ≤ s.size) (two : 2 ≤ s.searchSize) :
    ∃ k, Bisect.narrow s.earlier s.searchSize 0 (s.searchSize - 1) = (k, k + 1) ∧
      k + 1 < s.searchSize ∧ k < s.earlierNum ∧
      (k + 2 = s.searchSize ∨ s.earlier (k + 1) = false ∧ s.earlierNum = k + 1) := by
  obtain ⟨m, before, _⟩ := valid.exists_minIndex early
  obtain ⟨k, _, lt, narrow, low, high⟩ := Bisect.exists_narrow_eq s.earlier
    (show s.searchSize - 1 - 0 ≤ s.searchSize by omega) (by omega)
  have below : k < s.earlierNum := by
    rcases low with start | test
    · omega
    · exact (valid.lt_earlierNum_iff (by omega)).mp test
  refine ⟨k, narrow, by omega, below, ?_⟩
  rcases high with stop | test
  · exact .inl (by omega)
  · have notBelow : ¬ k + 1 < s.earlierNum := by
      rw [← valid.lt_earlierNum_iff (by omega), test]
      exact Bool.false_ne_true
    exact .inr ⟨test, by omega⟩

/-- The same place, a whole round apart perhaps. -/
theorem Valid.pos_eq_iff (valid : s.Valid) {k l : Nat} (before : k < 2 * allocSize)
    (before' : l < allocSize) : s.pos k = s.pos l ↔ k = l ∨ k = allocSize + l := by
  constructor
  · intro same
    by_cases round : k < allocSize
    · exact .inl (valid.pos_injective round before' same)
    · have once : s.pos k = s.pos (k - allocSize) := by
        have around : s.lowIndex + k = s.lowIndex + (k - allocSize) + allocSize := by omega
        rw [pos, pos, Ring.pos, Ring.pos, around, Nat.add_mod_right]
      have equal := valid.pos_injective (by omega) before' (once.symm.trans same)
      omega
  · intro same
    rcases same with same | same
    · rw [same]
    · rw [same, pos, pos, Ring.pos, Ring.pos, ← Nat.add_assoc, Nat.add_right_comm,
        Nat.add_mod_right]

/-! ## The kinds of columns -/

theorem Valid.exact_of_unwrapped (valid : s.Valid) (early : s.column s.minIndex < s.maxTimeStamp)
    (unwrapped : s.lowIndex ≤ s.highIndex) : s.Exact := by
  rw [valid.exact_iff early]
  obtain ⟨m, before, _⟩ := valid.exists_minIndex early
  have few := @earlierNum_le s
  have ne := valid.notEmpty
  have searchSize : s.searchSize = s.size := by
    rw [LastSearch.searchSize, size, Ring.size, if_pos unwrapped, if_pos unwrapped]
  by_cases one : s.size = 1
  · rw [valid.run_of_one early (by omega), show s.earlierNum - 1 = 0 by omega]
  · obtain ⟨k, narrow, lt, below, stop⟩ :=
      valid.exists_narrow_eq early (by omega) (by omega)
    rw [valid.run_of_narrow early narrow lt (stop.imp_right And.left)]
    by_cases moved : k + 2 < s.searchSize
    · rw [if_pos moved, show s.earlierNum - 1 = k by omega]
    · rw [if_neg moved, if_neg (by omega)]
      by_cases all : s.column (s.highIndex - 1) < s.maxTimeStamp
      · have whole := (valid.newest_early_iff (by omega)).mp all
        rw [if_pos all, whole, valid.highIndex_sub (by omega)]
      · have notWhole := mt (valid.newest_early_iff (by omega)).mpr all
        rw [if_neg all, show s.earlierNum - 1 = k by omega]

/-- The sizes of a wrapped column, and where `minIndex` may lie. -/
theorem Valid.wrapped (valid : s.Valid) (wrapped : s.highIndex < s.lowIndex) :
    s.size = allocSize + s.highIndex - s.lowIndex ∧
      s.searchSize = allocSize + s.highIndex - s.minIndex ∧ s.minIndex < allocSize ∧
      (s.minIndex < s.highIndex ∨ s.lowIndex ≤ s.minIndex) := by
  obtain ⟨m, inside, place⟩ := valid.inside
  have within := Ring.pos_within valid.lowIn valid.highIn inside
  have minIn : s.minIndex < allocSize := place ▸ valid.pos_lt
  have at_ : Ring.pos allocSize s.lowIndex m = s.minIndex := place
  rw [if_neg (by omega), at_] at within
  refine ⟨?_, ?_, minIn, within.symm⟩
  · rw [size, Ring.size, if_neg (by omega)]
  · rw [searchSize, if_neg (by omega)]

theorem Valid.exact_iff_of_upper (valid : s.Valid) (early : s.column s.minIndex < s.maxTimeStamp)
    (wrapped : s.highIndex < s.lowIndex) (upper : s.lowIndex ≤ s.minIndex)
    (pos : s.highIndex ≠ 0) :
    s.Exact ↔ s.earlier (s.size - 1) = true ∨ s.earlier (s.searchSize - 1) = false := by
  obtain ⟨size, searchSize, minIn, _⟩ := valid.wrapped wrapped
  have lowIn := valid.lowIn
  have inAlloc := valid.size_lt
  have few := @earlierNum_le s
  have newest := valid.newest_early_iff pos
  obtain ⟨k, narrow, lt, below, stop⟩ := valid.exists_narrow_eq early (by omega) (by omega)
  rw [valid.exact_iff early, valid.run_of_narrow early narrow lt (stop.imp_right And.left),
    ← Bool.not_eq_true, valid.lt_earlierNum_iff (by omega), valid.lt_earlierNum_iff (by omega)]
  by_cases moved : k + 2 < s.searchSize
  · rw [if_pos moved, show s.earlierNum - 1 = k by omega]
    exact iff_of_true rfl (.inr (by omega))
  · rw [if_neg moved, if_neg pos]
    by_cases all : s.column (s.highIndex - 1) < s.maxTimeStamp
    · have whole := newest.mp all
      rw [if_pos all, whole, ← valid.highIndex_sub pos]
      exact iff_of_true rfl (.inl (by omega))
    · have notWhole := mt newest.mpr all
      rw [if_neg all, Option.some_inj, Int.natCast_inj, valid.pos_eq_iff (by omega) (by omega)]
      omega

theorem Valid.exact_iff_of_zero (valid : s.Valid) (early : s.column s.minIndex < s.maxTimeStamp)
    (wrapped : s.highIndex < s.lowIndex) (zero : s.highIndex = 0) :
    s.Exact ↔ s.size = 1 ∨ 2 ≤ s.searchSize ∧ s.earlier (s.searchSize - 2) = false := by
  obtain ⟨size, searchSize, minIn, side⟩ := valid.wrapped wrapped
  have inAlloc := valid.size_lt
  have few := @earlierNum_le s
  obtain ⟨m, before, place⟩ := valid.exists_minIndex early
  have number : s.lowIndex + m = s.minIndex := by
    have inside := (Nat.lt_of_lt_of_le before few).trans inAlloc
    have at_ := Ring.pos_eq valid.lowIn (Nat.le_of_lt inside)
    have at' : Ring.pos allocSize s.lowIndex m = s.minIndex := place
    rw [at'] at at_
    split at at_ <;> omega
  rw [valid.exact_iff early]
  by_cases one : s.searchSize = 1
  · rw [valid.run_of_one early one, Option.some_inj, Int.natCast_inj,
      valid.pos_eq_iff (by omega) (by omega)]
    omega
  · obtain ⟨k, narrow, lt, below, stop⟩ := valid.exists_narrow_eq early (by omega) (by omega)
    rw [valid.run_of_narrow early narrow lt (stop.imp_right And.left), ← Bool.not_eq_true,
      valid.lt_earlierNum_iff (by omega)]
    by_cases moved : k + 2 < s.searchSize
    · rw [if_pos moved, show s.earlierNum - 1 = k by omega]
      exact iff_of_true rfl (.inr ⟨by omega, by omega⟩)
    · rw [if_neg moved, if_pos zero]
      refine iff_of_false (fun none => ?_) (by omega)
      cases none

theorem Valid.exact_iff_of_lower (valid : s.Valid) (early : s.column s.minIndex < s.maxTimeStamp)
    (wrapped : s.highIndex < s.lowIndex) (lower : s.minIndex < s.highIndex) :
    s.Exact ↔ s.Leads (s.earlierNum - 1) ∨
      (allocSize + s.earlierNum < s.searchSize ∧ s.Leads (allocSize + s.earlierNum - 1)) ∨
      (s.earlierNum = s.size ∧ s.Leads (s.searchSize - 2)) := by
  obtain ⟨size, searchSize, minIn, side⟩ := valid.wrapped wrapped
  have lowIn := valid.lowIn
  have inAlloc := valid.size_lt
  have few := @earlierNum_le s
  have newest := valid.newest_early_iff (by omega)
  obtain ⟨m, before, _⟩ := valid.exists_minIndex early
  have leads : ∀ target, target + 1 < s.searchSize → (s.Leads target ↔
      Bisect.narrow s.earlier s.searchSize 0 (s.searchSize - 1) = (target, target + 1)) :=
    fun target lt => (Bisect.narrow_eq_iff s.earlier (by omega) (Nat.zero_le _) (by omega)).symm
  obtain ⟨k, _, lt, narrow, low, high⟩ := Bisect.exists_narrow_eq s.earlier
    (show s.searchSize - 1 - 0 ≤ s.searchSize by omega) (by omega)
  have here : ∀ target, target + 1 < s.searchSize → (s.Leads target ↔ k = target) := by
    intro target lt'
    rw [leads target lt', narrow, Prod.mk.injEq]
    omega
  have second : allocSize + s.earlierNum < s.searchSize ∧ s.Leads (allocSize + s.earlierNum - 1) ↔
      k = allocSize + (s.earlierNum - 1) := by
    constructor
    · intro ⟨inside, led⟩
      have equal := (here _ (by omega)).mp led
      omega
    · intro equal
      exact ⟨by omega, (here _ (by omega)).mpr (by omega)⟩
  rw [here _ (by omega), second, here _ (by omega), valid.exact_iff early,
    valid.run_of_narrow early narrow (by omega) (high.imp_left (by omega))]
  by_cases moved : k + 2 < s.searchSize
  · rw [if_pos moved, Option.some_inj, Int.natCast_inj, valid.pos_eq_iff (by omega) (by omega)]
    omega
  · rw [if_neg moved, if_neg (by omega)]
    by_cases all : s.column (s.highIndex - 1) < s.maxTimeStamp
    · have whole := newest.mp all
      rw [if_pos all, whole, ← valid.highIndex_sub (by omega)]
      exact iff_of_true rfl (.inr (.inr ⟨rfl, by omega⟩))
    · have notWhole := mt newest.mpr all
      rw [if_neg all, Option.some_inj, Int.natCast_inj, valid.pos_eq_iff (by omega) (by omega)]
      omega

/-- The search answers with the last candidate exactly if its bounds fit. -/
theorem lastExact_iff (valid : s.Valid) : s.Exact ↔ s.Fits := by
  rw [Fits]
  by_cases late : s.maxTimeStamp ≤ s.column s.minIndex
  · exact iff_of_true (valid.exact_of_late late) (.inl late)
  have early := Nat.lt_of_not_le late
  by_cases unwrapped : s.lowIndex ≤ s.highIndex
  · exact iff_of_true (valid.exact_of_unwrapped early unwrapped) (.inr (.inl unwrapped))
  have wrapped := Nat.lt_of_not_le unwrapped
  rw [or_iff_right late, or_iff_right unwrapped]
  by_cases zero : s.highIndex = 0
  · refine (valid.exact_iff_of_zero early wrapped zero).trans
      ⟨fun fits => .inr (.inl ⟨zero, fits⟩), fun fits => ?_⟩
    rcases fits with upper | empty | lower
    · exact absurd zero (Nat.ne_of_gt upper.2.1)
    · exact empty.2
    · exact absurd lower.1 (zero ▸ Nat.not_lt_zero _)
  obtain ⟨-, -, -, lower | upper⟩ := valid.wrapped wrapped
  · refine (valid.exact_iff_of_lower early wrapped lower).trans
      ⟨fun fits => .inr (.inr ⟨lower, fits⟩), fun fits => ?_⟩
    rcases fits with upper | empty | lower
    · exact absurd (Nat.lt_trans lower wrapped) (Nat.not_lt.mpr upper.1)
    · exact absurd empty.1 zero
    · exact lower.2
  · refine (valid.exact_iff_of_upper early wrapped upper zero).trans
      ⟨fun fits => .inl ⟨upper, Nat.pos_of_ne_zero zero, fits⟩, fun fits => ?_⟩
    rcases fits with upper | empty | lower
    · exact upper.2.2
    · exact absurd empty.1 zero
    · exact absurd (Nat.lt_trans lower.1 wrapped) (Nat.not_lt.mpr upper)

/-! ## The low end as `minIndex` -/

/-- From the low end on, the search fails only on a wrapped column that ends at the end of the
array: if `maxValue` is never moved and then read, behind the array. -/
theorem Valid.exact_iff_of_low (valid : s.Valid) (low : s.minIndex = s.lowIndex) :
    s.Exact ↔ s.maxTimeStamp ≤ s.column s.minIndex ∨ s.highIndex ≠ 0 ∨ s.size = 1 ∨
      s.earlier (s.size - 2) = false := by
  by_cases late : s.maxTimeStamp ≤ s.column s.minIndex
  · exact iff_of_true (valid.exact_of_late late) (.inl late)
  have early := Nat.lt_of_not_le late
  rw [or_iff_right late]
  by_cases unwrapped : s.lowIndex ≤ s.highIndex
  · have ne := valid.notEmpty
    exact iff_of_true (valid.exact_of_unwrapped early unwrapped) (.inl (by omega))
  have wrapped := Nat.lt_of_not_le unwrapped
  obtain ⟨size, searchSize, -, -⟩ := valid.wrapped wrapped
  have same : s.searchSize = s.size := by
    rw [searchSize, low, size]
  by_cases zero : s.highIndex = 0
  · have some' := valid.size_pos
    rw [valid.exact_iff_of_zero early wrapped zero, same, or_iff_right (not_not.mpr zero)]
    by_cases one : s.size = 1
    · exact iff_of_true (.inl one) (.inl one)
    · rw [and_iff_right (by omega)]
  · rw [valid.exact_iff_of_upper early wrapped (Nat.le_of_eq low.symm) zero, same]
    exact iff_of_true (Bool.eq_false_or_eq_true _) (.inl zero)

/-! ## Two wrapped columns -/

/-- Two elements, of the times 1 and 2, at the end of the array. -/
def atTheEnd : LastSearch where
  column := fun i => if i = 65534 then 1 else 2
  lowIndex := 65534
  highIndex := 0
  maxTimeStamp := 3
  minIndex := 65534

/-- Three elements, the last one at place 0. -/
def aroundTheEnd : LastSearch where
  column := wrappedColumn
  lowIndex := 65534
  highIndex := 1
  maxTimeStamp := 4
  minIndex := 65535

theorem atTheEnd_valid : atTheEnd.Valid where
  lowIn := by decide
  highIn := by decide
  notEmpty := by decide
  sorted := by
    intro k l le lt
    have inside : l < 2 := lt
    interval_cases l <;> interval_cases k <;> decide
  inside := ⟨0, by decide, rfl⟩

theorem aroundTheEnd_valid : aroundTheEnd.Valid where
  lowIn := by decide
  highIn := by decide
  notEmpty := by decide
  sorted := wrappedColumn_sorted
  inside := ⟨1, by decide, rfl⟩

theorem lastExact_iff_around : aroundTheEnd.Valid ∧ aroundTheEnd.Exact :=
  ⟨aroundTheEnd_valid, (lastExact_iff aroundTheEnd_valid).mpr
    (.inr (.inr (.inl ⟨by decide, by decide, .inl (by decide)⟩)))⟩

/-- The search reads place 65537. -/
theorem atTheEnd_not_exact : atTheEnd.Valid ∧ ¬ atTheEnd.Exact := by
  refine ⟨atTheEnd_valid, fun ⟨answer, run, _⟩ => ?_⟩
  have outside : Checked.getLastValidElementCircular atTheEnd.column atTheEnd.lowIndex
      atTheEnd.highIndex atTheEnd.maxTimeStamp atTheEnd.minIndex = none := by
    decide
  rw [outside] at run
  cases run

end LastSearch

/-! ## The engine's columns -/

namespace GPUProcessor

variable (p : GPUProcessor)

/-- `getMaxValidElement`, which searches from the low end on. -/
def getMaxValidElement (stack maxTimestamp : Nat) (type : StateType) : Option Int :=
  Checked.getLastValidElementCircular (p.timestamps type stack) (p.lowIndexes type stack)
    (p.highIndexes type stack) maxTimestamp (p.lowIndexes type stack)

/-- On a sorted column that is not empty, it answers with the last element before the bound, unless
the column ends at the end of the array and the search gets up to its last two elements. -/
theorem getMaxValidElement_exact_iff {stack maxTimestamp : Nat} {type : StateType}
    (inside : p.Inside) (notEmpty : p.lowIndexes type stack ≠ p.highIndexes type stack)
    (sorted : Ring.Sorted allocSize (p.timestamps type stack) (p.lowIndexes type stack)
      (p.highIndexes type stack)) :
    let column := p.timestamps type stack
    let place := Ring.pos allocSize (p.lowIndexes type stack)
    let size := Ring.size allocSize (p.lowIndexes type stack) (p.highIndexes type stack)
    (∃ answer, p.getMaxValidElement stack maxTimestamp type = some answer ∧
        Answers place (IsGreatest {k | k < size ∧ column (place k) < maxTimestamp}) answer) ↔
      p.highIndexes type stack ≠ 0 ∨ size = 1 ∨
        maxTimestamp ≤ column (p.lowIndexes type stack) ∨
        maxTimestamp ≤ column (place (size - 2)) := by
  let s : LastSearch := ⟨p.timestamps type stack, p.lowIndexes type stack,
    p.highIndexes type stack, maxTimestamp, p.lowIndexes type stack⟩
  have first : s.pos 0 = s.minIndex := Ring.pos_zero (inside type stack).1
  have valid : s.Valid :=
    { lowIn := (inside type stack).1
      highIn := (inside type stack).2
      notEmpty
      sorted
      inside := ⟨0, Nat.pos_of_ne_zero fun none =>
        notEmpty ((Ring.size_eq_zero (inside type stack).1).mp none).symm, first⟩ }
  have candidates : s.candidates = {k | k < s.size ∧ s.column (s.pos k) < s.maxTimeStamp} := by
    ext k
    rw [LastSearch.candidates, Set.mem_ofPred_eq, Set.mem_ofPred_eq, LastSearch.earlier_iff]
    exact and_congr_right fun _ => and_iff_right ⟨0, Nat.zero_le k, first⟩
  have exact_iff := valid.exact_iff_of_low rfl
  rw [LastSearch.Exact, candidates, ← Bool.not_eq_true, LastSearch.earlier_iff, Nat.not_lt]
    at exact_iff
  refine exact_iff.trans ?_
  rw [or_left_comm, or_left_comm (b := s.size = 1)]
  rfl

end GPUProcessor

end TRex
