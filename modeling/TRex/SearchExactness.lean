import TRex.StacksRule

/-!
# The searches and their accesses

The searches of `Common/Funs.cc` read a vector without a check, and their loops have no bound.
Here they are run with a check on every access: `searches_exact` says that on a sorted column they
come to an end, read only elements that there are, and answer with the first element after the lower
bound and the last one before the upper bound.

`deleteInvalidElements` asks first whether the newest element lies on the cutoff, from the time when
such an element was in the window. `removesExactly_iff` says that only this goes wrong.
-/

namespace TRex

/-! ## The searches with their accesses checked -/

namespace Checked

/-- `column[i]->getTimeStamp()`, if there is such an element. -/
def timeAt (column : List PubPktPtr) (i : Int) : Option Nat :=
  if 0 ≤ i then column[i.toNat]?.map PubPktPtr.getTimeStamp else none

def getFirstValidElement (column : List PubPktPtr) (columnSize : Int) (minTimeStamp : Nat) :
    Option Int :=
  if columnSize ≤ 0 then some (-1)
  else do
    let newest ← timeAt column (columnSize - 1)
    if newest ≤ minTimeStamp then some (-1)
    else do
      let (minValue, maxValue) ← Bisect.narrowInt
        (fun midPoint => (timeAt column midPoint).map fun time => time ≤ minTimeStamp)
        columnSize.toNat 0 (columnSize - 1)
      if maxValue - minValue = 0 then some minValue
      else do
        let time ← timeAt column minValue
        some (if time > minTimeStamp then minValue else maxValue)

def getLastValidElement (column : List PubPktPtr) (columnSize : Int) (maxTimeStamp : Nat)
    (minIndex : Int) : Option Int :=
  if minIndex = -1 then some (-1)
  else do
    let oldest ← timeAt column minIndex
    if oldest ≥ maxTimeStamp then some (-1)
    else do
      let (minValue, maxValue) ← Bisect.narrowInt
        (fun midPoint => (timeAt column midPoint).map fun time => !decide (time ≥ maxTimeStamp))
        columnSize.toNat minIndex (columnSize - 1)
      if maxValue - minValue = 0 then some minValue
      else do
        let time ← timeAt column maxValue
        some (if time < maxTimeStamp then maxValue else minValue)

end Checked

/-! ## What is required -/

/-- The place of the one that is looked for, -1 if there is none. -/
def Answers (place : Nat → Nat) (best : Nat → Prop) (answer : Int) : Prop :=
  (answer = -1 ∧ ∀ k, ¬ best k) ∨ ∃ k, best k ∧ answer = place k

variable {column : List PubPktPtr}

/-- The elements after the lower bound. -/
def laterElements (column : List PubPktPtr) (minTimeStamp : Nat) : Set Nat :=
  {i | ∃ p, column[i]? = some p ∧ minTimeStamp < p.getTimeStamp}

/-- The elements from `minIndex` on that are before the upper bound. -/
def earlierElements (column : List PubPktPtr) (maxTimeStamp minIndex : Nat) : Set Nat :=
  {i | minIndex ≤ i ∧ ∃ p, column[i]? = some p ∧ p.getTimeStamp < maxTimeStamp}

/-! ## The checked searches -/

theorem checked_timeAt {i : Nat} (lt : i < column.length) :
    Checked.timeAt column i = some (timeAt column i) := by
  rw [Checked.timeAt, if_pos (Int.natCast_nonneg i), Int.toNat_natCast,
    List.getElem?_eq_getElem lt, timeAt_eq lt]
  rfl

/-- Between two elements, the loop reads elements only. -/
theorem checked_narrow (test : Nat → Bool) {i : Nat} (lt : i < column.length) :
    Bisect.narrowInt (fun j => (Checked.timeAt column j).map test) column.length i
        ((column.length : Int) - 1) =
      let bracket := Bisect.narrow (fun j => test (timeAt column j)) column.length i
        (column.length - 1)
      some ((bracket.1 : Int), (bracket.2 : Int)) := by
  rw [show (column.length : Int) - 1 = (column.length - 1 : Nat) by omega]
  refine Bisect.narrowInt_eq _ _ (by omega) (by omega) fun mid _ before => ?_
  rw [checked_timeAt (by omega)]
  rfl

theorem checked_getFirstValidElement (column : List PubPktPtr) (m : Nat) :
    Checked.getFirstValidElement column column.length m =
      some (getFirstValidElement column column.length m) := by
  unfold Checked.getFirstValidElement getFirstValidElement
  by_cases empty : (column.length : Int) ≤ 0
  · rw [if_pos empty, if_pos empty]
  have pos : 0 < column.length := by omega
  have run := checked_narrow (fun time => decide (time ≤ m)) pos
  have loop := Bisect.narrow_spec (fun i => decide (timeAt column i ≤ m))
    (Nat.zero_le (column.length - 1)) (by omega : column.length - 1 - 0 ≤ column.length)
  have newest := checked_timeAt (Nat.sub_lt pos Nat.one_pos)
  rw [show ((column.length - 1 : Nat) : Int) = (column.length : Int) - 1 by omega] at newest
  rw [if_neg empty, if_neg empty, newest, Option.bind_eq_bind, Option.bind_some]
  simp only [Int.toNat_natCast, Nat.cast_zero, Option.bind_eq_bind] at run ⊢
  by_cases old : timeAt column (column.length - 1) ≤ m
  · rw [if_pos old, if_pos old]
  rw [if_neg old, if_neg old, run, Option.bind_some]
  generalize Bisect.narrow _ _ _ _ = bracket at loop ⊢
  have ordered := loop.ordered
  have upper := loop.upper
  by_cases same : bracket.2 - bracket.1 = 0
  · rw [if_pos same, if_pos (by omega)]
  · rw [if_neg same, if_neg (by omega), checked_timeAt (by omega), Option.bind_some]

theorem checked_getLastValidElement {i : Nat} (M : Nat) (lt : i < column.length) :
    Checked.getLastValidElement column column.length M i =
      some (getLastValidElement column column.length M i) := by
  unfold Checked.getLastValidElement getLastValidElement
  have run := checked_narrow (fun time => !decide (time ≥ M)) lt
  have loop := Bisect.narrow_spec (fun j => !decide (timeAt column j ≥ M))
    (by omega : i ≤ column.length - 1) (by omega : column.length - 1 - i ≤ column.length)
  rw [if_neg (by omega), if_neg (by omega), checked_timeAt lt, Option.bind_eq_bind,
    Option.bind_some]
  simp only [Int.toNat_natCast, Option.bind_eq_bind] at run ⊢
  by_cases late : timeAt column i ≥ M
  · rw [if_pos late, if_pos late]
  rw [if_neg late, if_neg late, run, Option.bind_some]
  generalize Bisect.narrow _ _ _ _ = bracket at loop ⊢
  have ordered := loop.ordered
  have upper := loop.upper
  by_cases same : bracket.2 - bracket.1 = 0
  · rw [if_pos same, if_pos (by omega)]
  · rw [if_neg same, if_neg (by omega), checked_timeAt (by omega), Option.bind_some]

/-! ## The answers -/

theorem mem_laterElements {m i : Nat} :
    i ∈ laterElements column m ↔ i < column.length ∧ m < timeAt column i := by
  constructor
  · intro ⟨p, there, later⟩
    obtain ⟨lt, same⟩ := List.getElem?_eq_some_iff.mp there
    rw [timeAt_eq lt, same]
    exact ⟨lt, later⟩
  · intro ⟨lt, later⟩
    rw [timeAt_eq lt] at later
    exact ⟨column[i], List.getElem?_eq_getElem lt, later⟩

theorem mem_earlierElements {M i j : Nat} :
    j ∈ earlierElements column M i ↔ i ≤ j ∧ j < column.length ∧ timeAt column j < M := by
  refine and_congr_right fun _ => ?_
  constructor
  · intro ⟨p, there, earlier⟩
    obtain ⟨lt, same⟩ := List.getElem?_eq_some_iff.mp there
    rw [timeAt_eq lt, same]
    exact ⟨lt, earlier⟩
  · intro ⟨lt, earlier⟩
    rw [timeAt_eq lt] at earlier
    exact ⟨column[j], List.getElem?_eq_getElem lt, earlier⟩

/-- On a sorted column, the searches come to an end without an access outside of it. The first one
answers with the first element after the bound, the second one with the last element from `minIndex`
on before the bound, and with -1 exactly if the element at `minIndex` is not before it. -/
theorem searches_exact (sorted : TimeSorted column) :
    (∀ minTimeStamp, ∃ answer,
      Checked.getFirstValidElement column column.length minTimeStamp = some answer ∧
        Answers id (IsLeast (laterElements column minTimeStamp)) answer) ∧
    ∀ maxTimeStamp minIndex, minIndex < column.length → ∃ answer,
      Checked.getLastValidElement column column.length maxTimeStamp minIndex = some answer ∧
        Answers id (IsGreatest (earlierElements column maxTimeStamp minIndex)) answer ∧
        (answer = -1 ↔ maxTimeStamp ≤ timeAt column minIndex) := by
  refine ⟨fun m => ⟨_, checked_getFirstValidElement column m, ?_⟩,
    fun M i lt => ⟨_, checked_getLastValidElement M lt, ?_⟩⟩
  · rcases getFirstValidElement_isLeast sorted m with ⟨absent, old⟩ | ⟨k, answer, least⟩
    · refine .inl ⟨absent, fun k least => ?_⟩
      obtain ⟨p, there, later⟩ := least.1
      exact Nat.not_lt.mpr (old p (List.mem_of_getElem? there)) later
    · have same : laterElements column m = {i | i < column.length ∧ m < timeAt column i} :=
        Set.ext fun i => mem_laterElements
      exact .inr ⟨k, same ▸ least, answer⟩
  · have same :
        earlierElements column M i = {j | i ≤ j ∧ j < column.length ∧ timeAt column j < M} :=
      Set.ext fun j => mem_earlierElements
    by_cases late : M ≤ timeAt column i
    · have answer : getLastValidElement column column.length M i = -1 := by
        rw [getLastValidElement, if_neg (by omega), Int.toNat_natCast, if_pos late]
      refine ⟨.inl ⟨answer, fun k greatest => ?_⟩, iff_of_true answer late⟩
      rw [same] at greatest
      have later := timeAt_mono sorted greatest.1.1 greatest.1.2.1
      exact Nat.not_lt.mpr (late.trans later) greatest.1.2.2
    · obtain ⟨k, answer, greatest⟩ :=
        getLastValidElement_isGreatest sorted M lt (Nat.lt_of_not_le late)
      exact ⟨.inr ⟨k, same ▸ greatest, answer⟩, iff_of_false (by omega) late⟩

/-- Three packets, the last two of the same time. -/
def threePackets : List PubPktPtr :=
  [⟨0, PubPkt.new 0 [] 3⟩, ⟨1, PubPkt.new 0 [] 5⟩, ⟨2, PubPkt.new 0 [] 5⟩]

theorem threePackets_sorted : TimeSorted threePackets := by
  unfold TimeSorted SortedBy threePackets
  decide

theorem searches_exact_three : TimeSorted threePackets ∧
    (∀ minTimeStamp, ∃ answer,
      Checked.getFirstValidElement threePackets 3 minTimeStamp = some answer ∧
        Answers id (IsLeast (laterElements threePackets minTimeStamp)) answer) ∧
    ∀ maxTimeStamp, ∀ minIndex : Nat, minIndex < 3 → ∃ answer,
      Checked.getLastValidElement threePackets 3 maxTimeStamp minIndex = some answer ∧
        Answers id (IsGreatest (earlierElements threePackets maxTimeStamp minIndex)) answer ∧
        (answer = -1 ↔ maxTimeStamp ≤ timeAt threePackets minIndex) :=
  ⟨threePackets_sorted, searches_exact threePackets_sorted⟩

/-! ## Counting what is left -/

/-- `deleteInvalidElements` returns the number of the elements after the cutoff, and
`removeOldPacketsFromStack` leaves these, in order. -/
def RemovesExactly (column : List PubPktPtr) (minTimeStamp : Nat) : Prop :=
  let left := column.filter fun p => minTimeStamp < p.getTimeStamp
  deleteInvalidElements column column.length minTimeStamp = left.length ∧
    (Column.mk column.length column).removeOld minTimeStamp = ⟨left.length, left⟩

/-- The counter and the elements are those left, unless the newest element lies on the cutoff. -/
theorem removesExactly_iff (sorted : TimeSorted column) (minTimeStamp : Nat) :
    RemovesExactly column minTimeStamp ↔
      ∀ newest, column.getLast? = some newest → newest.getTimeStamp ≠ minTimeStamp := by
  constructor
  · intro ⟨count, _⟩ newest last on
    have some' : column.length ≠ 0 := by
      intro none
      rw [List.length_eq_zero_iff.mp none] at last
      cases last
    have time := timeAt_of_getLast? last
    have gone : (column.filter fun p => decide (minTimeStamp < p.getTimeStamp)) = [] := by
      rw [List.filter_eq_nil_iff]
      intro p mem
      have upTo := le_timeAt_last sorted mem
      rw [time, on] at upTo
      simpa using upTo
    rw [gone, deleteInvalidElements, if_neg (by omega), Int.toNat_natCast, time, if_pos on] at count
    cases count
  · intro apart
    obtain ⟨k, le, answer, left⟩ := deleteInvalidElements_eq_of_ne sorted minTimeStamp apart
    have count : (column.filter fun p => decide (minTimeStamp < p.getTimeStamp)).length =
        column.length - k := by rw [← left, List.length_drop]
    refine ⟨by rw [answer, count], ?_⟩
    rw [count, ← left, Column.removeOld]
    dsimp only
    by_cases empty : (column.length : Int) = 0
    · have none : column = [] := List.length_eq_zero_iff.mp (by omega)
      rw [if_pos empty, none]
      simp
    · rw [if_neg empty, answer]
      by_cases all : ((column.length - k : Nat) : Int) = column.length
      · rw [if_pos all, show k = 0 by omega, Nat.sub_zero, List.drop_zero]
      · rw [if_neg all, show ((column.length : Int) - (column.length - k : Nat)).toNat = k by omega]

theorem removesExactly_iff_three : RemovesExactly threePackets 4 :=
  (removesExactly_iff threePackets_sorted 4).mpr fun newest last on => by
    cases last
    exact absurd on (by decide)

/-- The two newest packets lie on the cutoff: both have expired, and one is left. -/
theorem three_not_removesExactly : TimeSorted threePackets ∧ ¬ RemovesExactly threePackets 5 := by
  refine ⟨threePackets_sorted, fun ⟨count, _⟩ => ?_⟩
  exact absurd count (by decide)

end TRex
