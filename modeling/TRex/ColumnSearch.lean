import Mathlib.Data.Nat.Basic
import TRex.Lib.Bisect
import TRex.Lib.SortedBy
import TRex.Structures

/-!
# Searching a column of packets

The binary searches of `Common/Funs.cc` over a vector of packets and its separately kept size, and
what they return on a column that is sorted by timestamp and whose size is right: the packets from
the first valid element on are the ones after the lower bound, and the packets from it to the last
valid element are the ones inside the open interval (`validRange_spec`).

`deleteInvalidElements` answers 1 when the newest packet has exactly the cutoff's timestamp,
although no packet is newer than the cutoff; `deleteInvalidElements_spec` keeps that case apart.
-/

namespace TRex

/-! ## The searches -/

/-- `column[i]->getTimeStamp()`; the searches only use it inside the column. -/
def timeAt (column : List PubPktPtr) (i : Nat) : Nat :=
  ((column[i]?).map PubPktPtr.getTimeStamp).getD 0

/-- Index of the first packet newer than `minTimeStamp`, -1 if there is none. -/
def getFirstValidElement (column : List PubPktPtr) (columnSize : Int) (minTimeStamp : Nat) :
    Int :=
  if columnSize ≤ 0 then -1
  else
    let maxValue := columnSize.toNat - 1
    if timeAt column maxValue ≤ minTimeStamp then -1
    else
      let (minValue, maxValue) := Bisect.narrow
        (fun midPoint => timeAt column midPoint ≤ minTimeStamp) columnSize.toNat 0 maxValue
      if maxValue - minValue = 0 then minValue
      else if timeAt column minValue > minTimeStamp then minValue
      else maxValue

/-- Index of the last packet from `minIndex` on that is older than `maxTimeStamp`, -1 if the one at
`minIndex` is not. -/
def getLastValidElement (column : List PubPktPtr) (columnSize : Int) (maxTimeStamp : Nat)
    (minIndex : Int) : Int :=
  if minIndex = -1 then -1
  else if timeAt column minIndex.toNat ≥ maxTimeStamp then -1
  else
    let (minValue, maxValue) := Bisect.narrow
      (fun midPoint => !decide (timeAt column midPoint ≥ maxTimeStamp)) columnSize.toNat
      minIndex.toNat (columnSize.toNat - 1)
    if maxValue - minValue = 0 then minValue
    else if timeAt column maxValue < maxTimeStamp then maxValue
    else minValue

/-- The size of the column once packets up to `minTimeStamp` are dropped from its front. -/
def deleteInvalidElements (column : List PubPktPtr) (columnSize : Int) (minTimeStamp : Nat) :
    Int :=
  if columnSize = 0 then columnSize
  else if timeAt column (columnSize.toNat - 1) = minTimeStamp then 1
  else
    let firstValidElement := getFirstValidElement column columnSize minTimeStamp
    if firstValidElement < 0 then 0 else columnSize - firstValidElement

/-- The search that `getWinEvents` and `checkNegation` share: first and last index of the packets
strictly between two times, `none` where they return at once. -/
def validRange (column : List PubPktPtr) (columnSize : Int) (minTimeStamp maxTimeStamp : Nat) :
    Option (Int × Int) :=
  let index1 := getFirstValidElement column columnSize minTimeStamp
  if index1 < 0 then none
  else if timeAt column index1.toNat ≥ maxTimeStamp then none
  else
    let index2 := getLastValidElement column columnSize maxTimeStamp index1
    some (index1, if index2 < 0 then index1 else index2)

/-- The same search in `computeAggregate`, which relies on the second search to fail. -/
def aggregateRange (column : List PubPktPtr) (columnSize : Int) (minTimeStamp maxTimeStamp : Nat) :
    Option (Int × Int) :=
  let index1 := getFirstValidElement column columnSize minTimeStamp
  if index1 < 0 then none
  else
    let index2 := getLastValidElement column columnSize maxTimeStamp index1
    if index2 < 0 then none else some (index1, index2)

/-- The packets a loop from `index1` to `index2` visits. -/
def slice (column : List PubPktPtr) (range : Int × Int) : List PubPktPtr :=
  (column.drop range.1.toNat).take (range.2 - range.1 + 1).toNat

/-! ## What they return on a sorted column -/

/-- A column in the order the searches rely on. -/
abbrev TimeSorted (column : List PubPktPtr) : Prop := SortedBy PubPktPtr.getTimeStamp column

variable {column : List PubPktPtr}

theorem timeAt_eq {i : Nat} (lt : i < column.length) :
    timeAt column i = column[i].getTimeStamp := by
  simp [timeAt, lt]

theorem timeAt_zero_le (sorted : TimeSorted column) {p : PubPktPtr} (mem : p ∈ column) :
    timeAt column 0 ≤ p.getTimeStamp := by
  have nonempty : 0 < column.length := List.length_pos_of_mem mem
  rw [timeAt_eq nonempty]
  exact sorted.head_le (List.getElem?_eq_getElem nonempty) p mem

/-- All packets are at or before the time of the last one. -/
theorem le_timeAt_last (sorted : TimeSorted column) {p : PubPktPtr} (mem : p ∈ column) :
    p.getTimeStamp ≤ timeAt column (column.length - 1) := by
  have nonempty : 0 < column.length := List.length_pos_of_mem mem
  obtain ⟨i, lt, rfl⟩ := List.getElem_of_mem mem
  rw [timeAt_eq (by omega)]
  exact sorted.le_of_index_le (by omega) (by omega)

theorem timeAt_mono (sorted : TimeSorted column) {i j : Nat} (le : i ≤ j) (lt : j < column.length) :
    timeAt column i ≤ timeAt column j := by
  rw [timeAt_eq lt, timeAt_eq (Nat.lt_of_le_of_lt le lt)]
  exact sorted.le_of_index_le le lt

theorem getFirstValidElement_isLeast (sorted : TimeSorted column) (m : Nat) :
    (getFirstValidElement column column.length m = -1 ∧ ∀ p ∈ column, p.getTimeStamp ≤ m) ∨
      ∃ k : Nat, getFirstValidElement column column.length m = k ∧
        IsLeast {i | i < column.length ∧ m < timeAt column i} k := by
  unfold getFirstValidElement
  by_cases empty : (column.length : Int) ≤ 0
  · rw [if_pos empty]
    have none : column = [] := List.length_eq_zero_iff.mp (by omega)
    exact .inl ⟨rfl, by simp [none]⟩
  rw [if_neg empty]
  simp only [Int.toNat_natCast]
  by_cases old : timeAt column (column.length - 1) ≤ m
  · rw [if_pos old]
    exact .inl ⟨rfl, fun p mem => (le_timeAt_last sorted mem).trans old⟩
  rw [if_neg old]
  have loop := Bisect.narrow_spec (fun i => decide (timeAt column i ≤ m))
    (Nat.zero_le (column.length - 1)) (by omega : column.length - 1 - 0 ≤ column.length)
  have initial : Bisect.Initial (fun i => decide (timeAt column i ≤ m)) 0 (column.length - 1) := by
    intro k l _ le lt test
    exact decide_eq_true ((timeAt_mono sorted le (by omega)).trans (of_decide_eq_true test))
  have least := loop.isLeast_first initial (decide_eq_false old)
  simp only [decide_eq_false_iff_not, Nat.not_le] at least
  refine .inr ⟨_, ?_, ⟨by have := least.1.2.1; omega, least.1.2.2⟩, fun k above => ?_⟩
  · generalize Bisect.narrow _ _ _ _ = bracket
    split
    · rfl
    · split <;> rfl
  · have inside : k < column.length := above.1
    exact least.2 ⟨Nat.zero_le k, by omega, above.2⟩

theorem getLastValidElement_isGreatest (sorted : TimeSorted column) (M : Nat) {i : Nat}
    (lt : i < column.length) (before : timeAt column i < M) :
    ∃ k : Nat, getLastValidElement column column.length M i = k ∧
      IsGreatest {j | i ≤ j ∧ j < column.length ∧ timeAt column j < M} k := by
  unfold getLastValidElement
  rw [if_neg (by omega), if_neg (by simpa using before)]
  simp only [Int.toNat_natCast]
  have loop := Bisect.narrow_spec (fun j => !decide (timeAt column j ≥ M))
    (by omega : i ≤ column.length - 1) (by omega : column.length - 1 - i ≤ column.length)
  have initial : Bisect.Initial (fun j => !decide (timeAt column j ≥ M)) i (column.length - 1) := by
    intro k l _ le lt test
    simp only [Bool.not_eq_true', decide_eq_false_iff_not, Nat.not_le] at test ⊢
    exact (timeAt_mono sorted le (by omega)).trans_lt test
  have greatest := loop.isGreatest_last initial (by simpa using before)
  simp only [Bool.not_eq_true', decide_eq_false_iff_not, Nat.not_le] at greatest
  refine ⟨_, ?_, ⟨greatest.1.1, by have := greatest.1.2.1; omega, greatest.1.2.2⟩,
    fun k below => ?_⟩
  · generalize Bisect.narrow _ _ _ _ = bracket
    split
    · rfl
    · split <;> rfl
  · have inside : k < column.length := below.2.1
    exact greatest.2 ⟨below.1, by omega, below.2.2⟩

/-- The first valid element splits the column at the cutoff. -/
theorem getFirstValidElement_spec (sorted : TimeSorted column) (m : Nat) :
    (getFirstValidElement column column.length m = -1 ∧ ∀ p ∈ column, p.getTimeStamp ≤ m) ∨
      ∃ k : Nat, getFirstValidElement column column.length m = k ∧ k < column.length ∧
        (∀ p ∈ column.take k, p.getTimeStamp ≤ m) ∧ ∀ p ∈ column.drop k, m < p.getTimeStamp := by
  rcases getFirstValidElement_isLeast sorted m with absent | ⟨k, answer, ⟨lt, above⟩, least⟩
  · exact .inl absent
  · rw [timeAt_eq lt] at above
    refine .inr ⟨k, answer, lt, fun p mem => ?_, sorted.forall_mem_drop_lt lt above⟩
    obtain ⟨i, before, same⟩ := List.mem_take_iff_getElem.mp mem
    rw [Nat.lt_min] at before
    rw [← same, ← timeAt_eq before.2]
    by_contra after
    have notBefore := least ⟨before.2, Nat.lt_of_not_le after⟩
    omega

/-- The last valid element ends the run of packets before the upper bound. -/
theorem getLastValidElement_spec (sorted : TimeSorted column) (M : Nat) {i : Nat}
    (lt : i < column.length) (before : timeAt column i < M) :
    ∃ k : Nat, getLastValidElement column column.length M i = k ∧ i ≤ k ∧ k < column.length ∧
      (∀ p ∈ column.take (k + 1), p.getTimeStamp < M) ∧
        ∀ p ∈ column.drop (k + 1), M ≤ p.getTimeStamp := by
  obtain ⟨k, answer, ⟨ge, kLt, below⟩, greatest⟩ :=
    getLastValidElement_isGreatest sorted M lt before
  rw [timeAt_eq kLt] at below
  refine ⟨k, answer, ge, kLt, fun p mem => ?_, fun p mem => ?_⟩
  · exact (sorted.forall_mem_take_le kLt le_rfl p mem).trans_lt below
  · obtain ⟨j, after, rfl⟩ := List.mem_drop_iff_getElem.mp mem
    rw [← timeAt_eq]
    by_contra early
    have notAfter := greatest ⟨by omega, by omega, Nat.lt_of_not_le early⟩
    omega

/-! ## Windows -/

/-- The packets strictly between two times. -/
def between (lo hi : Nat) (column : List PubPktPtr) : List PubPktPtr :=
  column.filter fun p => decide (lo < p.getTimeStamp) && decide (p.getTimeStamp < hi)

theorem mem_between {lo hi : Nat} {p : PubPktPtr} :
    p ∈ between lo hi column ↔ p ∈ column ∧ lo < p.getTimeStamp ∧ p.getTimeStamp < hi := by
  simp [between]

theorem between_eq_nil_of_le {lo hi : Nat} (old : ∀ p ∈ column, p.getTimeStamp ≤ lo) :
    between lo hi column = [] := by
  apply List.eq_nil_iff_forall_not_mem.mpr
  intro p mem
  have := mem_between.mp mem
  have := old p this.1
  omega

/-- What a range search must answer: nothing when the open interval holds no packet, and otherwise a
range whose packets are the ones inside the interval. -/
def RangeSpec (column : List PubPktPtr) (lo hi : Nat) (answer : Option (Int × Int)) : Prop :=
  (answer = none ∧ between lo hi column = []) ∨
    ∃ range, answer = some range ∧ slice column range = between lo hi column ∧
      between lo hi column ≠ []

/-- Packets from the first valid element `k` on, when that one is not before the upper bound. -/
theorem between_eq_nil_of_late {lo hi k : Nat} (sorted : TimeSorted column) (lt : k < column.length)
    (old : ∀ p ∈ column.take k, p.getTimeStamp ≤ lo) (late : hi ≤ timeAt column k) :
    between lo hi column = [] := by
  apply List.eq_nil_iff_forall_not_mem.mpr
  intro p mem
  obtain ⟨inColumn, after, before⟩ := mem_between.mp mem
  obtain ⟨i, iLt, rfl⟩ := List.getElem_of_mem inColumn
  rw [timeAt_eq lt] at late
  rcases Nat.lt_or_ge i k with less | ge
  · have := old column[i] (List.mem_take_iff_getElem.mpr ⟨i, by omega, rfl⟩)
    omega
  · have := sorted.le_of_index_le ge iLt
    omega

/-- The two searches together delimit the packets inside the open interval. -/
theorem slice_eq_between {lo hi k : Nat} (sorted : TimeSorted column) (lt : k < column.length)
    (old : ∀ p ∈ column.take k, p.getTimeStamp ≤ lo)
    (young : ∀ p ∈ column.drop k, lo < p.getTimeStamp)
    (early : timeAt column k < hi) :
    ∃ k' : Nat, getLastValidElement column column.length hi k = k' ∧
      slice column (k, k') = between lo hi column ∧ between lo hi column ≠ [] := by
  obtain ⟨k', last, le, k'Lt, inside, outside⟩ := getLastValidElement_spec sorted hi lt early
  have split : between lo hi column =
      (column.drop k).filter fun p => decide (p.getTimeStamp < hi) := by
    have head : between lo hi (column.take k) = [] := between_eq_nil_of_le old
    unfold between at head ⊢
    conv_lhs => rw [← List.take_append_drop k column]
    rw [List.filter_append, head, List.nil_append]
    apply List.filter_congr
    intro p mem
    simp [young p mem]
  refine ⟨k', last, ?_, ?_⟩
  · rw [split, slice, Int.toNat_natCast, show ((k' : Int) - k + 1).toNat = k' + 1 - k by omega]
    apply List.take_eq_filter_of_boundary
    · intro p mem
      rw [← List.drop_take] at mem
      simpa using inside p (List.mem_of_mem_drop mem)
    · intro p mem
      rw [List.drop_drop, show k + (k' + 1 - k) = k' + 1 by omega] at mem
      simpa using outside p mem
  · have member : column[k] ∈ between lo hi column := by
      rw [timeAt_eq lt] at early
      exact mem_between.mpr ⟨List.getElem_mem lt,
        young _ (List.mem_drop_iff_getElem.mpr ⟨0, by omega, by simp⟩), early⟩
    exact List.ne_nil_of_mem member

theorem validRange_spec (sorted : TimeSorted column) (lo hi : Nat) :
    RangeSpec column lo hi (validRange column column.length lo hi) := by
  unfold validRange
  rcases getFirstValidElement_spec sorted lo with ⟨absent, old⟩ | ⟨k, first, kLt, old, young⟩
  · rw [absent]
    exact .inl ⟨rfl, between_eq_nil_of_le old⟩
  rw [first]
  simp only [Int.toNat_natCast, if_neg (show ¬ (k : Int) < 0 by omega)]
  by_cases late : timeAt column k ≥ hi
  · rw [if_pos late]
    exact .inl ⟨rfl, between_eq_nil_of_late sorted kLt old late⟩
  · rw [if_neg late]
    obtain ⟨k', last, packets, nonempty⟩ := slice_eq_between sorted kLt old young
      (Nat.lt_of_not_le late)
    rw [last, if_neg (by omega)]
    exact .inr ⟨_, rfl, packets, nonempty⟩

theorem aggregateRange_spec (sorted : TimeSorted column) (lo hi : Nat) :
    RangeSpec column lo hi (aggregateRange column column.length lo hi) := by
  unfold aggregateRange
  rcases getFirstValidElement_spec sorted lo with ⟨absent, old⟩ | ⟨k, first, kLt, old, young⟩
  · rw [absent]
    exact .inl ⟨rfl, between_eq_nil_of_le old⟩
  rw [first]
  simp only [if_neg (show ¬ (k : Int) < 0 by omega)]
  by_cases late : timeAt column k ≥ hi
  · have fails : getLastValidElement column column.length hi k = -1 := by
      unfold getLastValidElement
      rw [if_neg (by omega), Int.toNat_natCast, if_pos late]
    rw [fails]
    exact .inl ⟨rfl, between_eq_nil_of_late sorted kLt old late⟩
  · obtain ⟨k', last, packets, nonempty⟩ := slice_eq_between sorted kLt old young
      (Nat.lt_of_not_le late)
    rw [last, if_neg (by omega)]
    exact .inr ⟨_, rfl, packets, nonempty⟩

/-! ## Expiry -/

theorem timeAt_of_getLast? {newest : PubPktPtr} (last : column.getLast? = some newest) :
    timeAt column (column.length - 1) = newest.getTimeStamp := by
  rw [List.getLast?_eq_getElem?] at last
  simp [timeAt, last]

/-- If no element lies on the cutoff at the end of the column, exactly those after it are left. -/
theorem deleteInvalidElements_eq_of_ne (sorted : TimeSorted column) (m : Nat)
    (apart : ∀ newest, column.getLast? = some newest → newest.getTimeStamp ≠ m) :
    ∃ k ≤ column.length,
      deleteInvalidElements column column.length m = (column.length - k : Nat) ∧
        column.drop k = column.filter fun p => decide (m < p.getTimeStamp) := by
  unfold deleteInvalidElements
  by_cases empty : (column.length : Int) = 0
  · have none : column = [] := List.length_eq_zero_iff.mp (by omega)
    rw [none]
    exact ⟨0, Nat.le_refl _, rfl, rfl⟩
  have some' : column ≠ [] := fun none => empty (by rw [none]; rfl)
  have last := List.getLast?_eq_some_getLast some'
  have notOn : ¬ timeAt column ((column.length : Int).toNat - 1) = m := by
    rw [Int.toNat_natCast, timeAt_of_getLast? last]
    exact apart _ last
  rw [if_neg empty, if_neg notOn]
  rcases getFirstValidElement_spec sorted m with ⟨absent, old⟩ | ⟨k, first, lt, old, young⟩
  · refine ⟨column.length, Nat.le_refl _, by rw [absent]; simp, ?_⟩
    rw [List.drop_length, eq_comm, List.filter_eq_nil_iff]
    intro p mem
    simpa using old p mem
  · refine ⟨k, lt.le, ?_, ?_⟩
    · rw [first]
      simp only [if_neg (show ¬ (k : Int) < 0 by omega)]
      omega
    · exact List.drop_eq_filter_of_boundary (fun p mem => by simpa using old p mem)
        fun p mem => by simpa using young p mem

/-- Dropping from the front down to the size `deleteInvalidElements` answers leaves the packets
after the cutoff, or the newest packet alone when it lies exactly on the cutoff. -/
theorem deleteInvalidElements_spec (sorted : TimeSorted column) (m : Nat) :
    ∃ k : Nat, deleteInvalidElements column column.length m = (column.length - k : Nat) ∧
      k ≤ column.length ∧ (∀ p ∈ column.take k, p.getTimeStamp ≤ m) ∧
      ∀ p ∈ column, m < p.getTimeStamp → p ∈ column.drop k := by
  unfold deleteInvalidElements
  by_cases empty : (column.length : Int) = 0
  · rw [if_pos empty]
    exact ⟨0, by omega, by omega, by simp, fun p mem _ => by simpa using mem⟩
  rw [if_neg empty]
  by_cases equal : timeAt column ((column.length : Int).toNat - 1) = m
  · rw [if_pos equal]
    rw [Int.toNat_natCast] at equal
    have old : ∀ p ∈ column, p.getTimeStamp ≤ m := fun p mem => equal ▸ le_timeAt_last sorted mem
    refine ⟨column.length - 1, by omega, by omega, fun p mem => old p (List.mem_of_mem_take mem),
      fun p mem after => ?_⟩
    have := old p mem
    omega
  rw [if_neg equal]
  rcases getFirstValidElement_spec sorted m with ⟨absent, old⟩ | ⟨k, first, kLt, old, young⟩
  · rw [absent]
    refine ⟨column.length, by simp, le_rfl, fun p mem => old p (List.mem_of_mem_take mem),
      fun p mem after => ?_⟩
    have := old p mem
    omega
  · rw [first]
    simp only [if_neg (show ¬ (k : Int) < 0 by omega)]
    refine ⟨k, by omega, by omega, old, fun p mem after => ?_⟩
    rw [← List.take_append_drop k column] at mem
    rcases List.mem_append.mp mem with front | rest
    · have := old p front
      omega
    · exact rest

end TRex
