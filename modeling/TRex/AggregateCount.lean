import TRex.GPUProcessor
import TRex.Lib.Ring
import TRex.Lib.Strided
import Mathlib.Data.List.Range

/-!
# Counting on the device

`reduceFirstSumFloat` counts the events of an aggregate's range: each thread takes two of them in a
turn, adds how many qualify to the counter of its block, and goes on by the size of the grid. The
flags for the two are declared before the loop and `computeVal` only ever clears them, so that an
event counts no more after one that failed (`sum_count`). And whichever parameter it is at,
`computeVal` checks the one in the first slot of the table. `countsExactly_iff` says which launches
count the right events nevertheless.
-/

namespace TRex

open Finset (range sum_congr)

/-- The arguments of `reduceFirstSumFloat<blockSize><<<gridDim, blockSize>>>`. `paramNum` holds the
slots before the first -1; the host takes the least power of two from `size` on for `n`, so that
nothing wraps. -/
structure AggregateLaunch where
  blockSize : Nat
  gridDim : Nat
  n : Nat
  size : Nat
  minId : Nat
  paramNum : List Nat
  blockSize_pos : 0 < blockSize
  gridDim_pos : 0 < gridDim
  size_le : size ≤ n
  size_le_allocSize : size ≤ allocSize
  minId_lt : minId < allocSize
  paramNum_length : paramNum.length ≤ maxParametersNum

namespace AggregateLaunch

variable (l : AggregateLaunch) (check : Nat → Nat → Bool)

/-! ## The kernel -/

def gridSize : Nat := l.blockSize * 2 * l.gridDim

/-- The place of an event of the range. -/
def id (i : Nat) : Nat := (l.minId + i) % allocSize

/-- What `computeVal` makes of its last argument. -/
def computeVal (i : Nat) (ok : Bool) : Bool :=
  if i ≥ l.size then false
  else l.paramNum.foldl (fun ok _ => ok && check (l.id i) 0) ok

/-- What a thread adds to `counter`, turn for turn. -/
def turns : Nat → Nat → Bool → Bool → List Nat
  | 0, _, _, _ => []
  | fuel + 1, i, ok1, ok2 =>
    if i < l.n then
      let ok1 := l.computeVal check i ok1
      let ok2 := l.computeVal check (i + l.blockSize) ok2
      (ok1.toNat + ok2.toNat) :: turns fuel (i + l.gridSize) ok1 ok2
    else []

/-- A thread; with each turn `i` grows, so that it has at most `n` of them. -/
def reduceFirstSumFloat (blockIdx threadIdx : Nat) : List Nat :=
  l.turns check l.n (blockIdx * (l.blockSize * 2) + threadIdx) true true

/-- The additions in the order in which they happen: those of a block's threads to its `counter`,
and those of the blocks to `res`. -/
structure Order where
  threads : Nat → List Nat
  blocks : List Nat
  threads_perm : ∀ blockIdx, (threads blockIdx).Perm
    ((List.range l.blockSize).flatMap (l.reduceFirstSumFloat check blockIdx))
  blocks_perm : blocks.Perm (List.range l.gridDim)

def Order.counter {l : AggregateLaunch} {check : Nat → Nat → Bool} (order : l.Order check)
    (blockIdx : Nat) : Nat :=
  (order.threads blockIdx).foldl (· + ·) 0

/-- `res`, which the host has set to 0. -/
def Order.res {l : AggregateLaunch} {check : Nat → Nat → Bool} (order : l.Order check) : Nat :=
  (order.blocks.map order.counter).foldl (· + ·) 0

/-- The events of the range that satisfy every parameter. -/
def qualifying : Nat := (List.range l.size).countP fun i => l.paramNum.all (check (l.id i))

def CountsExactly : Prop :=
  ∀ (check : Nat → Nat → Bool) (order : l.Order check), order.res = l.qualifying check

/-! ## What a launch counts -/

variable {l check}

theorem gridSize_pos : 0 < l.gridSize :=
  Nat.mul_pos (Nat.mul_pos l.blockSize_pos Nat.two_pos) l.gridDim_pos

variable (l check) in
/-- What `computeVal` asks of an event. -/
def passes (i : Nat) : Bool := decide (i < l.size) && (l.paramNum.isEmpty || check (l.id i) 0)

theorem foldl_and (params : List Nat) (ok once : Bool) :
    params.foldl (fun ok _ => ok && once) ok = (ok && (params.isEmpty || once)) := by
  induction params generalizing ok with
  | nil => simp
  | cons p rest ih =>
    rw [List.foldl_cons, ih]
    cases ok <;> cases once <;> simp

theorem computeVal_eq (i : Nat) (ok : Bool) :
    l.computeVal check i ok = (ok && l.passes check i) := by
  unfold computeVal passes
  split
  case isTrue outside => simp [Nat.not_lt.mpr outside]
  case isFalse inside => simp [foldl_and, Nat.lt_of_not_le inside]

theorem not_passes {i : Nat} (outside : l.n ≤ i) : l.passes check i = false := by
  have := l.size_le
  unfold passes
  rw [decide_eq_false (by omega), Bool.false_and]

theorem turns_sum (fuel i : Nat) (ok1 ok2 : Bool) :
    (l.turns check fuel i ok1 ok2).sum =
      ∑ turn ∈ range fuel, ((ok1 && Strided.kept (l.passes check) l.gridSize i turn).toNat +
        (ok2 && Strided.kept (l.passes check) l.gridSize (i + l.blockSize) turn).toNat) := by
  induction fuel generalizing i ok1 ok2 with
  | zero => rfl
  | succ fuel ih =>
    rw [Finset.sum_add_distrib, turns]
    split
    case isTrue inside =>
      rw [List.sum_cons, ih, Finset.sum_add_distrib, Strided.sum_flag, Strided.sum_flag,
        computeVal_eq, computeVal_eq, Nat.add_right_comm i]
      omega
    case isFalse outside =>
      have past := Nat.le_of_not_lt outside
      rw [Strided.sum_flag_of_not _ _ (not_passes past),
        Strided.sum_flag_of_not _ _ (not_passes (Nat.le_add_right_of_le past))]
      rfl

theorem Order.counter_eq (order : l.Order check) (blockIdx : Nat) :
    order.counter blockIdx =
      ∑ threadIdx ∈ range l.blockSize, (l.reduceFirstSumFloat check blockIdx threadIdx).sum := by
  rw [counter, ← List.sum_eq_foldl_nat, (order.threads_perm blockIdx).sum_eq, List.flatMap,
    List.sum_flatten, List.map_map, ← Strided.sum_map_range]
  rfl

/-- Whatever the order, an event counts exactly if it passes and so do all before it that its thread
takes in the same place of a turn. -/
theorem Order.res_eq (order : l.Order check) :
    order.res = ∑ i ∈ range l.size,
      (Strided.kept (l.passes check) l.gridSize (i % l.gridSize) (i / l.gridSize)).toNat := by
  have enough : l.size ≤ l.n * l.gridSize :=
    Nat.le_trans l.size_le (Nat.le_mul_of_pos_right _ gridSize_pos)
  have stop : ∀ i, l.passes check i = true → i < l.size := by
    intro i is
    exact of_decide_eq_true (Bool.and_eq_true_iff.mp is).1
  rw [res, ← List.sum_eq_foldl_nat, (order.blocks_perm.map _).sum_eq, Strided.sum_map_range,
    ← Strided.sum_flag_lanes enough stop]
  simp only [counter_eq, reduceFirstSumFloat, turns_sum, Bool.true_and]
  exact Strided.sum_lanes
    (fun lane turn => (Strided.kept (l.passes check) l.gridSize lane turn).toNat)
    l.gridDim l.blockSize l.n gridSize_pos

theorem qualifying_eq :
    l.qualifying check = ∑ i ∈ range l.size, (l.paramNum.all (check (l.id i))).toNat :=
  Strided.countP_range _ _

variable (l check) in
/-- The additions may happen in the order of the threads and blocks. -/
def inOrder : l.Order check where
  threads := fun blockIdx => (List.range l.blockSize).flatMap (l.reduceFirstSumFloat check blockIdx)
  blocks := List.range l.gridDim
  threads_perm := fun _ => .refl _
  blocks_perm := .refl _

/-! ## Which launches count right -/

variable (l check) in
/-- The events that are counted. -/
def counted (i : Nat) : Bool :=
  Strided.kept (l.passes check) l.gridSize (i % l.gridSize) (i / l.gridSize)

theorem counted_iff {i : Nat} (inside : i < l.size) :
    l.counted check i = true ↔
      ∀ j ≤ i / l.gridSize, l.paramNum = [] ∨ check (l.id (i % l.gridSize + j * l.gridSize)) 0 := by
  have before : ∀ j ≤ i / l.gridSize, i % l.gridSize + j * l.gridSize < l.size := by
    intro j le
    have := Nat.mul_le_mul_right l.gridSize le
    have := Nat.mod_add_div' i l.gridSize
    omega
  rw [counted, Strided.kept_iff]
  refine forall₂_congr fun j le => ?_
  simp [passes, before j le]

theorem countsExactly_iff_counted :
    l.CountsExactly ↔ ∀ check : Nat → Nat → Bool,
      ∑ i ∈ range l.size, (l.counted check i).toNat =
        ∑ i ∈ range l.size, (l.paramNum.all (check (l.id i))).toNat := by
  constructor
  · intro exact' check
    have := exact' check (l.inOrder check)
    rwa [Order.res_eq, qualifying_eq] at this
  · intro same check order
    rw [Order.res_eq, qualifying_eq]
    exact same check

theorem slots_zero (exact' : l.CountsExactly) (nonempty : l.size ≠ 0) :
    ∀ p ∈ l.paramNum, p = 0 := by
  let check : Nat → Nat → Bool := fun _ p => decide (p = 0)
  have all : ∀ i < l.size, l.counted check i = true := fun i inside =>
    (counted_iff inside).mpr fun j _ => .inr (decide_eq_true rfl)
  have same := (Strided.sum_toNat_eq_iff fun i inside _ => all i inside).mp
    (countsExactly_iff_counted.mp exact' check).symm
  have first := same 0 (Nat.pos_of_ne_zero nonempty)
  rw [all 0 (Nat.pos_of_ne_zero nonempty), List.all_eq_true] at first
  exact fun p mem => of_decide_eq_true (first p mem)

theorem id_injective {i j : Nat} (insideI : i < l.size) (insideJ : j < l.size)
    (same : l.id i = l.id j) : i = j :=
  Ring.pos_injective l.minId_lt (Nat.lt_of_lt_of_le insideI l.size_le_allocSize)
    (Nat.lt_of_lt_of_le insideJ l.size_le_allocSize) same

/-- Where a thread takes a third event, that does not count if the first failed. -/
theorem size_le_gridSize (exact' : l.CountsExactly) (some' : l.paramNum ≠ []) :
    l.size ≤ l.gridSize := by
  by_contra more
  have third : l.gridSize < l.size := Nat.lt_of_not_le more
  have first : 0 < l.size := Nat.zero_lt_of_lt third
  let check : Nat → Nat → Bool := fun e _ => decide (e ≠ l.id 0)
  have le : ∀ i < l.size, l.counted check i = true → l.paramNum.all (check (l.id i)) = true := by
    intro i inside is
    have here := ((counted_iff inside).mp is (i / l.gridSize) (Nat.le_refl _)).resolve_left some'
    rw [Nat.mod_add_div'] at here
    exact List.all_eq_true.mpr fun _ _ => here
  have same := (Strided.sum_toNat_eq_iff le).mp (countsExactly_iff_counted.mp exact' check)
  have qualifies : l.paramNum.all (check (l.id l.gridSize)) = true := by
    refine List.all_eq_true.mpr fun _ _ => decide_eq_true fun again => ?_
    exact Nat.ne_of_gt gridSize_pos (id_injective third first again)
  have counts := (counted_iff third).mp ((same _ third).trans qualifies) 0 (Nat.zero_le _)
  rw [Nat.mod_self, Nat.zero_mul] at counts
  exact of_decide_eq_true (counts.resolve_left some') rfl

/-- With two events for a thread at most, there is none before an event that could clear its
flag. -/
theorem counted_eq {i : Nat} (inside : i < l.size) (zero : ∀ p ∈ l.paramNum, p = 0)
    (few : l.size ≤ l.gridSize) : l.counted check i = l.paramNum.all (check (l.id i)) := by
  have alone : i / l.gridSize = 0 := Nat.div_eq_of_lt (by omega)
  have own : i % l.gridSize = i := Nat.mod_eq_of_lt (by omega)
  rw [Bool.eq_iff_iff, counted_iff inside, List.all_eq_true, alone, own]
  constructor
  · intro first p mem
    have here := first 0 (Nat.le_refl _)
    rw [Nat.zero_mul] at here
    rw [zero p mem]
    exact here.resolve_left (List.ne_nil_of_mem mem)
  · intro all j le
    rw [Nat.le_zero.mp le, Nat.zero_mul]
    by_cases noParams : l.paramNum = []
    · exact .inl noParams
    · obtain ⟨p, mem⟩ := List.exists_mem_of_ne_nil _ noParams
      have here := all p mem
      rw [zero p mem] at here
      exact .inr here

/-- Launches count the qualifying events, whatever the parameters ask for, exactly if there are no
parameters or no events, or all parameters are the first of the table and no thread takes more than
two events. -/
theorem countsExactly_iff (l : AggregateLaunch) :
    l.CountsExactly ↔
      l.paramNum = [] ∨ l.size = 0 ∨ (∀ p ∈ l.paramNum, p = 0) ∧ l.size ≤ l.gridSize := by
  constructor
  · intro exact'
    by_cases noParams : l.paramNum = []
    · exact .inl noParams
    by_cases noEvents : l.size = 0
    · exact .inr (.inl noEvents)
    exact .inr (.inr ⟨slots_zero exact' noEvents, size_le_gridSize exact' noParams⟩)
  · intro simple
    refine countsExactly_iff_counted.mpr fun check => sum_congr rfl fun i mem => ?_
    have inside := Finset.mem_range.mp mem
    rcases simple with noParams | noEvents | ⟨zero, few⟩
    · rw [(counted_iff inside).mpr fun _ _ => .inl noParams, noParams]
      rfl
    · omega
    · rw [counted_eq inside zero few]

/-- An aggregate with two parameters over a range of one event. -/
def twoParameters : AggregateLaunch where
  blockSize := 1
  gridDim := 1
  n := 1
  size := 1
  minId := 0
  paramNum := [0, 1]
  blockSize_pos := by decide
  gridDim_pos := by decide
  size_le := by decide
  size_le_allocSize := by decide
  minId_lt := by decide
  paramNum_length := by decide

theorem twoParameters_not_countsExactly : ¬ twoParameters.CountsExactly := by
  intro exact'
  have := exact' (fun _ p => decide (p = 0)) (twoParameters.inOrder _)
  revert this
  decide

end AggregateLaunch

end TRex
