import TRex.AggregateCount
import TRex.AggregateValues
import TRex.CudaKernels
import TRex.SingleSelection
import TRex.Lib.Reduction

/-!
# Reductions on the device

The reduction that `CudaKernels::computeAggregates` launches: `reduceFirstSumFloat` or
`reduceFirstMax` reads two events in each thread and leaves one result for each block,
`reduceSumFloat` or `reduceMax` reduces those if there are more than `MIN_GPU_REDUCTION`, and the
host does the rest. Which events count and how many they are is decided as in `AggregateCount`.

A run ends in `none` where an array is left: the results of the blocks have `MAX_GEN` cells and the
host's copy has `MIN_GPU_REDUCTION`, which a `COUNT` does not respect, as it leaves the loop before
the second launch.
-/

namespace TRex

open Reduction (total)

/-! ## Numbers of the device -/

/-- What the kernels and `computeAggregates` need of the type they compute with. -/
structure DeviceNumbers (α : Type) where
  ofInt : Int → α
  ofFloat : CFloat → α
  add : α → α → α
  mul : α → α → α
  div : α → α → α
  lt : α → α → Bool
  fmax : α → α → α
  fmin : α → α → α

/-- An operand that is no number is left out. -/
def CFloat.pick (first : CFloat → CFloat → Bool) (f g : CFloat) : CFloat :=
  if !CFloat.eq f f then g else if !CFloat.eq g g then f else if first f g then f else g

/-- `float`. -/
def deviceFloats : DeviceNumbers CFloat :=
  { ofInt := CFloat.ofInt, ofFloat := id, add := CFloat.add, mul := CFloat.mul, div := CFloat.div
    lt := CFloat.lt
    fmax := CFloat.pick fun f g => CFloat.lt g f
    fmin := CFloat.pick CFloat.lt }

/-- Numbers without rounding. Each float attribute stands for some rational. -/
def exactDeviceNumbers (rational : CFloat → ℚ) : DeviceNumbers ℚ :=
  { ofInt := fun v => v, ofFloat := rational, add := (· + ·), mul := (· * ·), div := (· / ·)
    lt := fun x y => decide (x < y), fmax := max, fmin := min }

def minGpuReduction : Nat := 8
def maxBlocks : Nat := 256

namespace DeviceNumbers

variable {α : Type} (N : DeviceNumbers α)

def ofBool (ok : Bool) : α := N.ofInt ok.toNat

def ofAttribute (a : Attribute) : α :=
  if a.type = .float then N.ofFloat a.value.floatVal else N.ofInt a.value.intVal

/-- The part of `reduceFirstSumFloat` that adds up the two values of a turn. -/
def pairSum (at1 at2 : Attribute) (ok1 ok2 : Bool) : α :=
  let val :=
    if at1.type = .float then N.mul (N.ofFloat at1.value.floatVal) (N.ofBool ok1)
    else N.add (N.ofInt 0) (N.mul (N.ofInt at1.value.intVal) (N.ofBool ok1))
  N.add val (N.mul (N.ofAttribute at2) (N.ofBool ok2))

/-- `SMALL_NUM` or `BIG_NUM`, which stands for an event that does not count. -/
def other (isMax : Bool) : α := N.ofInt (if isMax then -bigNum else bigNum)

def orOther (isMax : Bool) (val : α) (ok : Bool) : α :=
  N.add (N.mul val (N.ofBool ok)) (N.mul (N.other isMax) (N.ofBool !ok))

def extreme (isMax : Bool) : α → α → α := if isMax then N.fmax else N.fmin

/-- What a stage of a reduction does, and the host with the results. -/
def combine : AggregateFun → α → α → α
  | .max => N.extreme true
  | .min => N.extreme false
  | _ => N.add

end DeviceNumbers

/-! ## The kernels -/

/-- What the program leaves open: the order of the additions to the counters and, for each launch,
that of the blocks and of the threads between barriers, and what is in memory before. -/
structure Undetermined (α : Type) (check : Nat → Nat → Bool) where
  order : (l : AggregateLaunch) → l.Order check
  blocks : Nat → Nat → List Nat
  blocks_perm : ∀ launch gridDim, (blocks launch gridDim).Perm (List.range gridDim)
  threads : Nat → Nat → Nat → List Nat
  threads_perm : ∀ launch blockIdx stride,
    (threads launch blockIdx stride).Perm (List.range stride)
  sdata : Nat → Nat → Nat → α
  g_odata : Nat → α
  unwritten : Nat → Attribute

section Kernels

variable {α : Type} (N : DeviceNumbers α) (check : Nat → Nat → Bool) (u : Undetermined α check)
  (fun_ : AggregateFun)

/-- The stages of a block, with barriers down to the last warp, whose threads run in lockstep. -/
def reduceBlock (launch blockIdx blockSize : Nat) (sdata : Nat → α) : α :=
  let stage := fun stride sdata =>
    if stride ≥ 64 then
      (u.threads launch blockIdx stride).foldl (Reduction.takeIn (N.combine fun_) stride) sdata
    else Reduction.lockstep (N.combine fun_) (min 32 blockSize) stride sdata
  Reduction.run stage blockSize [256, 128, 64, 32, 16, 8, 4, 2, 1] sdata 0

/-- A launch: each block writes its result. -/
def launchBlocks (launch gridDim : Nat) (block : (Nat → α) → Nat → α) (g : Nat → α) : Nat → α :=
  (u.blocks launch gridDim).foldl
    (fun g blockIdx => Function.update g blockIdx (block g blockIdx)) g

section First

variable (l : AggregateLaunch) (attr : Nat → Attribute)

/-- The attribute that `computeVal` returns; without an event only its type is written. -/
def AggregateLaunch.val (unwritten : Nat → Attribute) (i : Nat) : Attribute :=
  if i ≥ l.size then { unwritten i with value := .int (unwritten i).value.intVal }
  else attr (l.id i)

/-- The loop of a thread. A maximum is that of the last turn. -/
def AggregateLaunch.firstLevel : Nat → Nat → Bool → Bool → α → α
  | 0, _, _, _, sdata => sdata
  | fuel + 1, i, ok1, ok2, sdata =>
    if i < l.n then
      let ok1 := l.computeVal check i ok1
      let ok2 := l.computeVal check (i + l.blockSize) ok2
      let at1 := l.val attr u.unwritten i
      let at2 := l.val attr u.unwritten (i + l.blockSize)
      let sdata := match fun_ with
        | .max => N.fmax (N.orOther true (N.ofAttribute at1) ok1)
            (N.orOther true (N.ofAttribute at2) ok2)
        | .min => N.fmin (N.orOther false (N.ofAttribute at1) ok1)
            (N.orOther false (N.ofAttribute at2) ok2)
        | _ => N.add sdata (N.pairSum at1 at2 ok1 ok2)
      AggregateLaunch.firstLevel fuel (i + l.gridSize) ok1 ok2 sdata
    else sdata

/-- `reduceFirstSumFloat` and `reduceFirstMax`; for a `COUNT` the stages are left out. -/
def AggregateLaunch.reduceFirst (blockIdx : Nat) : α :=
  let sdata := fun tid =>
    if tid < l.blockSize then
      l.firstLevel N check u fun_ attr l.n (blockIdx * (l.blockSize * 2) + tid) true true
        (N.ofInt 0)
    else u.sdata 0 blockIdx tid
  if fun_ = .count then sdata 0 else reduceBlock N check u fun_ 0 blockIdx l.blockSize sdata

end First

/-- One turn of a thread in a later launch. -/
def DeviceNumbers.takeTwo (sdata val1 val2 : α) : α :=
  match fun_ with
  | .max => N.fmax val1 val2
  | .min => N.fmin val1 val2
  | _ => N.add sdata (N.add val1 val2)

def nextLevel (g : Nat → α) (n blockSize gridSize : Nat) : Nat → Nat → α → α
  | 0, _, sdata => sdata
  | fuel + 1, i, sdata =>
    if i < n then
      nextLevel g n blockSize gridSize fuel (i + gridSize)
        (N.takeTwo fun_ sdata (g i) (g (i + blockSize)))
    else sdata

/-- `reduceSumFloat` and `reduceMax`. -/
def reduceNext (launch n blockSize gridDim : Nat) (g : Nat → α) (blockIdx : Nat) : α :=
  let sdata := fun tid =>
    if tid < blockSize then
      nextLevel N fun_ g n blockSize (blockSize * 2 * gridDim) n (blockIdx * (blockSize * 2) + tid)
        (N.ofInt 0)
    else u.sdata launch blockIdx tid
  reduceBlock N check u fun_ launch blockIdx blockSize sdata

/-! ## The host -/

/-- `n` is doubled while it is less than the size. -/
def doubled (size : Nat) : Nat → Nat → Nat
  | 0, n => n
  | fuel + 1, n => if n < size then doubled size fuel (n * 2) else n

def threadsFor (n : Nat) : Nat :=
  if n = 1 then 1 else if n < gpuThreads * 2 then n / 2 else gpuThreads

def blocksFor (n : Nat) : Nat :=
  let blocks := n / (threadsFor n * 2)
  min maxBlocks (if blocks = 0 then 1 else blocks)

/-- The rounds behind the first one, with the results in `g` and their number; each needs fewer. -/
def nextRounds : Nat → Nat → (Nat → α) → Nat → (Nat → α) × Nat
  | 0, _, g, n => (g, n)
  | fuel + 1, launch, g, n =>
    if n > minGpuReduction then
      if fun_ = .count then (g, n)
      else
        let blocks := blocksFor n
        nextRounds fuel (launch + 1)
          (launchBlocks check u launch blocks
            (reduceNext N check u fun_ launch n (threadsFor n) blocks) g) blocks
    else (g, n)

/-- What the host makes of the results that it has copied. -/
def finish (aggRes : Nat → α) (n aggResultsSize : Nat) : α :=
  let aggResult := (List.range n).foldl (fun aggResult r => match fun_ with
      | .sum | .avg => N.add aggResult (aggRes r)
      | .max => if N.lt aggResult (aggRes r) then aggRes r else aggResult
      | .min => if N.lt (aggRes r) aggResult then aggRes r else aggResult
      | _ => aggResult)
    (if fun_ = .min ∨ fun_ = .max then aggRes 0 else N.ofInt 0)
  match fun_ with
  | .avg => if aggResultsSize > 0 then N.div aggResult (N.ofInt aggResultsSize) else N.ofInt 0
  | .count => N.ofInt aggResultsSize
  | _ => aggResult

/-- All launches for a range, and what the host makes of them. With no function there is no launch,
and the loop, which waits for the first one, goes on for ever. -/
def AggregateLaunch.compute (l : AggregateLaunch) (attr : Nat → Attribute) : Option α :=
  if fun_ = .none then none
  else if l.gridDim > maxGen then none
  else
    let g := launchBlocks check u 0 l.gridDim (fun _ => l.reduceFirst N check u fun_ attr) u.g_odata
    let results := nextRounds N check u fun_ l.gridDim 1 g l.gridDim
    if results.2 > minGpuReduction then none
    else some (finish N fun_ results.1 results.2 (u.order l).res)

end Kernels

/-! ### The sizes of a launch -/

theorem doubled_eq (size fuel j : Nat) (enough : size ≤ 2 ^ j + fuel)
    (needed : j = 0 ∨ 2 ^ (j - 1) < size) :
    ∃ k, doubled size fuel (2 ^ j) = 2 ^ k ∧ size ≤ 2 ^ k ∧ (k = 0 ∨ 2 ^ (k - 1) < size) := by
  induction fuel generalizing j with
  | zero => exact ⟨j, rfl, enough, needed⟩
  | succ fuel ih =>
    rw [doubled]
    split
    case isTrue less =>
      rw [← Nat.pow_succ]
      refine ih (j + 1) ?_ (.inr less)
      have grows := Nat.two_pow_pos j
      rw [Nat.pow_succ]
      omega
    case isFalse reached => exact ⟨j, rfl, Nat.le_of_not_lt reached, needed⟩

theorem sizes :
    ∀ k ≤ 16, threadsFor (2 ^ k) = 2 ^ min (k - 1) 8 ∧ blocksFor (2 ^ k) = 2 ^ (k - 9) := by
  decide

theorem exponent_le_iff {size k j : Nat} (reached : size ≤ 2 ^ k)
    (needed : k = 0 ∨ 2 ^ (k - 1) < size) : k ≤ j ↔ size ≤ 2 ^ j := by
  constructor
  · intro le
    exact Nat.le_trans reached (Nat.pow_le_pow_right Nat.two_pos le)
  · intro fits
    rcases needed with rfl | less
    · exact Nat.zero_le j
    · have below := Nat.lt_of_lt_of_le less fits
      have := (Nat.pow_lt_pow_iff_right (Nat.lt_succ_self 1)).mp below
      omega

/-- The exponent of `n`. -/
theorem exists_exponent {size : Nat} (few : size ≤ allocSize) :
    ∃ k ≤ 16, doubled size size 1 = 2 ^ k ∧ size ≤ 2 ^ k ∧ (k = 0 ∨ 2 ^ (k - 1) < size) := by
  obtain ⟨k, eq, le, needed⟩ := doubled_eq size size 0 (Nat.le_add_left _ _) (.inl rfl)
  refine ⟨k, ?_, eq, le, needed⟩
  rcases needed with rfl | less
  · exact Nat.zero_le _
  · have below : 2 ^ (k - 1) < 2 ^ 16 := Nat.lt_of_lt_of_le less few
    have := (Nat.pow_lt_pow_iff_right (Nat.lt_succ_self 1)).mp below
    omega

/-- The first launch for a range. -/
def AggregateLaunch.ofRange (minId size : Nat) (paramNum : List Nat) (few : size ≤ allocSize)
    (minId_lt : minId < allocSize) (paramNum_length : paramNum.length ≤ maxParametersNum) :
    AggregateLaunch where
  blockSize := threadsFor (doubled size size 1)
  gridDim := blocksFor (doubled size size 1)
  n := doubled size size 1
  size := size
  minId := minId
  paramNum := paramNum
  blockSize_pos := by
    obtain ⟨k, le, eq, -⟩ := exists_exponent few
    rw [eq, (sizes k le).1]
    exact Nat.two_pow_pos _
  gridDim_pos := by
    obtain ⟨k, le, eq, -⟩ := exists_exponent few
    rw [eq, (sizes k le).2]
    exact Nat.two_pow_pos _
  size_le := by
    obtain ⟨k, -, eq, reached, -⟩ := exists_exponent few
    rw [eq]
    exact reached
  size_le_allocSize := few
  minId_lt := minId_lt
  paramNum_length := paramNum_length

/-! ## What the kernels compute -/

/-- Laws that exact numbers have and floats do not. -/
structure DeviceNumbers.Lawful {α : Type} (N : DeviceNumbers α) : Prop where
  assoc : ∀ fun_, Std.Associative (N.combine fun_)
  comm : ∀ fun_, Std.Commutative (N.combine fun_)
  zero_add : ∀ x, N.add (N.ofInt 0) x = x

section Reductions

variable {α : Type} {N : DeviceNumbers α} {check : Nat → Nat → Bool} {u : Undetermined α check}
  {fun_ : AggregateFun}

theorem reduceBlock_eq (lawful : N.Lawful) {launch blockIdx blockSize k : Nat}
    (size : blockSize = 2 ^ k) (le : k ≤ 9) (sdata : Nat → α) :
    reduceBlock N check u fun_ launch blockIdx blockSize sdata =
      total (N.combine fun_) sdata blockSize := by
  have := lawful.assoc fun_
  have := lawful.comm fun_
  refine Reduction.run_halves _ size le fun i cells fits => ?_
  split
  case isTrue => exact Reduction.halves_takeIn (u.threads_perm launch blockIdx (2 ^ i))
  case isFalse small =>
    have few : i < 6 := (Nat.pow_lt_pow_iff_right (Nat.lt_succ_self 1)).mp (Nat.lt_of_not_le small)
    have warp : 2 ^ i ≤ 2 ^ 5 := Nat.pow_le_pow_right Nat.two_pos (by omega)
    exact Reduction.halves_lockstep (by omega)

/-- A block that reads no results. -/
theorem launchBlocks_apply {launch gridDim : Nat} (block : Nat → α) (g : Nat → α) {i : Nat}
    (inside : i < gridDim) :
    launchBlocks check u launch gridDim (fun _ => block) g i = block i := by
  have writes : ∀ (order : List Nat) (g : Nat → α), i ∈ order ∨ g i = block i →
      order.foldl (fun g blockIdx => Function.update g blockIdx (block blockIdx)) g i =
        block i := by
    intro order
    induction order with
    | nil =>
      intro g written
      exact written.resolve_left List.not_mem_nil
    | cons b rest ih =>
      intro g written
      refine ih _ ?_
      by_cases own : i = b
      · subst own
        exact .inr (Function.update_self _ _ _)
      · refine written.imp (fun mem => (List.mem_cons.mp mem).resolve_left own) fun kept => ?_
        exact (Function.update_of_ne own _ _).trans kept
  refine writes _ g (.inl ?_)
  exact (u.blocks_perm launch gridDim).mem_iff.mpr (List.mem_range.mpr inside)

/-! ### The first launch -/

section First

variable (N u fun_) (l : AggregateLaunch) (attr : Nat → Attribute)

/-- What an event stands for in the reduction. -/
def AggregateLaunch.cell (i : Nat) : α :=
  let val := N.ofAttribute (l.val attr u.unwritten i)
  match fun_ with
  | .max => N.orOther true val (l.passes check i)
  | .min => N.orOther false val (l.passes check i)
  | _ => N.mul val (N.ofBool (l.passes check i))

variable {N u fun_ l attr}

/-- A thread that has one turn combines two events. -/
theorem AggregateLaunch.firstLevel_eq (lawful : N.Lawful) {i : Nat} (inside : i < l.n)
    (once : l.n ≤ i + l.gridSize) :
    l.firstLevel N check u fun_ attr l.n i true true (N.ofInt 0) =
      N.combine fun_ (l.cell N u fun_ attr i) (l.cell N u fun_ attr (i + l.blockSize)) := by
  have done : ∀ fuel ok1 ok2 sdata,
      l.firstLevel N check u fun_ attr fuel (i + l.gridSize) ok1 ok2 sdata = sdata := by
    intro fuel ok1 ok2 sdata
    cases fuel with
    | zero => rfl
    | succ fuel => exact if_neg (by omega)
  obtain ⟨fuel, isSucc⟩ := Nat.exists_eq_succ_of_ne_zero (Nat.ne_of_gt (Nat.zero_lt_of_lt inside))
  have turn : l.firstLevel N check u fun_ attr l.n =
      l.firstLevel N check u fun_ attr (fuel + 1) := by
    rw [isSucc]
  rw [turn, firstLevel, if_pos inside]
  dsimp only
  rw [done, computeVal_eq, computeVal_eq, Bool.true_and, Bool.true_and]
  have sum : ∀ at1 at2 ok1 ok2, N.add (N.ofInt 0) (N.pairSum at1 at2 ok1 ok2) =
      N.add (N.mul (N.ofAttribute at1) (N.ofBool ok1))
        (N.mul (N.ofAttribute at2) (N.ofBool ok2)) := by
    intro at1 at2 ok1 ok2
    rw [lawful.zero_add]
    unfold DeviceNumbers.pairSum DeviceNumbers.ofAttribute
    split
    · rfl
    · rw [lawful.zero_add]
  cases fun_ with
  | max | min => rfl
  | none | avg | count | sum => exact sum _ _ _ _

/-- The threads of a launch have one turn each. -/
structure AggregateLaunch.Regular (l : AggregateLaunch) : Prop where
  blockSize : ∃ k ≤ 8, l.blockSize = 2 ^ k
  turns : l.n = l.gridSize ∨ l.n = 1 ∧ l.gridSize = 2

theorem AggregateLaunch.Regular.block_lt (regular : l.Regular) {blockIdx tid : Nat}
    (inside : blockIdx < l.gridDim) (below : tid < l.blockSize) :
    blockIdx * (l.blockSize * 2) + tid < l.n := by
  have row : (blockIdx + 1) * (l.blockSize * 2) ≤ l.gridDim * (l.blockSize * 2) :=
    Nat.mul_le_mul_right _ inside
  have grid : l.gridSize = l.gridDim * (l.blockSize * 2) := Nat.mul_comm _ _
  rw [Nat.succ_mul] at row
  rcases regular.turns with full | ⟨one, two⟩
  · omega
  · have first : blockIdx * (l.blockSize * 2) = 0 := by
      rcases Nat.eq_zero_or_pos blockIdx with zero | pos
      · rw [zero, Nat.zero_mul]
      · have := Nat.mul_le_mul_right (l.blockSize * 2) pos
        omega
    omega

theorem AggregateLaunch.reduceFirst_eq (lawful : N.Lawful) (regular : l.Regular)
    (reduced : fun_ ≠ .count) {blockIdx : Nat} (inside : blockIdx < l.gridDim) :
    l.reduceFirst N check u fun_ attr blockIdx = total (N.combine fun_)
      (fun i => l.cell N u fun_ attr (blockIdx * (l.blockSize * 2) + i)) (l.blockSize * 2) := by
  have := lawful.assoc fun_
  have := lawful.comm fun_
  obtain ⟨k, le, size⟩ := regular.blockSize
  have few : l.n ≤ l.gridSize := by
    rcases regular.turns with full | ⟨one, two⟩ <;> omega
  unfold AggregateLaunch.reduceFirst
  rw [if_neg reduced, reduceBlock_eq lawful size (by omega), Nat.mul_comm l.blockSize 2]
  refine Reduction.Halves.total (fun tid below => ?_) l.blockSize_pos
  have lt := regular.block_lt inside below
  rw [if_pos below, Nat.mul_comm 2, firstLevel_eq lawful lt (by omega), Nat.add_assoc]

/-- The results of the first launch are together what all events are. -/
theorem AggregateLaunch.total_first (lawful : N.Lawful) (regular : l.Regular)
    (reduced : fun_ ≠ .count) (g : Nat → α) :
    total (N.combine fun_)
        (launchBlocks check u 0 l.gridDim (fun _ => l.reduceFirst N check u fun_ attr) g)
        l.gridDim =
      total (N.combine fun_) (l.cell N u fun_ attr) l.gridSize := by
  have := lawful.assoc fun_
  have grid : l.gridSize = l.gridDim * (l.blockSize * 2) := Nat.mul_comm _ _
  have some' : 0 < l.blockSize * 2 := Nat.mul_pos l.blockSize_pos Nat.two_pos
  rw [grid, ← Reduction.total_rows some' l.gridDim_pos]
  refine Reduction.total_congr (fun blockIdx inside => ?_) l.gridDim_pos
  rw [launchBlocks_apply _ _ inside, reduceFirst_eq lawful regular reduced inside]

end First

/-! ### Later launches -/

theorem nextLevel_eq (lawful : N.Lawful) {g : Nat → α} {n blockSize gridSize i : Nat}
    (inside : i < n) (once : n ≤ i + gridSize) :
    nextLevel N fun_ g n blockSize gridSize n i (N.ofInt 0) =
      N.combine fun_ (g i) (g (i + blockSize)) := by
  have done : ∀ fuel sdata,
      nextLevel N fun_ g n blockSize gridSize fuel (i + gridSize) sdata = sdata := by
    intro fuel sdata
    cases fuel with
    | zero => rfl
    | succ fuel => exact if_neg (by omega)
  obtain ⟨fuel, isSucc⟩ := Nat.exists_eq_succ_of_ne_zero (Nat.ne_of_gt (Nat.zero_lt_of_lt inside))
  have turn : nextLevel N fun_ g n blockSize gridSize n i (N.ofInt 0) =
      nextLevel N fun_ g n blockSize gridSize (fuel + 1) i (N.ofInt 0) := by
    rw [← Nat.succ_eq_add_one, ← isSucc]
  rw [turn, nextLevel, if_pos inside, done]
  cases fun_ with
  | max | min => rfl
  | none | avg | count | sum => exact lawful.zero_add _

/-- One block reduces the results of up to 512 blocks. -/
theorem launchBlocks_next (lawful : N.Lawful) {launch k : Nat} (pos : 0 < k) (le : k ≤ 9)
    (g : Nat → α) :
    launchBlocks check u launch 1 (reduceNext N check u fun_ launch (2 ^ k) (2 ^ (k - 1)) 1) g 0 =
      total (N.combine fun_) g (2 ^ k) := by
  have := lawful.assoc fun_
  have := lawful.comm fun_
  have one : u.blocks launch 1 = [0] := List.perm_singleton.mp (u.blocks_perm launch 1)
  obtain ⟨j, rfl⟩ := Nat.exists_eq_succ_of_ne_zero (Nat.ne_of_gt pos)
  rw [Nat.succ_sub_one, launchBlocks, one, List.foldl_cons, List.foldl_nil, Function.update_self,
    reduceNext, reduceBlock_eq lawful rfl (by omega), Nat.pow_succ']
  refine Reduction.Halves.total (fun tid below => ?_) (Nat.two_pow_pos j)
  rw [if_pos below, Nat.zero_mul, Nat.zero_add, Nat.mul_one,
    nextLevel_eq lawful (by omega) (by omega)]

theorem nextRounds_few (fuel launch : Nat) (g : Nat → α) {n : Nat} (few : ¬ n > minGpuReduction) :
    nextRounds N check u fun_ fuel launch g n = (g, n) := by
  cases fuel with
  | zero => rfl
  | succ fuel => exact if_neg few

/-- The later rounds leave as many results as the host has room for, unless they are not made. -/
theorem nextRounds_eq (lawful : N.Lawful) {k : Nat} (le : k ≤ 9) (g : Nat → α) :
    let results := nextRounds N check u fun_ (2 ^ k) 1 g (2 ^ k)
    0 < results.2 ∧ (results.2 > minGpuReduction ↔ fun_ = .count ∧ 3 < k) ∧
      (fun_ ≠ .count → total (N.combine fun_) results.1 results.2 =
        total (N.combine fun_) g (2 ^ k)) := by
  have many : 2 ^ k > minGpuReduction ↔ 3 < k :=
    Nat.pow_lt_pow_iff_right (a := 2) (n := 3) (Nat.lt_succ_self 1)
  by_cases more : 3 < k
  · obtain ⟨fuel, isSucc⟩ := Nat.exists_eq_succ_of_ne_zero (Nat.ne_of_gt (Nat.two_pow_pos k))
    have round : nextRounds N check u fun_ (2 ^ k) 1 g (2 ^ k) =
        nextRounds N check u fun_ (fuel + 1) 1 g (2 ^ k) := by
      rw [← Nat.succ_eq_add_one, ← isSucc]
    dsimp only
    rw [round, nextRounds, if_pos (many.mpr more)]
    by_cases counts : fun_ = .count
    · rw [if_pos counts]
      exact ⟨Nat.two_pow_pos k, by simp [many, more, counts], fun other => absurd counts other⟩
    · obtain ⟨threads, blocks⟩ := sizes k (by omega)
      have one : blocksFor (2 ^ k) = 1 := by
        rw [blocks, Nat.sub_eq_zero_of_le le, Nat.pow_zero]
      have half : threadsFor (2 ^ k) = 2 ^ (k - 1) := by
        rw [threads, Nat.min_eq_left (by omega)]
      rw [if_neg counts]
      dsimp only
      rw [one, half, nextRounds_few _ _ _ (by simp [minGpuReduction])]
      refine ⟨Nat.one_pos, by simp [minGpuReduction, counts], fun _ => ?_⟩
      exact launchBlocks_next lawful (by omega) le g
  · rw [nextRounds_few _ _ _ (mt many.mp more)]
    exact ⟨Nat.two_pow_pos k, by simp [many, more], fun _ => rfl⟩

/-! ### All launches -/

theorem AggregateLaunch.ofRange_regular {minId size : Nat} {paramNum : List Nat}
    (few : size ≤ allocSize) (minId_lt : minId < allocSize)
    (paramNum_length : paramNum.length ≤ maxParametersNum) :
    (AggregateLaunch.ofRange minId size paramNum few minId_lt paramNum_length).Regular ∧
      ∃ k ≤ 7, (AggregateLaunch.ofRange minId size paramNum few minId_lt paramNum_length).gridDim =
          2 ^ k ∧ (k ≤ 6 ↔ size ≤ 32768) ∧ (3 < k ↔ 4096 < size) := by
  obtain ⟨k, le, eq, reached, needed⟩ := exists_exponent few
  obtain ⟨threads, blocks⟩ := sizes k le
  have blockSize : threadsFor (doubled size size 1) = 2 ^ min (k - 1) 8 := by rw [eq, threads]
  have gridDim : blocksFor (doubled size size 1) = 2 ^ (k - 9) := by rw [eq, blocks]
  refine ⟨⟨⟨_, Nat.min_le_right _ _, blockSize⟩, ?_⟩, k - 9, by omega, gridDim, ?_, ?_⟩
  · show doubled size size 1 =
        threadsFor (doubled size size 1) * 2 * blocksFor (doubled size size 1) ∨
      doubled size size 1 = 1 ∧
        threadsFor (doubled size size 1) * 2 * blocksFor (doubled size size 1) = 2
    rw [blockSize, gridDim, eq, ← Nat.pow_succ, ← Nat.pow_add]
    rcases Nat.eq_zero_or_pos k with rfl | pos
    · exact .inr ⟨rfl, rfl⟩
    · refine .inl (congrArg (2 ^ ·) ?_)
      omega
  · have fits := exponent_le_iff reached needed (j := 15)
    omega
  · have fits := exponent_le_iff reached needed (j := 12)
    omega

/-- The launches stay in their arrays exactly if the range is small enough; they leave the host
results that are together what all events are. -/
theorem AggregateLaunch.compute_ofRange (lawful : N.Lawful) {minId size : Nat} {paramNum : List Nat}
    (few : size ≤ allocSize) (minId_lt : minId < allocSize)
    (paramNum_length : paramNum.length ≤ maxParametersNum) (attr : Nat → Attribute) :
    let l := AggregateLaunch.ofRange minId size paramNum few minId_lt paramNum_length
    ((l.compute N check u fun_ attr).isSome ↔
      fun_ ≠ .none ∧ size ≤ 32768 ∧ (fun_ = .count → size ≤ 4096)) ∧
    ∀ r, l.compute N check u fun_ attr = some r → ∃ g n, 0 < n ∧
      r = finish N fun_ g n (u.order l).res ∧
      (fun_ ≠ .count → total (N.combine fun_) g n =
        total (N.combine fun_) (l.cell N u fun_ attr) l.gridSize) := by
  intro l
  obtain ⟨regular, k, le, gridDim, small, larger⟩ :=
    ofRange_regular few minId_lt paramNum_length
  have gridDim : l.gridDim = 2 ^ k := gridDim
  have first : fun_ ≠ .count → total (N.combine fun_)
      (launchBlocks check u 0 l.gridDim (fun _ => l.reduceFirst N check u fun_ attr) u.g_odata)
      l.gridDim = total (N.combine fun_) (l.cell N u fun_ attr) l.gridSize := fun reduced =>
    AggregateLaunch.total_first lawful regular reduced u.g_odata
  have rounds := @nextRounds_eq _ N check u fun_ lawful k (by omega)
    (launchBlocks check u 0 l.gridDim (fun _ => l.reduceFirst N check u fun_ attr) u.g_odata)
  have fits : l.gridDim > maxGen ↔ ¬ size ≤ 32768 := by
    rw [gridDim, ← small]
    constructor
    · intro beyond within
      have := Nat.pow_le_pow_right Nat.two_pos within
      simp only [maxGen] at beyond
      omega
    · intro beyond
      have is : k = 7 := by omega
      rw [is]
      decide
  unfold AggregateLaunch.compute
  rw [gridDim] at rounds first fits ⊢
  dsimp only at rounds ⊢
  generalize nextRounds N check u fun_ (2 ^ k) 1 _ (2 ^ k) = results at rounds ⊢
  obtain ⟨pos, many', same⟩ := rounds
  by_cases nothing : fun_ = .none
  · rw [if_pos nothing]
    exact ⟨by simp [nothing], fun r is => by cases is⟩
  rw [if_neg nothing]
  by_cases outside : 2 ^ k > maxGen
  · rw [if_pos outside]
    exact ⟨by simp [fits.mp outside], fun r is => by cases is⟩
  rw [if_neg outside]
  have within := not_not.mp (mt fits.mpr outside)
  by_cases tooMany : results.2 > minGpuReduction
  · rw [if_pos tooMany]
    obtain ⟨counts, many⟩ := many'.mp tooMany
    exact ⟨by simp [counts, Nat.not_le.mpr (larger.mp many)], fun r is => by cases is⟩
  rw [if_neg tooMany]
  refine ⟨iff_of_true rfl ⟨nothing, within, fun counts => ?_⟩, fun r is => ?_⟩
  · exact Nat.le_of_not_lt fun many => tooMany (many'.mpr ⟨counts, larger.mpr many⟩)
  · refine ⟨results.1, results.2, pos, (Option.some.inj is).symm, fun reduced => ?_⟩
    exact (same reduced).trans (first reduced)

/-- The host's loop over sums. -/
theorem foldl_range_eq (lawful : N.Lawful) (f : AggregateFun) (g : Nat → α) (start : α) {n : Nat}
    (pos : 0 < n) : (List.range n).foldl (fun acc r => N.combine f acc (g r)) start =
      N.combine f start (total (N.combine f) g n) := by
  have := lawful.assoc f
  induction n with
  | zero => exact absurd pos (Nat.lt_irrefl 0)
  | succ n ih =>
    rw [List.range_succ, List.foldl_append, List.foldl_cons, List.foldl_nil]
    cases n with
    | zero => rfl
    | succ n =>
      rw [ih (Nat.succ_pos n)]
      exact Std.Associative.assoc _ _ _

end Reductions

end TRex
