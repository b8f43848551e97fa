import TRex.ColumnSearch
import TRex.CudaKernels

/-!
# The kernels that extend partial results

The four kernels of `Kernels/Computation.cu` have a thread for each pair of an event of a state's
stack and a partial result. Each thread asks first whether the event lies in the window of the
state: the end of the window is a timestamp, and its beginning a difference of unsigned numbers,
which `TimeMs` takes to be 0 where the window is longer than the timestamp. `sameTests_iff` says
for which events the two engines agree.

The evaluation of parameters on the device is an argument of the kernels.
-/

namespace TRex

/-- The arguments of a kernel, with the device's memory. `prevResults` holds the partial results. -/
structure Launch where
  stack : Nat → EventInfo
  pageIdx : Nat → Nat
  prevResults : Nat → EventInfoSet
  state : Nat
  minId : Nat
  size : Nat
  paramNum : List Nat
  check : Nat → EventInfo → EventInfoSet → Bool
  win : Nat
  referredState : Nat
  firstWithin : Bool
  negations : Nat → GPUNegation
  negsNum : Nat
  negPages : NegsPasser
  checkForNegation : EventInfo → EventInfoSet → Nat → EventInfo → Bool

namespace Launch

variable (l : Launch) (x y : Nat)

/-! ## Threads -/

/-- `stack[id + offset]`, the event of a thread. -/
def event : EventInfo :=
  let id := (l.minId + x) % allocSize
  l.stack (id % pageSize + l.pageIdx (id / pageSize) * pageSize)

/-- The test that `valid` starts with. -/
def inWindow : Bool :=
  let timestamp := (l.event x).timestamp
  let referred := (l.prevResults y l.referredState).timestamp
  decide (timestamp < referred ∧ timestamp > uint64Sub referred l.win)

/-- `valid` behind the loop over the parameters. -/
def valid : Bool :=
  l.inWindow x y && l.paramNum.all fun pp => l.check pp (l.event x) (l.prevResults y)

def passesNegations : Bool :=
  gcheckN l.stack (l.checkForNegation (l.event x) (l.prevResults y)) (l.event x) (l.prevResults y)
    l.negations l.negsNum l.negPages l.state

/-- Whether the thread takes its event for a candidate; a block has all events of the stack. -/
def computeComplexEventsSingle : Bool := decide (x < l.size) && l.valid x y

def computeComplexEventsSingleG : Bool :=
  decide (x < l.size) && (l.valid x y && l.passesNegations x y)

def computeComplexEventsMultiple : Bool := decide (x < l.size) && l.valid x y

def computeComplexEventsMultipleWithNegations : Bool :=
  decide (x < l.size) && (l.valid x y && l.passesNegations x y)

end Launch

/-- The packets that `getWinEvents` and `checkNegation` visit. -/
def visited (column : List PubPktPtr) (minTimeStamp maxTimeStamp : Nat) : List PubPktPtr :=
  match validRange column column.length minTimeStamp maxTimeStamp with
  | none => []
  | some range => slice column range

/-! ## The two tests -/

/-- The thread reads these timestamps and this window, and only the window decides. -/
structure Launch.Reads (l : Launch) (x y ts ref win : Nat) : Prop where
  inside : x < l.size
  timestamp : (l.event x).timestamp = ts
  referred : (l.prevResults y l.referredState).timestamp = ref
  win : l.win = win
  parameters : ∀ pp ∈ l.paramNum, l.check pp (l.event x) (l.prevResults y) = true
  negations : l.passesNegations x y = true

/-- The kernels accept an event of the timestamp exactly if the CPU visits it. -/
def SameEvents (ts ref win : Nat) : Prop :=
  ∀ (column : List PubPktPtr) (e : PubPktPtr), TimeSorted column → e ∈ column →
    e.getTimeStamp = ts → ∀ (l : Launch) (x y : Nat), l.Reads x y ts ref win →
      (l.computeComplexEventsSingle x y = true ↔ e ∈ visited column (ref - win) ref) ∧
      (l.computeComplexEventsSingleG x y = true ↔ e ∈ visited column (ref - win) ref) ∧
      (l.computeComplexEventsMultiple x y = true ↔ e ∈ visited column (ref - win) ref) ∧
      (l.computeComplexEventsMultipleWithNegations x y = true ↔
        e ∈ visited column (ref - win) ref)

/-- Where a time-based negation without parameters is all that is packed, with one event, `gcheckN`
fails exactly if the CPU visits the event. -/
def SameNegationEvents (ts ref win : Nat) : Prop :=
  ∀ (column : List PubPktPtr) (e : PubPktPtr), TimeSorted column → e ∈ column →
    e.getTimeStamp = ts → ∀ (stack : Nat → EventInfo) (check : Nat → EventInfo → Bool)
      (ev1 : EventInfo) (prevResults : EventInfoSet) (negations : Nat → GPUNegation)
      (negsPages : NegsPasser) (state : Nat), (negations 0).lowerId < 0 →
      (negations 0).lowerTime = win → ((negations 0).bounds ev1 prevResults state).2 = ref →
      negsPages.size 0 = 1 → negsPages.parameters 0 = [] →
      (stack (negsPages.address 0 0)).timestamp = ts →
      (gcheckN stack check ev1 prevResults negations 1 negsPages state = false ↔
        e ∈ visited column (ref - win) ref)

def SameTests (ts ref win : Nat) : Prop := SameEvents ts ref win ∧ SameNegationEvents ts ref win

/-! ## Windows -/

theorem mem_visited {column : List PubPktPtr} (sorted : TimeSorted column) {e : PubPktPtr}
    {lo hi : Nat} :
    e ∈ visited column lo hi ↔ e ∈ column ∧ lo < e.getTimeStamp ∧ e.getTimeStamp < hi := by
  rw [← mem_between, visited]
  rcases validRange_spec sorted lo hi with ⟨absent, nothing⟩ | ⟨range, found, packets, _⟩
  · rw [absent, nothing]
  · rw [found]
    simp only [packets]

/-- The device's interval ends where the CPU's does, and is empty where the difference wraps. -/
theorem uint64Sub_window {ts ref win : Nat} (short : win < 2 ^ 64) :
    (ts < ref ∧ ts > uint64Sub ref win) ↔ win ≤ ref ∧ ref - win < ts ∧ ts < ref := by
  unfold uint64Sub
  split
  case isTrue le => omega
  case isFalse => omega

namespace Launch.Reads

variable {l : Launch} {x y ts ref win : Nat} (reads : l.Reads x y ts ref win)

include reads

theorem inWindow_iff : l.inWindow x y = true ↔ ts < ref ∧ ts > uint64Sub ref win := by
  simp only [inWindow, reads.timestamp, reads.referred, reads.win, decide_eq_true_eq]

theorem valid_eq : l.valid x y = l.inWindow x y := by
  have parameters : (l.paramNum.all fun pp => l.check pp (l.event x) (l.prevResults y)) = true :=
    List.all_eq_true.mpr reads.parameters
  rw [valid, parameters, Bool.and_true]

/-- All four kernels ask for the window. -/
theorem accepts :
    l.computeComplexEventsSingle x y = l.inWindow x y ∧
      l.computeComplexEventsSingleG x y = l.inWindow x y ∧
      l.computeComplexEventsMultiple x y = l.inWindow x y ∧
      l.computeComplexEventsMultipleWithNegations x y = l.inWindow x y := by
  simp only [computeComplexEventsSingle, computeComplexEventsSingleG, computeComplexEventsMultiple,
    computeComplexEventsMultipleWithNegations, reads.valid_eq, reads.negations, reads.inside,
    decide_true, Bool.true_and, Bool.and_true, and_self]

end Launch.Reads

theorem sameEvents_of_iff {ts ref win : Nat}
    (same : (ts < ref ∧ ts > uint64Sub ref win) ↔ ref - win < ts ∧ ts < ref) :
    SameEvents ts ref win := by
  intro column e sorted mem isTs l x y reads
  have agree : l.inWindow x y = true ↔ e ∈ visited column (ref - win) ref := by
    rw [reads.inWindow_iff, same, mem_visited sorted, isTs]
    exact (and_iff_right mem).symm
  rcases reads.accepts with ⟨single, singleG, multiple, multipleWithNegations⟩
  rw [single, singleG, multiple, multipleWithNegations]
  exact ⟨agree, agree, agree, agree⟩

theorem sameNegationEvents_of_iff {ts ref win : Nat}
    (same : (ts < ref ∧ ts > uint64Sub ref win) ↔ ref - win < ts ∧ ts < ref) :
    SameNegationEvents ts ref win := by
  intro column e sorted mem isTs stack check ev1 prevResults negations negsPages state timeBased
    isWin isRef one free isTime
  have bounds : (negations 0).bounds ev1 prevResults state = (uint64Sub ref win, ref) := by
    have isBound : (negations 0).bounds ev1 prevResults state = (uint64Sub
        ((negations 0).bounds ev1 prevResults state).2 win,
        ((negations 0).bounds ev1 prevResults state).2) := by
      rw [GPUNegation.bounds, if_pos timeBased, isWin]
    rw [isBound, isRef]
  have looks : gcheckN stack check ev1 prevResults negations 1 negsPages state =
      !decide (ts < ref ∧ ts > uint64Sub ref win) := by
    simp only [gcheckN, List.range_one, List.all_cons, List.all_nil, Bool.and_true, one, free,
      bounds, isTime]
    split
    case isTrue inside => rw [decide_eq_true inside]
    case isFalse outside => rw [decide_eq_false outside, Bool.not_false]
  rw [looks, Bool.not_eq_false', decide_eq_true_eq, same, mem_visited sorted, isTs]
  exact (and_iff_right mem).symm

/-- A thread with an event and a partial result of these timestamps. -/
def windowLaunch (ts ref win : Nat) : Launch where
  stack _ := ⟨[], ts⟩
  pageIdx _ := 0
  prevResults _ _ := ⟨[], ref⟩
  state := 0
  minId := 0
  size := 1
  paramNum := []
  check _ _ _ := true
  win := win
  referredState := 1
  firstWithin := true
  negations _ := ⟨-1, 0, 0⟩
  negsNum := 0
  negPages := ⟨fun _ => 0, fun _ => 0, fun _ _ => 0, fun _ => []⟩
  checkForNegation _ _ _ _ := true

theorem windowLaunch_reads (ts ref win : Nat) : (windowLaunch ts ref win).Reads 0 0 ts ref win where
  inside := Nat.zero_lt_one
  timestamp := rfl
  referred := rfl
  win := rfl
  parameters := List.forall_mem_nil _
  negations := rfl

/-- A packet of a timestamp. -/
def packetOf (ts : Nat) : PubPktPtr := ⟨0, PubPkt.new 0 [] ts⟩

theorem iff_of_sameEvents {ts ref win : Nat} (events : SameEvents ts ref win) :
    (ts < ref ∧ ts > uint64Sub ref win) ↔ ref - win < ts ∧ ts < ref := by
  have reads := windowLaunch_reads ts ref win
  have sorted : TimeSorted [packetOf ts] := List.pairwise_singleton _ _
  have same := (events [packetOf ts] (packetOf ts) sorted (List.mem_singleton_self _) rfl
    (windowLaunch ts ref win) 0 0 reads).1
  rw [reads.accepts.1, reads.inWindow_iff, mem_visited sorted] at same
  exact same.trans (and_iff_right (List.mem_singleton_self _))

/-- The engines agree on the windows of 64-bit timestamps exactly if the window is no longer than
the timestamp that it ends at, or the event is at 0 or not before the end. -/
theorem sameTests_iff (ts ref win : Nat) (short : win < 2 ^ 64) :
    SameTests ts ref win ↔ win ≤ ref ∨ ts = 0 ∨ ref ≤ ts := by
  have arithmetic : ((ts < ref ∧ ts > uint64Sub ref win) ↔ ref - win < ts ∧ ts < ref) ↔
      win ≤ ref ∨ ts = 0 ∨ ref ≤ ts := by
    rw [uint64Sub_window short]
    omega
  rw [← arithmetic]
  constructor
  · intro same
    exact iff_of_sameEvents same.1
  · intro same
    exact ⟨sameEvents_of_iff same, sameNegationEvents_of_iff same⟩

theorem sameTests_iff_logical : SameTests 3 5 10 ↔ 10 ≤ 5 ∨ 3 = 0 ∨ 5 ≤ 3 :=
  sameTests_iff 3 5 10 (by decide)

/-- An event at 3 in a window of 10 that ends at 5. -/
theorem three_not_sameTests : ¬ SameTests 3 5 10 := by
  intro same
  exact absurd (iff_of_sameEvents same.1) (by decide)

end TRex
