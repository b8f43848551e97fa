import TRex.GPUProcessor

/-!
# Kernels and their preparation

`Engine/GPU/CudaKernels.cu` and `Kernels/Computation.cu`, as far as negations go. States are
numbered from the terminator downwards on the device: state `i` of the rule is number
`sequenceLen - 1 - i` there. `compute` assigns one state in each turn of its loop;
`prepareForNextLoop` lists the negations to check in that turn, `setAllNegations` packs the pages of
one of them for the kernel, and `gcheckN` runs through what was packed in this and earlier turns.

What the turns do to the states' own parameters is left out, and the evaluation of a negation's
parameter on the device is an argument of `gcheckN`.
-/

namespace TRex

/-! ## Data passed to kernels -/

structure GPUNegation where
  lowerId : Int
  lowerTime : Nat
  upperId : Int

/-- `EventInfoSet`: the events assigned to the states. -/
abbrev EventInfoSet := Nat → EventInfo

/-- `negsPasser`: for each negation packed, the number of its events, the place of the first one,
its pages and the slots of its parameters. -/
structure NegsPasser where
  size : Nat → Nat
  minId : Nat → Nat
  pages : Nat → Nat → Nat
  parameters : Nat → List Nat

inductive LoopKind
  | single | singleGlobal | singleNeg | multiple | multipleNeg
  deriving DecidableEq

/-- What `prepareForNextLoop` finds for a turn. The kind is left unset for a state that takes all
events of its window. -/
structure NextLoop where
  kind : Option LoopKind
  size : Nat
  minId : Nat
  negs : List Nat
  firstWithin : Bool

def gpuThreads : Nat := 256

/-! ## Negations of a rule -/

namespace RulePkt

/-- Negations that end at the terminator are checked in the first turn. -/
def firstNegations (rulePkt : RulePkt) (state : Nat) : List Nat :=
  if (state : Int) = (rulePkt.predicates.length : Int) - 2 then
    (List.range rulePkt.negations.length).filter fun n =>
      (rulePkt.negations[n]?).any fun neg => neg.lowerId < 0 && neg.upperId == 0
  else []

/-- A negation between states is checked with its lower state, a time-based one with the state that
it ends at. -/
def otherNegations (rulePkt : RulePkt) (state : Nat) : List Nat :=
  (List.range rulePkt.negations.length).filter fun n =>
    (rulePkt.negations[n]?).any fun neg =>
      if 0 ≤ neg.lowerId ∧ (rulePkt.predicates.length : Int) - neg.lowerId - 1 = state then true
      else neg.lowerId < 0 && (rulePkt.predicates.length : Int) - neg.upperId - 1 == state

/-- The array `negs` for a turn. -/
def negationsFor (rulePkt : RulePkt) (state : Nat) : List Nat :=
  rulePkt.firstNegations state ++ rulePkt.otherNegations state

end RulePkt

namespace GPUProcessor

variable (p : GPUProcessor)

/-- The entry that `setNegationsParameters` copies to the device for a negation. -/
def gpuNegation (n : Nat) : GPUNegation :=
  match p.rulePkt.negations[n]? with
  | none => ⟨-1, 0, 0⟩
  | some neg =>
    { lowerId := if 0 ≤ neg.lowerId then (p.sequenceLen : Int) - neg.lowerId - 1 else neg.lowerId
      lowerTime := neg.lowerTime
      upperId := (p.sequenceLen : Int) - neg.upperId - 1 }

/-- The slots that `setNegationsParameters` gives to the parameters of a negation; the source runs
out of slots where the model does not. -/
def negationsParametersSize (n : Nat) : List Nat :=
  (List.range p.rulePkt.complexParameters.length).filter fun j =>
    (p.rulePkt.complexParameters[j]?).any fun param =>
      param.type == .neg && param.lastIndex == (n : Int)

def prepareForNextLoop (state : Nat) : NextLoop :=
  let mode := (p.rulePkt.predicates[p.sequenceLen - 1 - state]?).map Predicate.kind
  let minId := p.lowIndexes .state state
  let size := Ring.size allocSize minId (p.highIndexes .state state)
  let negs := p.rulePkt.negationsFor state
  { kind := match mode with
      | some .lastWithin | some .firstWithin =>
        if negs.length > 0 then some .singleNeg
        else if 1 + size / gpuThreads > 1 then some .singleGlobal
        else some .single
      | some .eachWithin => if negs.length = 0 then some .multiple else some .multipleNeg
      | _ => none
    size
    minId
    negs
    firstWithin := decide (mode = some .firstWithin) }

/-- Packs negation `n` at index `i`. The call of `getAllNegationsIndexes` passes the two the other
way round, so that the pages of negation `i` are entered at index `n`. Pages that are not in use
keep what was there. -/
def setAllNegations (i n : Nat) (negp : NegsPasser) : NegsPasser :=
  { size := Function.update negp.size i
      (Ring.size allocSize (p.lowIndexes .neg n) (p.highIndexes .neg n))
    minId := Function.update negp.minId i (p.lowIndexes .neg n)
    pages := Function.update negp.pages n fun j =>
      if j < (p.mm.rules p.mmToken).numChunks .neg i then
        p.mm.pageOf p.mmToken .neg i j % p.mm.dChunksnum
      else negp.pages n j
    parameters := Function.update negp.parameters i (p.negationsParametersSize n) }

/-- The loop of `compute` that packs the negations of a turn. -/
def packNegations : List Nat → Nat → NegsPasser → NegsPasser
  | [], _, negp => negp
  | n :: rest, i, negp => packNegations rest (i + 1) (p.setAllNegations i n negp)

/-- The local variable `nP` of `compute` once a number of turns have packed their negations. It is
never set before. -/
def packedAfter (nP : NegsPasser) : Nat → NegsPasser
  | 0 => nP
  | turns + 1 =>
    p.packNegations (p.prepareForNextLoop (p.sequenceLen - 1 - (turns + 1))).negs 0
      (packedAfter nP turns)

end GPUProcessor

/-! ## The kernel -/

/-- The open interval that `gcheckN` looks into. -/
def GPUNegation.bounds (neg : GPUNegation) (ev1 : EventInfo) (prevResults : EventInfoSet)
    (state : Nat) : Nat × Nat :=
  if neg.lowerId < 0 then
    let maxTS := if neg.upperId = state then ev1.timestamp
      else (prevResults neg.upperId.toNat).timestamp
    (uint64Sub maxTS neg.lowerTime, maxTS)
  else (ev1.timestamp, (prevResults neg.upperId.toNat).timestamp)

/-- The place in the device's memory of event `i` of the negation packed at index `n`. -/
def NegsPasser.address (negsPages : NegsPasser) (n i : Nat) : Nat :=
  let id := (negsPages.minId n + i) % allocSize
  negsPages.pages n (id / pageSize) * pageSize + id % pageSize

/-- `gcheckN`: false if an event of a negation packed lies in the interval and passes the parameters
of that negation. -/
def gcheckN (stack : Nat → EventInfo) (check : Nat → EventInfo → Bool) (ev1 : EventInfo)
    (prevResults : EventInfoSet) (negations : Nat → GPUNegation) (negNumber : Nat)
    (negsPages : NegsPasser) (state : Nat) : Bool :=
  (List.range negNumber).all fun n => (List.range (negsPages.size n)).all fun i =>
    let neg := stack (negsPages.address n i)
    let (minTS, maxTS) := (negations n).bounds ev1 prevResults state
    if neg.timestamp < maxTS ∧ neg.timestamp > minTS then
      !((negsPages.parameters n).all fun pp => check pp neg)
    else true

namespace GPUProcessor

variable (p : GPUProcessor)

/-- The results that a turn finds: the states above are assigned, the others hold what an earlier
computation has left there. -/
def prevResults (infos : EventInfoSet) (stale : Nat → EventInfoSet) (state : Nat) : EventInfoSet :=
  fun k => if state < k then infos k else stale state k

/-- The check of one turn of `compute`, in which `infos state` is assigned. -/
def turn (check : Nat → EventInfo → Bool) (nP : NegsPasser) (infos : EventInfoSet)
    (stale : Nat → EventInfoSet) (state : Nat) : Bool :=
  let negs := (p.prepareForNextLoop state).negs
  gcheckN p.mm.baseAddress check (infos state) (prevResults infos stale state) p.gpuNegation
    negs.length (p.packedAfter nP (p.sequenceLen - 1 - state)) state

/-- Whether an assignment of the states from the terminator down to number `lowest` fails the check
of one of its turns. -/
def invalidates (check : Nat → EventInfo → Bool) (nP : NegsPasser) (infos : EventInfoSet)
    (stale : Nat → EventInfoSet) (lowest : Nat) : Bool :=
  (List.range' lowest (p.sequenceLen - 1 - lowest)).any fun state =>
    !p.turn check nP infos stale state

end GPUProcessor

end TRex
