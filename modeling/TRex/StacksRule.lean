import Mathlib.Logic.Function.Basic
import TRex.CompositeEventGenerator
import TRex.RulePkt

/-!
# The detection sequence of one rule

`Engine/StacksRule`. `StacksRule` holds what the constructor derives from the rule packet and never
changes; `Stacks` holds the packets received so far. A stack, whether of a state, a negation or an
aggregate, is a `Column`: the vector of packets and the counter the source keeps beside it.

The references that the stacks hold to their packets are the subject of `StacksAccesses`. Sets of
parameters are lists: the source iterates them in address order and only forms conjunctions over
them.
-/

namespace TRex

/-! ## Columns -/

/-- One stack with its separately kept size (`stacksSize[i]` and `receivedPkts[i]`, and the same for
negations and aggregates). -/
structure Column where
  size : Int
  received : List PubPktPtr
  deriving DecidableEq

namespace Column

def empty : Column := ⟨0, []⟩

/-- `parametricAddToStack`: insertion before the first newer packet. -/
def add (c : Column) (pkt : PubPktPtr) : Column :=
  let i := getFirstValidElement c.received c.size pkt.getTimeStamp
  if i = -1 then ⟨c.size + 1, c.received ++ [pkt]⟩
  else ⟨c.size + 1, c.received.take i.toNat ++ pkt :: c.received.drop i.toNat⟩

/-- `removeOldPacketsFromStack`. -/
def removeOld (c : Column) (minTS : Nat) : Column :=
  if c.size = 0 then c
  else
    let newSize := deleteInvalidElements c.received c.size minTS
    if newSize = c.size then c
    else ⟨newSize, c.received.drop (c.size - newSize).toNat⟩

/-- The inner loop of `removeConsumedEvent`: erase the packets at the given addresses, decrementing
the counter for each. -/
def erase (c : Column) (addrs : List Nat) : Column :=
  ⟨c.size - (c.received.countP fun p => addrs.contains p.addr),
    c.received.filter fun p => !addrs.contains p.addr⟩

end Column

/-! ## The rule -/

/-- `Stack`: the state it refers to, its window and selection policy, and the negations to check
when a packet is assigned to it. -/
structure Stack where
  refersTo : Int
  win : Nat
  kind : CompKind
  linkedNegations : List Nat
  deriving DecidableEq

structure StacksRule where
  ruleId : Nat
  «stacks» : List Stack
  endStackParameters : List Parameter
  branchStackComplexParameters : Nat → List CPUParameter
  negationComplexParameters : Nat → List CPUParameter
  aggregateComplexParameters : Nat → List CPUParameter
  aggregates : List Aggregate
  negations : List Negation
  consumingIndexes : List Nat
  /-- The template of the event generator. -/
  ceTemplate : CompositeEventTemplate
  compositeEventId : Int

namespace StacksRule

/-- The state a negation is linked to: its lower state, or its upper one if the bound is a time. -/
def linkedState (n : Negation) : Int := if n.lowerId < 0 then n.upperId else n.lowerId

/-- The complex parameters of one kind filed under one index. -/
def parametersUnder (pkt : RulePkt) (type : StateType) (index : Nat) : List CPUParameter :=
  pkt.complexParameters.filter fun p => p.type = type && p.lastIndex = index

/-- `StacksRule::StacksRule`. Simple parameters on states are stored with their two sides swapped;
those on negations and aggregates are dropped. -/
def new (pkt : RulePkt) : StacksRule :=
  let cet := pkt.ceTemplate.getD ⟨0, [], []⟩
  { ruleId := pkt.ruleId
    «stacks» := pkt.predicates.zipIdx.map fun (p, i) =>
      { refersTo := p.refersTo
        win := p.win
        kind := p.kind
        linkedNegations := (List.range pkt.negations.length).filter fun k =>
          (pkt.negations[k]?).any fun n => linkedState n = (i : Int) }
    endStackParameters := (pkt.parameters.filter fun p => p.type = .state).map fun p =>
      { evIndex1 := p.evIndex2, name1 := p.name2, evIndex2 := p.evIndex1, name2 := p.name1
        type := p.type }
    branchStackComplexParameters := parametersUnder pkt .state
    negationComplexParameters := parametersUnder pkt .neg
    aggregateComplexParameters := parametersUnder pkt .agg
    aggregates := pkt.aggregates
    negations := pkt.negations
    consumingIndexes := pkt.consuming
    ceTemplate := cet
    compositeEventId :=
      if cet.attributes.length + cet.staticAttributes.length = 0 then cet.eventType else -1 }

def stacksNum (r : StacksRule) : Nat := r.stacks.length

def refersTo (r : StacksRule) (i : Nat) : Int := ((r.stacks[i]?).map Stack.refersTo).getD (-1)

/-- `referenceState[i]`: only references other than -1 are stored, and a missing key reads as 0. -/
def referenceState (r : StacksRule) (i : Nat) : Int := if r.refersTo i = -1 then 0 else r.refersTo i

def getWindow (r : StacksRule) (i : Nat) : Nat := ((r.stacks[i]?).map Stack.win).getD 0

def getKind (r : StacksRule) (i : Nat) : CompKind :=
  ((r.stacks[i]?).map Stack.kind).getD .eachWithin

def getLinkedNegations (r : StacksRule) (i : Nat) : List Nat :=
  ((r.stacks[i]?).map Stack.linkedNegations).getD []

/-! What the constructor leaves of each predicate. -/

section New

variable {pkt : RulePkt} {i : Nat} {p : Predicate}

@[simp] theorem new_stacksNum : (new pkt).stacksNum = pkt.predicates.length := by
  simp [stacksNum, new]

@[simp] theorem new_negations : (new pkt).negations = pkt.negations := rfl

@[simp] theorem new_aggregates : (new pkt).aggregates = pkt.aggregates := rfl

theorem new_refersTo (lookup : pkt.predicates[i]? = some p) :
    (new pkt).refersTo i = p.refersTo := by
  simp [refersTo, new, lookup]

theorem new_getWindow (lookup : pkt.predicates[i]? = some p) : (new pkt).getWindow i = p.win := by
  simp [getWindow, new, lookup]

theorem new_getKind (lookup : pkt.predicates[i]? = some p) : (new pkt).getKind i = p.kind := by
  simp [getKind, new, lookup]

theorem new_referenceState (lookup : pkt.predicates[i]? = some p) (nonneg : 0 ≤ p.refersTo) :
    (new pkt).referenceState i = p.refersTo := by
  rw [referenceState, new_refersTo lookup, if_neg (by omega)]

theorem mem_new_getLinkedNegations (lt : i < pkt.predicates.length) {k : Nat} :
    k ∈ (new pkt).getLinkedNegations i ↔ ∃ n, pkt.negations[k]? = some n ∧ linkedState n = i := by
  have lookup := List.getElem?_eq_getElem lt
  simp only [getLinkedNegations, new, List.getElem?_map, List.getElem?_zipIdx, lookup,
    Option.map_some, Option.getD_some, List.mem_filter, List.mem_range, Nat.zero_add,
    Option.any_eq_true, decide_eq_true_eq]
  constructor
  · exact fun found => found.2
  · rintro ⟨n, found, linked⟩
    exact ⟨(List.getElem?_eq_some_iff.mp found).1, n, found, linked⟩

end New

end StacksRule

/-! ## The packets received -/

/-- The packets received for the states, the negations and the aggregates. Their counters are arrays
of length `MAX_RULE_FIELDS` in the source, which longer rules overrun; here every index has a
stack. -/
structure Stacks where
  states : Nat → Column
  negs : Nat → Column
  aggs : Nat → Column

namespace Stacks

def initial : Stacks := ⟨fun _ => .empty, fun _ => .empty, fun _ => .empty⟩

def addToStack (st : Stacks) (pkt : PubPktPtr) (index : Nat) : Stacks :=
  { st with states := Function.update st.states index ((st.states index).add pkt) }

def addToAggregateStack (st : Stacks) (pkt : PubPktPtr) (index : Nat) : Stacks :=
  { st with aggs := Function.update st.aggs index ((st.aggs index).add pkt) }

def addToNegationStack (st : Stacks) (pkt : PubPktPtr) (index : Nat) : Stacks :=
  { st with negs := Function.update st.negs index ((st.negs index).add pkt) }

/-- The terminator is pushed on stack 0, whose counter is set to one. -/
def pushTerminator (st : Stacks) (pkt : PubPktPtr) : Stacks :=
  { st with states := Function.update st.states 0 ⟨1, (st.states 0).received ++ [pkt]⟩ }

def popTerminator (st : Stacks) : Stacks :=
  { st with states := Function.update st.states 0 ⟨0, []⟩ }

end Stacks

/-! ## Expiry -/

namespace StacksRule

variable (r : StacksRule)

/-- One turn of the first loop of `clearStacks`. -/
def clearState (st : Stacks) (stack : Nat) : Stacks :=
  let refersToStack := (r.refersTo stack).toNat
  if (st.states refersToStack).size = 0 then st
  else
    let minTS := timeAt (st.states refersToStack).received 0 - r.getWindow stack
    { st with states := Function.update st.states stack ((st.states stack).removeOld minTS) }

/-- The span before the upper state's oldest event that `clearStacks` keeps negation events for. -/
def negationWindow (n : Negation) : Nat :=
  if n.lowerId < 0 then n.lowerTime else r.getWindow n.lowerId.toNat

def clearNegation (st : Stacks) (negIndex : Nat) : Stacks :=
  match r.negations[negIndex]? with
  | none => st
  | some neg =>
    let refersToStack := neg.upperId.toNat
    if (st.states refersToStack).size = 0 then st
    else
      let minTS := timeAt (st.states refersToStack).received 0 - r.negationWindow neg
      { st with negs := Function.update st.negs negIndex ((st.negs negIndex).removeOld minTS) }

/-- The source tests `win < 0` to recognise an aggregate between states; the time is unsigned, so
`lowerTime` is always taken. -/
def clearAggregate (st : Stacks) (aggIndex : Nat) : Stacks :=
  match r.aggregates[aggIndex]? with
  | none => st
  | some agg =>
    let refersToStack := agg.upperId.toNat
    if (st.states refersToStack).size = 0 then st
    else
      let win := if agg.lowerTime < 0 then r.getWindow agg.lowerId.toNat else agg.lowerTime
      let minTS := timeAt (st.states refersToStack).received 0 - win
      { st with aggs := Function.update st.aggs aggIndex ((st.aggs aggIndex).removeOld minTS) }

def clearStates (st : Stacks) : Stacks :=
  (List.range' 1 (r.stacksNum - 1)).foldl r.clearState st

def clearNegations (st : Stacks) : Stacks :=
  (List.range r.negations.length).foldl r.clearNegation st

def clearAggregates (st : Stacks) : Stacks :=
  (List.range r.aggregates.length).foldl r.clearAggregate st

def clearStacks (st : Stacks) : Stacks :=
  r.clearAggregates (r.clearNegations (r.clearStates st))

/-! ## Pattern matching -/

/-- The open interval in which an event of a negation invalidates a partial result. -/
def negationBounds (neg : Negation) (pe : PartialEvent) : Nat × Nat :=
  let maxTS := pe.timeOf neg.upperId
  (if neg.lowerId < 0 then maxTS - neg.lowerTime else pe.timeOf neg.lowerId, maxTS)

/-- Whether the negation invalidates the partial result. -/
def checkNegation (st : Stacks) (negIndex : Nat) (partialResult : PartialEvent) : Bool :=
  match r.negations[negIndex]? with
  | none => false
  | some neg =>
    let column := st.negs negIndex
    if column.size = 0 then false
    else
      let (minTS, maxTS) := negationBounds neg partialResult
      match validRange column.received column.size minTS maxTS with
      | none => false
      | some range =>
        let parameters := r.negationComplexParameters negIndex
        if parameters.isEmpty then true
        else (slice column.received range).any fun tmpPkt =>
          checkParameters tmpPkt partialResult negIndex .neg parameters

/-- The loop of `getWinEvents` over the packets it still has to visit. -/
def winLoop (st : Stacks) (index : Nat) (mode : CompKind) (partialEvent : PartialEvent) :
    List PubPktPtr → List PartialEvent → List PartialEvent
  | [], results => results
  | tmpPkt :: rest, results =>
    let usable :=
      checkParameters tmpPkt partialEvent index .state (r.branchStackComplexParameters index)
    let newPartialEvent := partialEvent.set index tmpPkt
    let invalidatedByNegations :=
      (r.getLinkedNegations index).any fun neg => r.checkNegation st neg newPartialEvent
    if usable && !invalidatedByNegations then
      if mode = .lastWithin ∨ mode = .firstWithin then results ++ [newPartialEvent]
      else winLoop st index mode partialEvent rest (results ++ [newPartialEvent])
    else winLoop st index mode partialEvent rest results

/-- Appends to `results` the extensions of `partialEvent` by a packet of stack `index`. -/
def getWinEvents (st : Stacks) (results : List PartialEvent) (index : Nat) (tsUp : Nat)
    (mode : CompKind) (partialEvent : PartialEvent) : List PartialEvent :=
  let column := st.states index
  if column.size = 0 then results
  else
    let minTimeStamp := tsUp - r.getWindow index
    match validRange column.received column.size minTimeStamp tsUp with
    | none => results
    | some range =>
      -- a LAST_WITHIN state is searched from the newest packet backwards
      let visited := if mode = .lastWithin then (slice column.received range).reverse
        else slice column.received range
      r.winLoop st index mode partialEvent visited results

/-- One state of the loop in `getPartialResults`. -/
def extend (st : Stacks) (state : Nat) (prevEvents : List PartialEvent) : List PartialEvent :=
  prevEvents.foldl (fun currentEvents event =>
    r.getWinEvents st currentEvents state (event.timeOf (r.referenceState state)) (r.getKind state)
      event) []

/-- The loop over the remaining states, left as soon as no partial result is alive. -/
def statesLoop (st : Stacks) : List Nat → List PartialEvent → List PartialEvent
  | [], prevEvents => prevEvents
  | state :: rest, prevEvents =>
    let currentEvents := r.extend st state prevEvents
    if currentEvents.isEmpty then currentEvents else statesLoop st rest currentEvents

def getPartialResults (st : Stacks) (pkt : PubPktPtr) : List PartialEvent :=
  let last := PartialEvent.empty.set 0 pkt
  if (r.getLinkedNegations 0).any fun neg => r.checkNegation st neg last then []
  else r.statesLoop st (List.range' 1 (r.stacksNum - 1)) [last]

/-! ## A computation -/

def removePartialEventsNotMatchingParameters (partialEvents : List PartialEvent) :
    List PartialEvent :=
  partialEvents.filter fun pe => r.endStackParameters.all fun par =>
    checkParameter (pe.indexes par.evIndex2.toNat) pe par

/-- The aggregates' data handed to the event generator. -/
def aggregatesOf (st : Stacks) : Aggregates :=
  { aggregates := r.aggregates
    aggsSize := fun i => (st.aggs i).size
    receivedAggs := fun i => (st.aggs i).received
    aggregateParameters := r.aggregateComplexParameters }

/-- One generated packet for each partial result. -/
def createComplexEvents (st : Stacks) (partialEvents : List PartialEvent) : List PubPkt :=
  partialEvents.map fun pe =>
    if r.compositeEventId ≥ 0 then
      PubPkt.new r.compositeEventId [] (timeAt (st.states 0).received 0)
    else generateCompositeEvent r.ceTemplate (r.aggregatesOf st) pe

/-- The addresses of the packets that some partial result holds at state `i`. -/
def pktsToRemove (partialEvents : List PartialEvent) (i : Nat) : List Nat :=
  partialEvents.filterMap fun pe => (pe.indexes i).map PubPktPtr.addr

/-- One turn of the loop in `removeConsumedEvent`. -/
def consumeState (partialEvents : List PartialEvent) (st : Stacks) (i : Nat) : Stacks :=
  if r.consumingIndexes.contains i then
    let column := (st.states i).erase (pktsToRemove partialEvents i)
    { st with states := Function.update st.states i column }
  else st

def removeConsumedEvent (st : Stacks) (partialEvents : List PartialEvent) : Stacks :=
  (List.range' 1 (r.stacksNum - 1)).foldl (r.consumeState partialEvents) st

/-- What one computation looks up, generates and leaves behind. -/
structure Computation where
  partialResults : List PartialEvent
  /-- The stacks while the partial results are collected and the events generated. -/
  during : Stacks
  results : List PubPkt
  after : Stacks

/-- `StacksRule::startComputation`, with the expiry step as a parameter. -/
def computationWith (clear : Stacks → Stacks) (st : Stacks) (pkt : PubPktPtr) : Computation :=
  let during := clear (st.pushTerminator pkt)
  let partialResults := r.getPartialResults during pkt
  let valid := r.removePartialEventsNotMatchingParameters partialResults
  { partialResults
    during
    results := r.createComplexEvents during valid
    after := (r.removeConsumedEvent during valid).popTerminator }

def startComputation (st : Stacks) (pkt : PubPktPtr) : Computation :=
  r.computationWith r.clearStacks st pkt

end StacksRule

/-! ## Runs -/

/-- A call of the interface that the engine uses. -/
inductive Call
  | addToStack (pkt : PubPktPtr) (index : Nat)
  | addToNegationStack (pkt : PubPktPtr) (index : Nat)
  | addToAggregateStack (pkt : PubPktPtr) (index : Nat)
  | startComputation (pkt : PubPktPtr)
  deriving DecidableEq

namespace Call

def pkt : Call → PubPktPtr
  | .addToStack p _ => p
  | .addToNegationStack p _ => p
  | .addToAggregateStack p _ => p
  | .startComputation p => p

def getTimeStamp (c : Call) : Nat := c.pkt.getTimeStamp

/-- The index exists in the rule, and packets for state 0 start a computation instead. -/
def Valid (r : StacksRule) : Call → Prop
  | .addToStack _ i => 1 ≤ i ∧ i < r.stacksNum
  | .addToNegationStack _ i => i < r.negations.length
  | .addToAggregateStack _ i => i < r.aggregates.length
  | .startComputation _ => True

end Call

namespace StacksRule

variable (r : StacksRule)

/-- The stacks after one call, with the expiry step as a parameter. -/
def stepWith (clear : Stacks → Stacks) (st : Stacks) : Call → Stacks
  | .addToStack p i => st.addToStack p i
  | .addToNegationStack p i => st.addToNegationStack p i
  | .addToAggregateStack p i => st.addToAggregateStack p i
  | .startComputation p => (r.computationWith clear st p).after

def runWith (clear : Stacks → Stacks) (st : Stacks) (calls : List Call) : Stacks :=
  calls.foldl (r.stepWith clear) st

/-- The computations of a run, in order. -/
def computationsWith (clear : Stacks → Stacks) : Stacks → List Call → List Computation
  | _, [] => []
  | st, .startComputation p :: calls =>
    r.computationWith clear st p ::
      computationsWith clear (r.stepWith clear st (.startComputation p)) calls
  | st, c :: calls => computationsWith clear (r.stepWith clear st c) calls

def step (st : Stacks) (c : Call) : Stacks := r.stepWith r.clearStacks st c

def run (st : Stacks) (calls : List Call) : Stacks := r.runWith r.clearStacks st calls

end StacksRule

end TRex
