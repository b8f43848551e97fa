import TRex.ParallelProcessing
import TRex.PatternSemantics
import TRex.RecursionFlag
import TRex.StateParameters

/-!
# What the engine detects

The engine's purpose, stated without its index, its workers, its stacks' expiry and its searches. A
rule remembers every packet that one of its elements takes, for good; only packets used up by a
composite event of a consuming state are forgotten. A packet that the root takes completes one
composite event for each choice of remembered packets that is a match (`IsMatch`) and makes the
simple parameters hold as the rule states them, in the order of the choices. Packets are told apart
by the number of packets that arrived before them. What a complex parameter says of the packets it
reads, and the value of a tree, are `checkComplexParameter` and `computeValue` here as in the
engine.

`Detection.run` puts the rules together: the composite events are handed out and fed back as packets
in turn, depth first.
-/

namespace TRex

open Feedback

/-! ## One rule -/

/-- What a simple parameter between states asks for: the attribute `name1` of the event at
`evIndex1` and the attribute `name2` of the event at `evIndex2` are equal. -/
def Parameter.stated (par : Parameter) : Place × Place :=
  ((par.evIndex1, par.name1), (par.evIndex2, par.name2))

/-- The simple parameters between states, as the rule states them. -/
def RulePkt.statedSystem (rule : RulePkt) : List (Place × Place) :=
  (rule.parameters.filter fun par => par.type = .state).map Parameter.stated

/-- The element is for packets of this type, and their attributes satisfy its constraints. -/
def Element.Takes (e : Element) (pkt : PubPkt) : Prop :=
  e.eventType = pkt.eventType ∧ ∀ c ∈ e.constraints, ∃ a ∈ pkt.attributes, c.satisfiedBy a = true

instance (e : Element) (pkt : PubPkt) : Decidable (e.Takes pkt) :=
  inferInstanceAs (Decidable (_ ∧ _))

/-- A packet put behind the others. -/
def Column.append (c : Column) (p : PubPktPtr) : Column := ⟨c.size + 1, c.received ++ [p]⟩

/-- The column without the packets at some positions. -/
def Column.without (c : Column) (used : Nat → Bool) : Column :=
  let kept := (c.received.zipIdx.filter fun x => !used x.2).map Prod.fst
  ⟨kept.length, kept⟩

namespace Detection

/-- The rule has this element, and it takes the packet. -/
def takes (rule : RulePkt) (type : StateType) (i : Nat) (pkt : PubPkt) : Bool :=
  (IndexingTable.elementAt rule type i).any fun e => decide (e.Takes pkt)

def remember (taken : Nat → Bool) (columns : Nat → Column) (p : PubPktPtr) : Nat → Column :=
  fun i => if taken i then (columns i).append p else columns i

/-- Each element but the root remembers the packet if it takes it. -/
def receive (rule : RulePkt) (memory : Stacks) (p : PubPktPtr) : Stacks :=
  { states := remember (fun i => decide (i ≠ 0) && takes rule .state i p.pkt) memory.states p
    negs := remember (fun k => takes rule .neg k p.pkt) memory.negs p
    aggs := remember (fun k => takes rule .agg k p.pkt) memory.aggs p }

/-- The choices of one remembered packet for each of the states 1 to `k`, in lexicographic order. -/
def choicesUpTo (memory : Stacks) : Nat → List (List Nat)
  | 0 => [[]]
  | k + 1 => (choicesUpTo memory k).flatMap fun front =>
    (List.range (memory.states (k + 1)).received.length).map fun j => front ++ [j]

/-- The choice is a match for the root's packet, and the simple parameters hold of it. -/
def IsComposite (rule : RulePkt) (memory : Stacks) (p : PubPktPtr) (pos : List Nat) : Prop :=
  IsMatch rule memory p pos ∧ Equations.Holds (assigned memory p pos).identityAt rule.statedSystem

open Classical in
noncomputable def composites (rule : RulePkt) (memory : Stacks) (p : PubPktPtr) :
    List (List Nat) :=
  (choicesUpTo memory (rule.predicates.length - 1)).filter fun pos =>
    decide (IsComposite rule memory p pos)

/-- What the rule's aggregates range over: all that is remembered. -/
def aggregatesOver (rule : RulePkt) (memory : Stacks) : Aggregates :=
  { aggregates := rule.aggregates
    aggsSize := fun k => (memory.aggs k).received.length
    receivedAggs := fun k => (memory.aggs k).received
    aggregateParameters := fun k => rule.complexParameters.filter fun par =>
      par.type = .agg ∧ par.lastIndex = k }

/-- The composite event of a choice has the type that the template gives, the time of the root's
packet, an attribute for each tree of the template and the template's static attributes. -/
def compose (rule : RulePkt) (memory : Stacks) (p : PubPktPtr) (pos : List Nat) : PubPkt :=
  let template := rule.ceTemplate.getD ⟨0, [], []⟩
  let value := computeValue (aggregatesOver rule memory) (assigned memory p pos)
  let computed := template.attributes.map fun (name, tree) =>
    { name, value := value tree : Attribute }
  .new template.eventType (computed ++ template.staticAttributes) p.getTimeStamp

/-- The packets that the choices use up, for each state that consumes. -/
def consume (rule : RulePkt) (memory : Stacks) (chosen : List (List Nat)) : Stacks :=
  { memory with
    states := fun i =>
      if 1 ≤ i ∧ i < rule.predicates.length ∧ i ∈ rule.consuming then
        (memory.states i).without fun j => chosen.any fun pos => pos[i - 1]? == some j
      else memory.states i }

/-- What a packet makes of the rule's memory, and the composite events it completes. -/
noncomputable def react (rule : RulePkt) (memory : Stacks) (p : PubPktPtr) :
    Stacks × List PubPkt :=
  let memory := receive rule memory p
  if takes rule .state 0 p.pkt then
    (consume rule memory (composites rule memory p),
      (composites rule memory p).map (compose rule memory p))
  else (memory, [])

end Detection

/-! ## All rules -/

/-- The rules with their memories, the number of packets so far and the composite events handed
out. -/
structure Detection where
  rules : List (RulePkt × Stacks)
  arrived : Nat
  delivered : List PubPkt

namespace Detection

def initial : Detection := ⟨[], 0, []⟩

variable (order : SetOrder)

/-- One packet, processed by all rules. -/
noncomputable def evaluate (d : Detection) (pkt : PubPkt) : Detection × List PubPkt :=
  let p : PubPktPtr := ⟨d.arrived, pkt⟩
  let generated := d.rules.flatMap fun x => (react x.1 x.2 p).2
  let result := order.arrange d.delivered.length generated
  ({ rules := d.rules.map fun x => (x.1, (react x.1 x.2 p).1)
     arrived := d.arrived + 1
     delivered := d.delivered ++ result }, result)

noncomputable def feedback : System Detection PubPkt where
  react d pkt := d.evaluate order pkt.copy

open Classical in
/-- Composite events are fed back only if some rule's predicate has the type of a template, and only
as many as the engine's budget allows. -/
noncomputable def feedsBack (d : Detection) (count : Nat) : Bool :=
  decide (Detected (d.rules.map Prod.fst)) && decide (count < maxRecursionDepth)

noncomputable def publish (d : Detection) (pkt : PubPkt) : Walk Detection PubPkt :=
  walk (feedback order) d.feedsBack maxRecursionDepth 1 ⟨(d.evaluate order pkt).1, 0, []⟩
    (d.evaluate order pkt).2

noncomputable def step (d : Detection) : RecursiveEngine.Operation → Detection
  | .processRulePkt rule => { d with rules := d.rules ++ [(rule, .initial)] }
  | .processPubPkt pkt => (d.publish order pkt).state

noncomputable def run (ops : List RecursiveEngine.Operation) : Detection :=
  ops.foldl (step order) initial

end Detection

end TRex
