import TRex.ColumnSearch
import TRex.Parameters

/-!
# Generation of composite events

`Engine/CompositeEventGenerator`: the attributes of a composite event, computed from the partial
result that triggered it and from the aggregates' stacks. The aggregates' stacks are only read
through the packets of each aggregate's window (`Aggregates.window`), so two states whose windows
hold the same packets generate the same event (`generateCompositeEvent_congr`).
-/

namespace TRex

/-- What `generateCompositeEvent` is given about aggregates: their definitions, their stacks with
the separately kept sizes, and the parameters filed under each aggregate. -/
structure Aggregates where
  aggregates : List Aggregate
  aggsSize : Nat → Int
  receivedAggs : Nat → List PubPktPtr
  aggregateParameters : Nat → List CPUParameter

namespace Aggregates

/-- The interval of an aggregate: up to the event of its upper state, from a time span before it or
from the event of its lower state. -/
def bounds (agg : Aggregate) (pe : PartialEvent) : Nat × Nat :=
  let maxTS := pe.timeOf agg.upperId
  (if agg.lowerId < 0 then maxTS - agg.lowerTime else pe.timeOf agg.lowerId, maxTS)

/-- The packets `computeAggregate` ranges over, `none` when it gives up. -/
def window (a : Aggregates) (index : Nat) (agg : Aggregate) (pe : PartialEvent) :
    Option (List PubPktPtr) :=
  let (minTS, maxTS) := bounds agg pe
  (aggregateRange (a.receivedAggs index) (a.aggsSize index) minTS maxTS).map
    (slice (a.receivedAggs index))

end Aggregates

/-- `std::numeric_limits<float>::quiet_NaN()`. -/
def quietNaN : CFloat := 0x7fc00000

/-- The running values of the loop in `computeAggregate`. -/
structure AggregateAcc where
  sum : CFloat
  count : Int
  min : CFloat
  max : CFloat
  firstValue : Bool

/-- One packet of the loop, once its parameters hold. -/
def AggregateAcc.step (name : CString) (acc : AggregateAcc) (pkt : PubPktPtr) : AggregateAcc :=
  let val := match attributeIn (some pkt) (some name) with
    | some (.int v) => CFloat.ofInt v
    | some (.float f) => f
    | _ => CFloat.ofInt 0
  let acc := { acc with count := acc.count + 1, sum := acc.sum.add val }
  if acc.firstValue then { acc with min := val, max := val, firstValue := false }
  else if val.lt acc.min then { acc with min := val }
  else if acc.max.lt val then { acc with max := val }
  else acc

/-- The value of an aggregate over the packets that satisfy its parameters. -/
def aggregateValue (agg : Aggregate) (pkts : List PubPktPtr) : CFloat :=
  let zero := CFloat.ofInt 0
  let acc := pkts.foldl (AggregateAcc.step agg.name) ⟨zero, 0, zero, zero, true⟩
  match agg.fun_ with
  | .sum => acc.sum
  | .max => acc.max
  | .min => acc.min
  | .count => CFloat.ofInt acc.count
  | .avg => acc.sum.div (CFloat.ofInt acc.count)
  | .none => zero

def computeAggregate (a : Aggregates) (index : Nat) (pe : PartialEvent) : CFloat :=
  match a.aggregates[index]? with
  | none => CFloat.ofInt 0
  | some agg =>
    match a.window index agg pe with
    | none => if agg.fun_ = .count then CFloat.ofInt 0 else quietNaN
    | some pkts =>
      aggregateValue agg (pkts.filter fun pkt =>
        checkParameters pkt pe (-1) .agg (a.aggregateParameters index))

/-! ## Attribute trees -/

section Trees

variable (a : Aggregates) (pe : PartialEvent)

def computeIntValue : OpTree → Int
  | .leaf (.static value) _ => value.asInt
  | .leaf (.rulePkt index type name) _ =>
    if type = .agg then (computeAggregate a index.toNat pe).toInt
    else match attributeIn (pe.indexes index.toNat) name with
      | some (.int v) => v
      | some (.float f) => f.toInt
      | _ => 0
  | .inner left right op _ =>
    let leftValue := computeIntValue left
    let rightValue := computeIntValue right
    match op with
    | .add => wrap32 (leftValue + rightValue)
    | .sub => wrap32 (leftValue - rightValue)
    | .mul => wrap32 (leftValue * rightValue)
    | .div => wrap32 (leftValue.tdiv rightValue)
    | .and | .or => 0

/-- A subtree declared `INT` is computed with integers. -/
def computeFloatValue : OpTree → CFloat
  | .leaf (.static value) _ => value.asFloat
  | .leaf (.rulePkt index type name) _ =>
    if type = .agg then computeAggregate a index.toNat pe
    else match attributeIn (pe.indexes index.toNat) name with
      | some (.int v) => CFloat.ofInt v
      | some (.float f) => f
      | _ => CFloat.ofInt 0
  | .inner left right op _ =>
    let leftValue := if left.getValType = .int then CFloat.ofInt (computeIntValue a pe left)
      else computeFloatValue left
    let rightValue := if right.getValType = .int then CFloat.ofInt (computeIntValue a pe right)
      else computeFloatValue right
    match op with
    | .add => leftValue.add rightValue
    | .sub => leftValue.sub rightValue
    | .mul => leftValue.mul rightValue
    | .div => leftValue.div rightValue
    | .and | .or => CFloat.ofInt 0

end Trees

/-- Attributes of any type are read through `boolVal`; there are no Boolean aggregates. -/
def computeBoolValue (pe : PartialEvent) : OpTree → Bool
  | .leaf (.static value) _ =>
    match value with
    | .int v => v != 0
    | .float f => f.toBool
    | .bool b _ => b
    | .string _ => false
  | .leaf (.rulePkt index type name) _ =>
    if type = .agg then false
    else ((attributeIn (pe.indexes index.toNat) name).map Value.boolVal).getD false
  | .inner left right op _ =>
    let leftValue := computeBoolValue pe left
    let rightValue := computeBoolValue pe right
    match op with
    | .and => leftValue && rightValue
    | .or => leftValue || rightValue
    | _ => false

/-- There is no operator on strings: only a leaf has a value. -/
def computeStringValue (pe : PartialEvent) : OpTree → CString
  | .leaf (.static value) _ => value.stringVal
  | .leaf (.rulePkt index type name) _ =>
    if type = .agg then []
    else ((attributeIn (pe.indexes index.toNat) name).map Value.stringVal).getD []
  | .inner _ _ _ _ => []

/-- The union written for one computed attribute. The bytes behind a Boolean are left over from the
stack frame; the model takes them to be zero. -/
def computeValue (a : Aggregates) (pe : PartialEvent) (tree : OpTree) : Value :=
  match tree.getValType with
  | .int => .int (computeIntValue a pe tree)
  | .float => .float (computeFloatValue a pe tree)
  | .bool => .bool (computeBoolValue pe tree) 0
  | .string => .string (computeStringValue pe tree)

def generateCompositeEvent (ceTemplate : CompositeEventTemplate) (a : Aggregates)
    (pe : PartialEvent) : PubPkt :=
  let attributes := ceTemplate.attributes.map fun (name, tree) =>
    { name := name, value := computeValue a pe tree : Attribute }
  PubPkt.new ceTemplate.eventType (attributes ++ ceTemplate.staticAttributes) (pe.timeOf 0)

/-! ## The stacks are only read through the windows -/

/-- The same definitions and parameters, and the same packets in the window of every aggregate. -/
structure Aggregates.SameWindows (a a' : Aggregates) (pe : PartialEvent) : Prop where
  aggregates : a.aggregates = a'.aggregates
  parameters : a.aggregateParameters = a'.aggregateParameters
  windows : ∀ index agg, a.aggregates[index]? = some agg →
    a.window index agg pe = a'.window index agg pe

section Congruence

variable {a a' : Aggregates} {pe : PartialEvent} (same : a.SameWindows a' pe)

include same

theorem computeAggregate_congr (index : Nat) :
    computeAggregate a index pe = computeAggregate a' index pe := by
  unfold computeAggregate
  rw [← same.aggregates, ← same.parameters]
  cases lookup : a.aggregates[index]? with
  | none => rfl
  | some agg => simp only [same.windows index agg lookup]

theorem computeIntValue_congr (tree : OpTree) :
    computeIntValue a pe tree = computeIntValue a' pe tree := by
  induction tree with
  | leaf ref valType =>
      cases ref with
      | static value => rfl
      | rulePkt index type name => simp only [computeIntValue, computeAggregate_congr same]
  | inner left right op valType ihLeft ihRight => simp only [computeIntValue, ihLeft, ihRight]

theorem computeFloatValue_congr (tree : OpTree) :
    computeFloatValue a pe tree = computeFloatValue a' pe tree := by
  induction tree with
  | leaf ref valType =>
      cases ref with
      | static value => rfl
      | rulePkt index type name => simp only [computeFloatValue, computeAggregate_congr same]
  | inner left right op valType ihLeft ihRight =>
      simp only [computeFloatValue, ihLeft, ihRight, computeIntValue_congr same]

theorem generateCompositeEvent_congr (ceTemplate : CompositeEventTemplate) :
    generateCompositeEvent ceTemplate a pe = generateCompositeEvent ceTemplate a' pe := by
  have values : ∀ tree, computeValue a pe tree = computeValue a' pe tree := by
    intro tree
    unfold computeValue
    rw [computeIntValue_congr same, computeFloatValue_congr same]
  simp only [generateCompositeEvent, values]

end Congruence

end TRex
