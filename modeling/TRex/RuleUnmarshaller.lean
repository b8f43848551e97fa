import TRex.JavaClient
import TRex.Lib.OrdMap
import TRex.RulePkt
import TRex.Subscription

/-!
# Decoding rules and subscriptions

`Unmarshaller::decodeRulePkt` and what it calls, up to the calls of the builder that put the rule
together, and `Unmarshaller::decodeSubPkt`. Two conventions complete those of `Marshaller`: a
decoder fails where `strcpy` would write past the array it copies to, and `junk` stands for what an
uninitialised `Constraint` holds. -/

namespace TRex

open Wire

/-- `ComplexParameter`, a parameter before it reaches the builder. -/
structure ComplexParameter where
  operation : Op
  type : StateType
  vtype : ValType
  leftTree : OpTree
  rightTree : OpTree

namespace Unmarshaller

/-! ## Enumerations -/

/-- Everything unknown is `ALL_WITHIN`. -/
def decodeCompKind : Decoder CompKind := do
  return match ← byte with
    | 0 => .eachWithin
    | 1 => .firstWithin
    | 2 => .lastWithin
    | _ => .allWithin

/-- Everything unknown is `EQ`. -/
def decodeConstraintOp : Decoder Op := do
  return match ← byte with
    | 1 => .lt
    | 2 => .gt
    | 3 => .ne
    | 4 => .in_
    | 5 => .le
    | 6 => .ge
    | _ => .eq

/-- Everything unknown is `AGG`. -/
def decodeStateType : Decoder StateType := do
  return match ← byte with
    | 0 => .state
    | 1 => .neg
    | _ => .agg

/-- Everything unknown is `SUM`. -/
def decodeAggregateFun : Decoder AggregateFun := do
  return match ← byte with
    | 0 => .none
    | 1 => .avg
    | 2 => .count
    | 3 => .min
    | 4 => .max
    | _ => .sum

/-- Everything unknown is `OR`. -/
def decodeOpTreeOperation : Decoder OpTreeOperation := do
  return match ← byte with
    | 0 => .add
    | 1 => .sub
    | 2 => .mul
    | 3 => .div
    | 4 => .and
    | _ => .or

/-! ## Records -/

section Records

variable (pad : Nat) (junk : Constraint)

/-- `strcpy` of what `decodeString` returns to an array of one more than `limit` characters. -/
def decodeStringInto (limit : Nat) : Decoder CString := do
  let s ← decodeString
  require (s.length ≤ limit)
  return s

/-- The member that the type names is read; the others keep what the memory held. -/
def decodeConstraint : Decoder Constraint := do
  let name ← decodeStringInto nameLen
  let op ← decodeConstraintOp
  let type ← decodeValType
  let c := { junk with name, op, type }
  match type with
  | .int => return { c with intVal := ← decodeInt }
  | .float => return { c with floatVal := ← decodeFloat }
  | .bool => return { c with boolVal := ← decodeBoolean }
  | .string => return { c with stringVal := ← decodeStringInto stringValLen }

/-- The loop that fills a new array of constraints. -/
def decodeConstraints : Decoder (List Constraint) := do
  let constraintsNum ← decodeInt
  require (0 ≤ constraintsNum)
  times (decodeConstraint junk) constraintsNum.toNat

/-- One state of the rule. The window arrives as a signed number. -/
def decodeEventPredicate : Decoder Predicate := do
  let eventType ← decodeInt
  let constraints ← decodeConstraints junk
  let refersTo ← decodeInt
  let win ← decodeLong
  let kind ← decodeCompKind
  return { eventType, constraints, refersTo, win := timeOfLong win, kind }

/-- The lower time is read whether or not the lower bound is a time. -/
def decodeNegation : Decoder Negation := do
  let eventType ← decodeInt
  let constraints ← decodeConstraints junk
  let lowerId ← decodeInt
  let lowerTime ← decodeLong
  let upperId ← decodeInt
  return { eventType, constraints, lowerId, lowerTime := timeOfLong lowerTime, upperId }

/-- As a negation, followed by the function and the attribute it is computed on. -/
def decodeAggregate : Decoder Aggregate := do
  let eventType ← decodeInt
  let constraints ← decodeConstraints junk
  let lowerId ← decodeInt
  let lowerTime ← decodeLong
  let upperId ← decodeInt
  let fun_ ← decodeAggregateFun
  let name ← decodeStringInto nameLen
  return { eventType, constraints, lowerId, lowerTime := timeOfLong lowerTime, upperId, fun_, name }

/-- A constant: its type and its value. -/
def decodeStaticValueReference : Decoder OpValueReference := do
  match ← decodeValType with
  | .int => return .static (.int (← decodeInt))
  | .float => return .static (.float (← decodeFloat))
  | .bool => return .static (.bool (← decodeBoolean) pad)
  | .string => return .static (.string (← decodeStringInto stringValLen))

/-- A reference to an aggregate without a name is built by the constructor for aggregates. -/
def decodeRulePktReference : Decoder OpValueReference := do
  let idx ← decodeInt
  let type ← decodeStateType
  let name ← decodeString
  if type = .agg ∧ name.length = 0 then return .rulePkt idx .agg none
  else return .rulePkt idx type (some name)

/-- One byte says which of the two kinds of references follows. -/
def decodeValueReference : Decoder OpValueReference := do
  match ← byte with
  | 0 => decodeRulePktReference
  | _ => decodeStaticValueReference pad

/-- Every node takes two bytes at least, so the recursion is never deeper than the input is long. -/
def decodeOpTreeWithin : Nat → Decoder OpTree
  | 0 => fail
  | fuel + 1 => do
    let type ← byte
    let valType ← decodeValType
    match type with
    | 0 => return .leaf (← decodeValueReference pad) valType
    | _ =>
      let leftTree ← decodeOpTreeWithin fuel
      let rightTree ← decodeOpTreeWithin fuel
      let op ← decodeOpTreeOperation
      return .inner leftTree rightTree op valType

/-- The recursion of the source, whose depth the input bounds. -/
def decodeOpTree : Decoder OpTree := fun source => decodeOpTreeWithin pad source.length source

/-- The operator, what the parameter is about, its type and its two sides. -/
def decodeParameter : Decoder ComplexParameter := do
  let operation ← decodeConstraintOp
  let type ← decodeStateType
  let vtype ← decodeValType
  let leftTree ← decodeOpTree pad
  let rightTree ← decodeOpTree pad
  return { operation, type, vtype, leftTree, rightTree }

/-- A computed attribute. The array that its name is copied to is as long as the name. -/
def decodeTemplateAttr : Decoder (CString × OpTree) := do
  let name ← decodeString
  let tree ← decodeOpTree pad
  return (name, tree)

/-- The computed attributes and, behind them, the static ones. -/
def decodeEventTemplate : Decoder CompositeEventTemplate := do
  let eventType ← decodeInt
  let attrNum ← decodeInt
  let attributes ← times (decodeTemplateAttr pad) attrNum.toNat
  let staticAttrNum ← decodeInt
  let staticAttributes ← times (decodeAttribute pad) staticAttrNum.toNat
  return { eventType, attributes, staticAttributes }

/-- A subscription without constraints is built by another constructor. -/
def decodeSubPkt : Decoder SubPkt := do
  let eventType ← decodeInt
  let numConstraints ← decodeInt
  if numConstraints = 0 then return { eventType, constraints := [] }
  require (0 ≤ numConstraints)
  let constraints ← times (decodeConstraint junk) numConstraints.toNat
  return { eventType, constraints }

end Records

/-! ## The rule -/

/-- A loop that inserts pairs of a key and a value into a `std::map`. -/
def decodeMap {α : Type} (decode : Decoder α) : Decoder (List (Int × α)) := do
  let num ← decodeInt
  let entries ← times (do
    let key ← decodeInt
    let value ← decode
    return (key, value)) num.toNat
  return entries.foldl (fun m e => OrdMap.insert (fun a b => decide (a < b)) e.1 e.2 m) []

/-- A loop that inserts numbers into a `std::set`. -/
def decodeIntSet : Decoder (List Int) := do
  let num ← decodeInt
  let elements ← times decodeInt num.toNat
  return elements.foldl (fun s e => OrdSet.insert e s) []

/-- The result of a builder call is ignored: a refused call leaves the packet as it is. -/
def applied (pkt : RulePkt) (result : Option RulePkt) : RulePkt := result.getD pkt

/-- The predicate with the key 0 is the root; its reference and window are ignored. -/
def addPredicate (pkt : RulePkt) (it : Int × Predicate) : RulePkt :=
  let pred := it.2
  applied pkt <|
    if it.1 = 0 then pkt.addRootPredicate pred.eventType pred.constraints
    else pkt.addPredicate pred.eventType pred.constraints pred.refersTo pred.win pred.kind

/-- `now` is the time at which an aggregate or a negation between states is added. -/
def addAggregate (now : Nat) (pkt : RulePkt) (it : Int × Aggregate) : RulePkt :=
  let agg := it.2
  applied pkt <|
    if agg.lowerId < 0 then
      pkt.addTimeBasedAggregate agg.eventType agg.constraints agg.upperId agg.lowerTime agg.name
        agg.fun_
    else
      pkt.addAggregateBetweenStates agg.eventType agg.constraints agg.lowerId agg.upperId now
        agg.name agg.fun_

/-- A negative lower bound says that the lower time counts, as for an aggregate. -/
def addNegation (now : Nat) (pkt : RulePkt) (it : Int × Negation) : RulePkt :=
  let neg := it.2
  applied pkt <|
    if neg.lowerId < 0 then
      pkt.addTimeBasedNegation neg.eventType neg.constraints neg.upperId neg.lowerTime
    else
      pkt.addNegationBetweenStates neg.eventType neg.constraints neg.lowerId neg.upperId now

/-- The call for what the parameter is about. -/
def addParameter (pkt : RulePkt) (it : Int × ComplexParameter) : RulePkt :=
  let par := it.2
  applied pkt <|
    match par.type with
    | .state => pkt.addComplexParameter par.operation par.vtype par.leftTree par.rightTree
    | .agg => pkt.addComplexParameterForAggregate par.operation par.vtype par.leftTree par.rightTree
    | .neg => pkt.addComplexParameterForNegation par.operation par.vtype par.leftTree par.rightTree

/-- One element of the set of consumed states. -/
def addConsuming (pkt : RulePkt) (consum : Int) : RulePkt := applied pkt (pkt.addConsuming consum)

/-- The second half of `decodeRulePkt`: a new packet, filled by the builder. -/
def buildRulePkt (now lastId : Nat) (predicates : List (Int × Predicate))
    (parameters : List (Int × ComplexParameter)) (aggregates : List (Int × Aggregate))
    (negations : List (Int × Negation)) (eventTemplate : CompositeEventTemplate)
    (consuming : List Int) : RulePkt :=
  let pkt := (RulePkt.new false lastId).1
  let pkt := predicates.foldl addPredicate pkt
  let pkt := aggregates.foldl (addAggregate now) pkt
  let pkt := negations.foldl (addNegation now) pkt
  let pkt := parameters.foldl addParameter pkt
  let pkt := pkt.setCompositeEventTemplate eventTemplate
  consuming.foldl addConsuming pkt

/-- The five parts of a rule and the consumed states, all read before anything is built. -/
def decodeRulePkt (now pad lastId : Nat) (junk : Constraint) : Decoder RulePkt := do
  let predicates ← decodeMap (decodeEventPredicate junk)
  let parameters ← decodeMap (decodeParameter pad)
  let aggregates ← decodeMap (decodeAggregate junk)
  let negations ← decodeMap (decodeNegation junk)
  let eventTemplate ← decodeEventTemplate pad
  let consuming ← decodeIntSet
  return buildRulePkt now lastId predicates parameters aggregates negations eventTemplate consuming

end Unmarshaller

end TRex
