import TRex.RuleUnmarshaller

/-!
# Encoding rules and subscriptions

`Marshaller::encode` for rule and subscription packets. What it writes for a rule is undefined in
two cases, where the model has `none`: a packet without a template, whose null pointer is
dereferenced, and a leaf with a constant, which is cast to a reference into the rule. -/

namespace TRex.Marshaller

open Wire

/-! ## Enumerations -/

/-- The tags that `decodeCompKind` reads. -/
def encodeCompKind : CompKind → Bytes
  | .eachWithin => [0]
  | .firstWithin => [1]
  | .lastWithin => [2]
  | .allWithin => [3]

/-- The operators of constraints. The tags follow the enumeration, with `IN` before `LE` and `GE`.
-/
def encodeOp : Op → Bytes
  | .eq => [0]
  | .lt => [1]
  | .gt => [2]
  | .ne => [3]
  | .in_ => [4]
  | .le => [5]
  | .ge => [6]

/-- Whether a reference or a parameter is about a state, a negation or an aggregate. -/
def encodeStateType : StateType → Bytes
  | .state => [0]
  | .neg => [1]
  | .agg => [2]

/-- `NONE` has a tag of its own, 0. -/
def encodeAggregateFun : AggregateFun → Bytes
  | .none => [0]
  | .avg => [1]
  | .count => [2]
  | .min => [3]
  | .max => [4]
  | .sum => [5]

/-- The operators of trees, of which the last two are for Booleans. -/
def encodeOpTreeOperation : OpTreeOperation → Bytes
  | .add => [0]
  | .sub => [1]
  | .mul => [2]
  | .div => [3]
  | .and => [4]
  | .or => [5]

/-! ## Records -/

/-- The member that the type of the constraint names. -/
def constraintValue (source : Constraint) : Value :=
  match source.type with
  | .int => .int source.intVal
  | .float => .float source.floatVal
  | .bool => .bool source.boolVal 0
  | .string => .string source.stringVal

/-- Name, operator and type come before the only member that is written. -/
def encodeConstraint (source : Constraint) : Bytes :=
  encodeString source.name ++ (encodeOp source.op ++
    (encodeValType source.type ++ encodeValue (constraintValue source)))

/-- The tags of the operator and of the type are one byte each. -/
def getNumBytesConstraint (source : Constraint) : Nat :=
  getNumBytesString source.name + 1 + 1 + getNumBytesValue (constraintValue source)

/-- The number of elements of an array and the elements. -/
def encodeArray {α : Type} (encode : α → Bytes) (source : List α) : Bytes :=
  encodeInt source.length ++ source.flatMap encode

/-- The loop over an array, from the four bytes of its size. -/
def getNumBytesArray {α : Type} (getNumBytes : α → Nat) (source : List α) : Nat :=
  source.foldl (fun size el => size + getNumBytes el) 4

/-- The window is written as a `TimeMs`, also for the root, whose window is 0. -/
def encodePredicate (source : Predicate) : Bytes :=
  encodeInt source.eventType ++ (encodeArray encodeConstraint source.constraints ++
    (encodeInt source.refersTo ++ (encodeTime source.win ++ encodeCompKind source.kind)))

/-- The bytes of `encodePredicate`, in the order of its members. -/
def getNumBytesPredicate (source : Predicate) : Nat :=
  4 + getNumBytesArray getNumBytesConstraint source.constraints + 4 + 8 + 1

/-- A simple parameter: the two places that are to be equal. The decoder expects complex ones here.
-/
def encodeParameter (source : Parameter) : Bytes :=
  encodeInt source.evIndex1 ++ (encodeString source.name1 ++ (encodeInt source.evIndex2 ++
    (encodeString source.name2 ++ encodeStateType source.type)))

/-- The bytes of `encodeParameter`, in the order of its members. -/
def getNumBytesParameter (source : Parameter) : Nat :=
  4 + getNumBytesString source.name1 + 4 + getNumBytesString source.name2 + 1

/-- The lower time is written whether or not the lower bound is a time. -/
def encodeNegation (source : Negation) : Bytes :=
  encodeInt source.eventType ++ (encodeArray encodeConstraint source.constraints ++
    (encodeInt source.lowerId ++ (encodeTime source.lowerTime ++ encodeInt source.upperId)))

/-- The bytes of `encodeNegation`, in the order of its members. -/
def getNumBytesNegation (source : Negation) : Nat :=
  4 + getNumBytesArray getNumBytesConstraint source.constraints + 4 + 8 + 4

/-- As a negation, followed by the function and the attribute it is computed on. -/
def encodeAggregate (source : Aggregate) : Bytes :=
  encodeInt source.eventType ++ (encodeArray encodeConstraint source.constraints ++
    (encodeInt source.lowerId ++ (encodeTime source.lowerTime ++ (encodeInt source.upperId ++
      (encodeAggregateFun source.fun_ ++ encodeString source.name)))))

/-- The bytes of `encodeAggregate`, in the order of its members. -/
def getNumBytesAggregate (source : Aggregate) : Nat :=
  4 + getNumBytesArray getNumBytesConstraint source.constraints + 4 + 8 + 4 + 1 +
    getNumBytesString source.name

/-- The name that stands for `NULL`. -/
def writtenName (name : Option CString) : CString := name.getD ['0']

/-- No tag says which of the two kinds of references follows. -/
def encodeValueReference : OpValueReference → Option Bytes
  | .rulePkt index sType name =>
    some (encodeInt index ++ (encodeStateType sType ++ encodeString (writtenName name)))
  | .static _ => none

/-- The bytes of `encodeValueReference`, with the same cast of a constant. -/
def getNumBytesValueReference : OpValueReference → Option Nat
  | .rulePkt _ _ name => some (4 + 1 + getNumBytesString (writtenName name))
  | .static _ => none

/-- The kind of a node, `LEAF` or `INNER`, its type and its parts. -/
def encodeOpTree : OpTree → Option Bytes
  | .leaf valueRef valType => do
    return [0] ++ (encodeValType valType ++ (← encodeValueReference valueRef))
  | .inner left right op valType => do
    let leftBytes ← encodeOpTree left
    let rightBytes ← encodeOpTree right
    return [1] ++ (encodeValType valType ++
      (leftBytes ++ (rightBytes ++ encodeOpTreeOperation op)))

/-- One byte for the kind of a node and one for its type. -/
def getNumBytesOpTree : OpTree → Option Nat
  | .leaf valueRef _ => do return 1 + 1 + (← getNumBytesValueReference valueRef)
  | .inner left right _ _ => do
    return 1 + 1 + (← getNumBytesOpTree left) + (← getNumBytesOpTree right) + 1

/-- The name of a computed attribute and its tree. -/
def encodeTemplateAttr (source : CString × OpTree) : Option Bytes := do
  return encodeString source.1 ++ (← encodeOpTree source.2)

/-- The bytes of `encodeTemplateAttr`. -/
def getNumBytesTemplateAttr (source : CString × OpTree) : Option Nat := do
  return getNumBytesString source.1 + (← getNumBytesOpTree source.2)

/-- The static attributes are not written. -/
def encodeTemplate (source : CompositeEventTemplate) : Option Bytes := do
  let attributes ← source.attributes.mapM encodeTemplateAttr
  return encodeInt source.eventType ++
    (encodeInt source.attributes.length ++ attributes.flatten)

/-- The event type and the number of attributes, then each attribute. -/
def getNumBytesTemplate (source : CompositeEventTemplate) : Option Nat := do
  let attributes ← source.attributes.mapM getNumBytesTemplateAttr
  return attributes.foldl (fun size bytes => size + bytes) (4 + 4)

/-! ## Rules -/

/-- A loop over the elements of a rule, each after its index. -/
def encodeIndexed {α : Type} (encode : α → Bytes) (source : List α) : Bytes :=
  encodeInt source.length ++ source.zipIdx.flatMap fun it => encodeInt it.2 ++ encode it.1

/-- The loop of `encodeIndexed`, with four bytes for each index. -/
def getNumBytesIndexed {α : Type} (getNumBytes : α → Nat) (source : List α) : Nat :=
  source.foldl (fun size el => size + (4 + getNumBytes el)) 4

/-- A `std::set` is iterated in ascending order. -/
def encodeConsuming (source : List Nat) : Bytes :=
  encodeArray (fun consum : Nat => encodeInt consum) (source.mergeSort (· ≤ ·))

/-- What follows the packet's type and length. The complex parameters are not written. -/
def encodeRuleBody (source : RulePkt) : Option Bytes := do
  let template ← encodeTemplate (← source.ceTemplate)
  return encodeIndexed encodePredicate source.predicates ++
    (encodeIndexed encodeParameter source.parameters ++
    (encodeIndexed encodeAggregate source.aggregates ++
    (encodeIndexed encodeNegation source.negations ++
    (template ++ encodeConsuming source.consuming))))

/-- The length that is written in front of the body. -/
def getNumBytesRule (pkt : RulePkt) : Option Nat := do
  let template ← getNumBytesTemplate (← pkt.ceTemplate)
  return getNumBytesIndexed getNumBytesPredicate pkt.predicates +
    getNumBytesIndexed getNumBytesParameter pkt.parameters +
    getNumBytesIndexed getNumBytesAggregate pkt.aggregates +
    getNumBytesIndexed getNumBytesNegation pkt.negations +
    template + getNumBytesArray (fun _ => 4) pkt.consuming

/-! ## Subscriptions -/

/-- What is written of the body. -/
def encodeSubBody (source : SubPkt) : Bytes :=
  encodeInt source.eventType ++ encodeArray encodeConstraint source.constraints

/-- The number of constraints is counted twice. -/
def getNumBytesSub (pkt : SubPkt) : Nat :=
  4 + 4 + getNumBytesArray getNumBytesConstraint pkt.constraints

/-- The array ends with bytes that nothing is written to. -/
def encodeSub (source : SubPkt) (unwritten : Bytes) : Bytes :=
  encodePktType .subPkt ++ (encodeInt (getNumBytesSub source) ++
    (encodeSubBody source ++ unwritten))

/-! ## Sizes -/

@[simp] theorem length_encodeCompKind (kind : CompKind) : (encodeCompKind kind).length = 1 := by
  cases kind <;> rfl

@[simp] theorem length_encodeOp (op : Op) : (encodeOp op).length = 1 := by
  cases op <;> rfl

@[simp] theorem length_encodeStateType (type : StateType) : (encodeStateType type).length = 1 := by
  cases type <;> rfl

@[simp] theorem length_encodeAggregateFun (f : AggregateFun) :
    (encodeAggregateFun f).length = 1 := by
  cases f <;> rfl

@[simp] theorem length_encodeOpTreeOperation (op : OpTreeOperation) :
    (encodeOpTreeOperation op).length = 1 := by
  cases op <;> rfl

@[simp] theorem length_encodeConstraint (c : Constraint) :
    (encodeConstraint c).length = getNumBytesConstraint c := by
  simp [encodeConstraint, getNumBytesConstraint]
  omega

theorem length_encodeArray {α : Type} {encode : α → Bytes} {size : α → Nat}
    (sized : ∀ x, (encode x).length = size x) (source : List α) :
    (encodeArray encode source).length = getNumBytesArray size source := by
  rw [encodeArray, getNumBytesArray, Java.Marshaller.foldl_add_eq, List.length_append,
    length_encodeInt,
    List.length_flatMap]
  simp only [sized]

@[simp] theorem length_encodePredicate (p : Predicate) :
    (encodePredicate p).length = getNumBytesPredicate p := by
  simp only [encodePredicate, getNumBytesPredicate, List.length_append, length_encodeInt,
    length_encodeTime, length_encodeCompKind, length_encodeArray length_encodeConstraint]
  omega

@[simp] theorem length_encodeParameter (p : Parameter) :
    (encodeParameter p).length = getNumBytesParameter p := by
  simp [encodeParameter, getNumBytesParameter, Nat.add_assoc]

@[simp] theorem length_encodeNegation (n : Negation) :
    (encodeNegation n).length = getNumBytesNegation n := by
  simp only [encodeNegation, getNumBytesNegation, List.length_append, length_encodeInt,
    length_encodeTime, length_encodeArray length_encodeConstraint]
  omega

@[simp] theorem length_encodeAggregate (a : Aggregate) :
    (encodeAggregate a).length = getNumBytesAggregate a := by
  simp only [encodeAggregate, getNumBytesAggregate, List.length_append, length_encodeInt,
    length_encodeTime, length_encodeAggregateFun, length_encodeString,
    length_encodeArray length_encodeConstraint]
  omega

theorem length_encodeValueReference (ref : OpValueReference) :
    (encodeValueReference ref).map List.length = getNumBytesValueReference ref := by
  cases ref with
  | rulePkt index sType name =>
      simp [encodeValueReference, getNumBytesValueReference]
      omega
  | static value => rfl

theorem length_encodeOpTree (tree : OpTree) :
    (encodeOpTree tree).map List.length = getNumBytesOpTree tree := by
  induction tree with
  | leaf ref valType =>
      rw [encodeOpTree, getNumBytesOpTree, ← length_encodeValueReference]
      cases encodeValueReference ref with
      | none => rfl
      | some bytes =>
          simp
          omega
  | inner left right op valType ihLeft ihRight =>
      rw [encodeOpTree, getNumBytesOpTree, ← ihLeft, ← ihRight]
      cases encodeOpTree left with
      | none => rfl
      | some leftBytes =>
          cases encodeOpTree right with
          | none => rfl
          | some rightBytes =>
              simp
              omega

theorem length_encodeTemplateAttr (a : CString × OpTree) :
    (encodeTemplateAttr a).map List.length = getNumBytesTemplateAttr a := by
  rw [encodeTemplateAttr, getNumBytesTemplateAttr, ← length_encodeOpTree]
  cases encodeOpTree a.2 with
  | none => rfl
  | some bytes => simp

theorem length_encodeTemplateAttrs (attributes : List (CString × OpTree)) :
    (attributes.mapM encodeTemplateAttr).map (List.map List.length) =
      attributes.mapM getNumBytesTemplateAttr := by
  induction attributes with
  | nil => rfl
  | cons a rest ih =>
      rw [List.mapM_cons, List.mapM_cons, ← ih, ← length_encodeTemplateAttr]
      cases encodeTemplateAttr a with
      | none => rfl
      | some bytes =>
          cases rest.mapM encodeTemplateAttr with
          | none => rfl
          | some later => rfl

theorem length_encodeTemplate (t : CompositeEventTemplate) :
    (encodeTemplate t).map List.length = getNumBytesTemplate t := by
  rw [encodeTemplate, getNumBytesTemplate, ← length_encodeTemplateAttrs]
  cases t.attributes.mapM encodeTemplateAttr with
  | none => rfl
  | some attributes =>
      have total := Java.Marshaller.foldl_add_eq id (attributes.map List.length) (4 + 4)
      simp only [id_eq, List.map_id_fun] at total
      simp [total, List.length_flatten]
      omega

theorem length_encodeIndexed {α : Type} {encode : α → Bytes} {size : α → Nat}
    (sized : ∀ x, (encode x).length = size x) (source : List α) :
    (encodeIndexed encode source).length = getNumBytesIndexed size source := by
  rw [encodeIndexed, getNumBytesIndexed, Java.Marshaller.foldl_add_eq (fun el => 4 + size el),
    List.length_append, length_encodeInt, List.length_flatMap]
  have elements : source.zipIdx.map (fun it => 4 + size it.1) = source.map fun el =>
      4 + size el := by
    rw [← List.zipIdx_map_fst 0 source, List.map_map, List.zipIdx_map_fst]
    rfl
  simp only [List.length_append, length_encodeInt, sized, elements]

theorem length_encodeConsuming (source : List Nat) :
    (encodeConsuming source).length = getNumBytesArray (fun _ => 4) source := by
  rw [encodeConsuming, length_encodeArray fun consum : Nat => length_encodeInt consum,
    getNumBytesArray, getNumBytesArray, Java.Marshaller.foldl_add_eq, Java.Marshaller.foldl_add_eq]
  simp

/-- The length field is the number of bytes of the body. -/
theorem length_encodeRuleBody (pkt : RulePkt) :
    (encodeRuleBody pkt).map List.length = getNumBytesRule pkt := by
  rw [encodeRuleBody, getNumBytesRule]
  cases pkt.ceTemplate with
  | none => rfl
  | some template =>
      have length := length_encodeTemplate template
      simp only [Option.bind_eq_bind, Option.bind_some]
      rw [← length]
      cases encodeTemplate template with
      | none => rfl
      | some bytes =>
          simp [length_encodeIndexed length_encodePredicate,
            length_encodeIndexed length_encodeParameter,
            length_encodeIndexed length_encodeAggregate,
            length_encodeIndexed length_encodeNegation, length_encodeConsuming, Nat.add_assoc]

/-- The length field of a subscription is four more than what is written. -/
theorem length_encodeSubBody (pkt : SubPkt) :
    (encodeSubBody pkt).length + 4 = getNumBytesSub pkt := by
  simp only [encodeSubBody, getNumBytesSub, List.length_append, length_encodeInt,
    length_encodeArray length_encodeConstraint]
  omega

end TRex.Marshaller
