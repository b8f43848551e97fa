import TRex.Marshaller

/-!
# The rules of the Java client

`polimi.trex.packets.RulePkt` and the classes it is made of, and what `polimi.trex.marshalling`
writes for them. The client keeps predicates, parameters, aggregates and negations in maps whose
keys are the positions 0, 1, …, so a list stands for the map; the order in which a map or a set is
iterated is left open (`Orders`).

A Java `int` or `long` is an `Int`, a `String` the list of its characters. A constraint has one
member for each type, as in the C++ structure, and an attribute is a name with a value of its type.
-/

namespace TRex.Java

open Wire

/-! ## Rules -/

/-- `RulePktValueReference` or `StaticValueReference`. The constructor for aggregates leaves the
name empty. -/
inductive OpValueReference
  | rulePkt (index : Int) (stype : StateType) (name : CString)
  | static (value : Value)

/-- A leaf reads a reference; an inner node has the tree of each operand. Both carry their type. -/
inductive OpTree
  | leaf (valueRef : OpValueReference) (valType : ValType)
  | inner (leftTree rightTree : OpTree) (op : OpTreeOperation) (valType : ValType)

/-- One state of a rule: the type and the constraints of its events and the state it refers to, -1
for the root. -/
structure EventPredicate where
  eventType : Int
  constraints : List Constraint
  refersTo : Int
  win : Int
  kind : CompKind

/-- The client has one class for parameters on states, negations and aggregates; `sType` says which.
-/
structure ComplexParameter where
  operation : Op
  sType : StateType
  type : ValType
  leftTree : OpTree
  rightTree : OpTree

/-- `lowerTime` is considered only if `lowerId` is negative, here and in `TAggregate`. -/
structure Negation where
  eventType : Int
  constraints : List Constraint
  lowerId : Int
  lowerTime : Int
  upperId : Int

/-- An aggregate over the events between two states, or in a window that ends at the upper one. -/
structure TAggregate where
  eventType : Int
  constraints : List Constraint
  lowerId : Int
  lowerTime : Int
  upperId : Int
  fun_ : AggregateFun
  name : CString

/-- The event that the rule makes: computed attributes, each with its tree, and constant ones. -/
structure EventTemplate where
  eventType : Int
  attributes : List (CString × OpTree)
  staticAttributes : List Attribute

/-- A rule packet of the client; a list stands for each of its maps. -/
structure RulePkt where
  predicates : List EventPredicate
  parameters : List ComplexParameter
  negations : List Negation
  aggregates : List TAggregate
  consuming : List Int
  eventTemplate : EventTemplate

/-- The orders in which the maps and the set of a rule are iterated. -/
structure Orders where
  predicates : List Nat
  parameters : List Nat
  aggregates : List Nat
  negations : List Nat
  consuming : List Int

/-- Every key and every element is visited once. -/
structure Orders.Visits (orders : Orders) (rule : RulePkt) : Prop where
  predicates : orders.predicates.Perm (List.range rule.predicates.length)
  parameters : orders.parameters.Perm (List.range rule.parameters.length)
  aggregates : orders.aggregates.Perm (List.range rule.aggregates.length)
  negations : orders.negations.Perm (List.range rule.negations.length)
  consuming : orders.consuming.Perm rule.consuming

namespace Marshaller

/-! ## Primitive types and enumerations -/

/-- One byte, 1 for true. -/
def encodeBoolean (source : Bool) : Bytes := [if source then 1 else 0]

/-- Four bytes, the most significant one first. -/
def encodeInt (source : Int) : Bytes := bigEndian 4 (source % 2 ^ 32).toNat

/-- Eight bytes, the most significant one first. -/
def encodeLong (source : Int) : Bytes := bigEndian 8 (source % 2 ^ 64).toNat

/-- The raw bits, written as an `int`. -/
def encodeFloat (source : CFloat) : Bytes := encodeInt source.toNat

/-- The low byte of each character. -/
def encodeString (source : CString) : Bytes :=
  encodeInt source.length ++ source.map fun c => UInt8.ofNat c.toNat

/-- The selection of the events that a state takes, in the order of the enumeration. -/
def encodeCompKind : CompKind → Bytes
  | .eachWithin => [0]
  | .firstWithin => [1]
  | .lastWithin => [2]
  | .allWithin => [3]

/-- The operators of constraints, with `IN` before `LE` and `GE`. -/
def encodeConstraintOp : Op → Bytes
  | .eq => [0]
  | .lt => [1]
  | .gt => [2]
  | .ne => [3]
  | .in_ => [4]
  | .le => [5]
  | .ge => [6]

/-- The tags that `decodeValType` of the server expects. -/
def encodeValType : ValType → Bytes
  | .int => [0]
  | .float => [1]
  | .bool => [2]
  | .string => [3]

/-- Whether a reference or a parameter is about a state, a negation or an aggregate. -/
def encodeStateType : StateType → Bytes
  | .state => [0]
  | .neg => [1]
  | .agg => [2]

/-- `NONE` has a tag of its own. -/
def encodeAggregateFun : AggregateFun → Bytes
  | .none => [0]
  | .avg => [1]
  | .count => [2]
  | .min => [3]
  | .max => [4]
  | .sum => [5]

/-- The operators of trees, of which the last two are for Booleans. -/
def encodeOp : OpTreeOperation → Bytes
  | .add => [0]
  | .sub => [1]
  | .mul => [2]
  | .div => [3]
  | .and => [4]
  | .or => [5]

/-- The tags of the five packets of the C++ library. -/
def encodePktType : PktType → Bytes
  | .pubPkt => [0]
  | .rulePkt => [1]
  | .subPkt => [2]
  | .advPkt => [3]
  | .joinPkt => [4]

/-! ## Records -/

/-- A value without its type, which the caller writes in front. -/
def encodeValue : Value → Bytes
  | .int v => encodeInt v
  | .float bits => encodeFloat bits
  | .bool b _ => encodeBoolean b
  | .string s => encodeString s

/-- The member that the type of the constraint names. -/
def encodeConstraintVal (source : Constraint) : Bytes :=
  match source.type with
  | .int => encodeInt source.intVal
  | .float => encodeFloat source.floatVal
  | .bool => encodeBoolean source.boolVal
  | .string => encodeString source.stringVal

/-- Name, operator and type come before the only member that is sent. -/
def encodeConstraint (source : Constraint) : Bytes :=
  encodeString source.name ++ (encodeConstraintOp source.op ++
    (encodeValType source.type ++ encodeConstraintVal source))

/-- An attribute of a publication or a static attribute of a template. -/
def encodeAttribute (source : Attribute) : Bytes :=
  encodeString source.name ++ (encodeValType source.type ++ encodeValue source.value)

/-- A collection: its size and its elements. -/
def encodeCollection {α : Type} (encode : α → Bytes) (source : List α) : Bytes :=
  encodeInt source.length ++ source.flatMap encode

/-- The window is sent as a `long`, also for the root, which has none. -/
def encodePredicate (source : EventPredicate) : Bytes :=
  encodeInt source.eventType ++ (encodeCollection encodeConstraint source.constraints ++
    (encodeInt source.refersTo ++ (encodeLong source.win ++ encodeCompKind source.kind)))

/-- The kind of a reference, `RULEPKT` or `STATIC`, and its members. -/
def encodeValueReference : OpValueReference → Bytes
  | .rulePkt index stype name =>
    [0] ++ (encodeInt index ++ (encodeStateType stype ++ encodeString name))
  | .static value => [1] ++ (encodeValType value.type ++ encodeValue value)

/-- The kind of a node, `LEAF` or `INNER`, its type and its parts. -/
def encodeOpTree : OpTree → Bytes
  | .leaf valueRef valType => [0] ++ (encodeValType valType ++ encodeValueReference valueRef)
  | .inner leftTree rightTree op valType =>
    [1] ++ (encodeValType valType ++
      (encodeOpTree leftTree ++ (encodeOpTree rightTree ++ encodeOp op)))

/-- The operator, what the parameter is about, its type and its two sides. -/
def encodeParameter (source : ComplexParameter) : Bytes :=
  encodeConstraintOp source.operation ++ (encodeStateType source.sType ++
    (encodeValType source.type ++ (encodeOpTree source.leftTree ++ encodeOpTree source.rightTree)))

/-- `lowerTime` is sent whether or not it is considered. -/
def encodeNegation (source : Negation) : Bytes :=
  encodeInt source.eventType ++ (encodeCollection encodeConstraint source.constraints ++
    (encodeInt source.lowerId ++ (encodeLong source.lowerTime ++ encodeInt source.upperId)))

/-- As a negation, followed by the function and the attribute it is computed on. -/
def encodeAggregate (source : TAggregate) : Bytes :=
  encodeInt source.eventType ++ (encodeCollection encodeConstraint source.constraints ++
    (encodeInt source.lowerId ++ (encodeLong source.lowerTime ++ (encodeInt source.upperId ++
      (encodeAggregateFun source.fun_ ++ encodeString source.name)))))

/-- One entry of the map of computed attributes. -/
def encodeTemplateAttr (source : CString × OpTree) : Bytes :=
  encodeString source.1 ++ encodeOpTree source.2

/-- The computed attributes come first, then the static ones. -/
def encodeTemplate (source : EventTemplate) : Bytes :=
  encodeInt source.eventType ++ (encodeCollection encodeTemplateAttr source.attributes ++
    encodeCollection encodeAttribute source.staticAttributes)

/-- One entry of a map. -/
def encodeEntry {α : Type} (encode : α → Bytes) (source : List α) (key : Nat) : Bytes :=
  encodeInt key ++ ((source[key]?).map encode).getD []

/-- A map: its size and its entries, in the order of iteration. -/
def encodeMap {α : Type} (encode : α → Bytes) (source : List α) (order : List Nat) : Bytes :=
  encodeInt source.length ++ order.flatMap (encodeEntry encode source)

/-- What follows the packet's type and length. -/
def encodeBody (source : RulePkt) (orders : Orders) : Bytes :=
  encodeMap encodePredicate source.predicates orders.predicates ++
    (encodeMap encodeParameter source.parameters orders.parameters ++
    (encodeMap encodeAggregate source.aggregates orders.aggregates ++
    (encodeMap encodeNegation source.negations orders.negations ++
    (encodeTemplate source.eventTemplate ++ encodeCollection encodeInt orders.consuming))))

/-! ## Sizes -/

/-- A length of four bytes and one byte for each character. -/
def getNumBytesString (source : CString) : Nat := source.length + 4

/-- The bytes of `encodeValue`. -/
def getNumBytesValue : Value → Nat
  | .int _ => 4
  | .float _ => 4
  | .bool _ _ => 1
  | .string s => getNumBytesString s

/-- The tags of the operator and of the type are one byte each. -/
def getNumBytesConstraint (source : Constraint) : Nat :=
  getNumBytesString source.name + 1 + 1 +
    match source.type with
    | .int => 4
    | .float => 4
    | .bool => 1
    | .string => getNumBytesString source.stringVal

/-- The bytes of `encodeAttribute`. -/
def getNumBytesAttribute (source : Attribute) : Nat :=
  getNumBytesString source.name + 1 + getNumBytesValue source.value

/-- The loop over a collection, from the four bytes of its size. -/
def getNumBytesCollection {α : Type} (getNumBytes : α → Nat) (source : List α) : Nat :=
  source.foldl (fun size el => size + getNumBytes el) 4

/-- The bytes of `encodePredicate`, in the order of its members. -/
def getNumBytesPredicate (source : EventPredicate) : Nat :=
  4 + getNumBytesCollection getNumBytesConstraint source.constraints + 4 + 8 + 1

/-- One byte for the kind, then the members. -/
def getNumBytesValueReference : OpValueReference → Nat
  | .rulePkt _ _ name => 1 + 4 + 1 + getNumBytesString name
  | .static value => 1 + 1 + getNumBytesValue value

/-- One byte for the kind of a node and one for its type. -/
def getNumBytesOpTree : OpTree → Nat
  | .leaf valueRef _ => 1 + 1 + getNumBytesValueReference valueRef
  | .inner leftTree rightTree _ _ =>
    1 + 1 + getNumBytesOpTree leftTree + getNumBytesOpTree rightTree + 1

/-- The right tree is measured first. -/
def getNumBytesParameter (source : ComplexParameter) : Nat :=
  1 + 1 + 1 + getNumBytesOpTree source.rightTree + getNumBytesOpTree source.leftTree

/-- The bytes of `encodeNegation`, in the order of its members. -/
def getNumBytesNegation (source : Negation) : Nat :=
  4 + getNumBytesCollection getNumBytesConstraint source.constraints + 4 + 8 + 4

/-- The bytes of `encodeAggregate`, in the order of its members. -/
def getNumBytesAggregate (source : TAggregate) : Nat :=
  4 + getNumBytesCollection getNumBytesConstraint source.constraints + 4 + 8 + 4 + 1 +
    getNumBytesString source.name

/-- The bytes of `encodeTemplateAttr`. -/
def getNumBytesTemplateAttr (source : CString × OpTree) : Nat :=
  getNumBytesString source.1 + getNumBytesOpTree source.2

/-- The bytes of `encodeTemplate`, both collections included. -/
def getNumBytesTemplate (source : EventTemplate) : Nat :=
  4 + getNumBytesCollection getNumBytesTemplateAttr source.attributes +
    getNumBytesCollection getNumBytesAttribute source.staticAttributes

/-- The loop over the keys of a map, from the four bytes of its size. -/
def getNumBytesMap {α : Type} (getNumBytes : α → Nat) (source : List α) (order : List Nat) : Nat :=
  order.foldl (fun size key => size + (4 + ((source[key]?).map getNumBytes).getD 0)) 4

/-- The length that is sent in front of a rule. -/
def getNumBytes (pkt : RulePkt) (orders : Orders) : Nat :=
  getNumBytesMap getNumBytesPredicate pkt.predicates orders.predicates +
    getNumBytesMap getNumBytesParameter pkt.parameters orders.parameters +
    getNumBytesMap getNumBytesAggregate pkt.aggregates orders.aggregates +
    getNumBytesMap getNumBytesNegation pkt.negations orders.negations +
    getNumBytesTemplate pkt.eventTemplate +
    getNumBytesCollection (fun _ => 4) orders.consuming

/-- A whole packet: type, length and body. -/
def encode (source : RulePkt) (orders : Orders) : Bytes :=
  encodePktType .rulePkt ++ (encodeInt (getNumBytes source orders) ++ encodeBody source orders)

/-! The traversal that measures a rule agrees with the one that writes it. -/

@[simp] theorem length_encodeInt (v : Int) : (encodeInt v).length = 4 := length_bigEndian 4 _

@[simp] theorem length_encodeLong (v : Int) : (encodeLong v).length = 8 := length_bigEndian 8 _

@[simp] theorem length_encodeFloat (f : CFloat) : (encodeFloat f).length = 4 := length_encodeInt _

@[simp] theorem length_encodeString (s : CString) :
    (encodeString s).length = getNumBytesString s := by
  simp [encodeString, getNumBytesString, Nat.add_comm]

@[simp] theorem length_encodeCompKind (kind : CompKind) : (encodeCompKind kind).length = 1 := by
  cases kind <;> rfl

@[simp] theorem length_encodeConstraintOp (op : Op) : (encodeConstraintOp op).length = 1 := by
  cases op <;> rfl

@[simp] theorem length_encodeValType (type : ValType) : (encodeValType type).length = 1 := by
  cases type <;> rfl

@[simp] theorem length_encodeStateType (type : StateType) : (encodeStateType type).length = 1 := by
  cases type <;> rfl

@[simp] theorem length_encodeAggregateFun (f : AggregateFun) :
    (encodeAggregateFun f).length = 1 := by
  cases f <;> rfl

@[simp] theorem length_encodeOp (op : OpTreeOperation) : (encodeOp op).length = 1 := by
  cases op <;> rfl

@[simp] theorem length_encodeValue (v : Value) : (encodeValue v).length = getNumBytesValue v := by
  cases v <;> simp [encodeValue, getNumBytesValue, encodeBoolean]

@[simp] theorem length_encodeConstraint (c : Constraint) :
    (encodeConstraint c).length = getNumBytesConstraint c := by
  have value : (encodeConstraintVal c).length = match c.type with
      | .int => 4
      | .float => 4
      | .bool => 1
      | .string => getNumBytesString c.stringVal := by
    unfold encodeConstraintVal
    cases c.type <;> simp [encodeBoolean]
  simp only [encodeConstraint, getNumBytesConstraint, List.length_append, length_encodeString,
    length_encodeConstraintOp, length_encodeValType, value]
  omega

@[simp] theorem length_encodeAttribute (a : Attribute) :
    (encodeAttribute a).length = getNumBytesAttribute a := by
  simp [encodeAttribute, getNumBytesAttribute, Nat.add_assoc]

/-- A loop that adds up sizes. -/
theorem foldl_add_eq {α : Type} (f : α → Nat) (xs : List α) (size : Nat) :
    xs.foldl (fun size x => size + f x) size = size + (xs.map f).sum := by
  induction xs generalizing size with
  | nil => simp
  | cons x rest ih =>
      rw [List.foldl_cons, ih, List.map_cons, List.sum_cons]
      omega

theorem length_encodeCollection {α : Type} {encode : α → Bytes} {size : α → Nat}
    (sized : ∀ x, (encode x).length = size x) (source : List α) :
    (encodeCollection encode source).length = getNumBytesCollection size source := by
  rw [encodeCollection, getNumBytesCollection, foldl_add_eq, List.length_append, length_encodeInt,
    List.length_flatMap]
  simp only [sized]

@[simp] theorem length_encodePredicate (p : EventPredicate) :
    (encodePredicate p).length = getNumBytesPredicate p := by
  simp only [encodePredicate, getNumBytesPredicate, List.length_append, length_encodeInt,
    length_encodeLong, length_encodeCompKind, length_encodeCollection length_encodeConstraint]
  omega

@[simp] theorem length_encodeValueReference (ref : OpValueReference) :
    (encodeValueReference ref).length = getNumBytesValueReference ref := by
  cases ref with
  | rulePkt index stype name =>
      simp [encodeValueReference, getNumBytesValueReference]
      omega
  | static value =>
      simp [encodeValueReference, getNumBytesValueReference]
      omega

@[simp] theorem length_encodeOpTree (tree : OpTree) :
    (encodeOpTree tree).length = getNumBytesOpTree tree := by
  induction tree with
  | leaf valueRef valType =>
      simp [encodeOpTree, getNumBytesOpTree]
      omega
  | inner left right op valType ihLeft ihRight =>
      simp [encodeOpTree, getNumBytesOpTree, ihLeft, ihRight]
      omega

@[simp] theorem length_encodeParameter (p : ComplexParameter) :
    (encodeParameter p).length = getNumBytesParameter p := by
  simp [encodeParameter, getNumBytesParameter]
  omega

@[simp] theorem length_encodeNegation (n : Negation) :
    (encodeNegation n).length = getNumBytesNegation n := by
  simp only [encodeNegation, getNumBytesNegation, List.length_append, length_encodeInt,
    length_encodeLong, length_encodeCollection length_encodeConstraint]
  omega

@[simp] theorem length_encodeAggregate (a : TAggregate) :
    (encodeAggregate a).length = getNumBytesAggregate a := by
  simp only [encodeAggregate, getNumBytesAggregate, List.length_append, length_encodeInt,
    length_encodeLong, length_encodeAggregateFun, length_encodeString,
    length_encodeCollection length_encodeConstraint]
  omega

theorem length_encodeTemplateAttr (a : CString × OpTree) :
    (encodeTemplateAttr a).length = getNumBytesTemplateAttr a := by
  simp [encodeTemplateAttr, getNumBytesTemplateAttr]

theorem length_encodeTemplate (t : EventTemplate) :
    (encodeTemplate t).length = getNumBytesTemplate t := by
  simp only [encodeTemplate, getNumBytesTemplate, List.length_append, length_encodeInt,
    length_encodeCollection length_encodeTemplateAttr,
    length_encodeCollection length_encodeAttribute]
  omega

theorem length_encodeMap {α : Type} {encode : α → Bytes} {size : α → Nat}
    (sized : ∀ x, (encode x).length = size x) (source : List α) (order : List Nat) :
    (encodeMap encode source order).length = getNumBytesMap size source order := by
  have entry : ∀ key, (encodeEntry encode source key).length =
      4 + ((source[key]?).map size).getD 0 := by
    intro key
    rw [encodeEntry, List.length_append, length_encodeInt]
    cases source[key]? with
    | none => rfl
    | some x => simp [sized]
  rw [encodeMap, getNumBytesMap, foldl_add_eq, List.length_append, length_encodeInt,
    List.length_flatMap]
  simp only [entry]

/-- The length field is the number of bytes of the body. -/
theorem length_encodeBody (rule : RulePkt) (orders : Orders) :
    (encodeBody rule orders).length = getNumBytes rule orders := by
  simp only [encodeBody, getNumBytes, List.length_append, length_encodeMap length_encodePredicate,
    length_encodeMap length_encodeParameter, length_encodeMap length_encodeAggregate,
    length_encodeMap length_encodeNegation, length_encodeTemplate,
    length_encodeCollection length_encodeInt]
  omega

end Marshaller

end TRex.Java
