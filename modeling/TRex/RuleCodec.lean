import Mathlib.Data.List.Induction
import TRex.RuleUnmarshaller

/-!
# From the Java client to the server

What the server makes of the bytes that the Java client writes for a rule. `Java.RulePkt.Same` says
that a C++ rule is the Java rule; `Java.RulePkt.Admissible` collects what the client is expected to
send. Reading is exact record by record, up to one thing: a C string ends at its first NUL, so what
is read back of a record is its image under `cut`.
-/

namespace TRex

open Wire

namespace Java

/-! ## The same rule on both sides -/

section ToCpp

variable (now pad : Nat) (junk : Constraint)

/-- Members that the type does not name are not sent. -/
def Constraint.toCpp (c : Constraint) : TRex.Constraint :=
  { name := c.name, op := c.op, type := c.type
    intVal := if c.type = .int then c.intVal else junk.intVal
    floatVal := if c.type = .float then c.floatVal else junk.floatVal
    boolVal := if c.type = .bool then c.boolVal else junk.boolVal
    stringVal := if c.type = .string then c.stringVal else junk.stringVal }

/-- A reference to an aggregate without a name has none on the other side. -/
def OpValueReference.toCpp : OpValueReference → TRex.OpValueReference
  | .rulePkt index stype name =>
    .rulePkt index stype (if stype = .agg ∧ name.length = 0 then none else some name)
  | .static value => .static (value.stored pad)

def OpTree.toCpp : OpTree → TRex.OpTree
  | .leaf valueRef valType => .leaf (valueRef.toCpp pad) valType
  | .inner leftTree rightTree op valType => .inner leftTree.toCpp rightTree.toCpp op valType

/-- A window is the same 64 bits. -/
def EventPredicate.toCpp (p : EventPredicate) : Predicate :=
  { eventType := p.eventType, constraints := p.constraints.map (Constraint.toCpp junk)
    refersTo := p.refersTo, win := Unmarshaller.timeOfLong p.win, kind := p.kind }

/-- The index a parameter is filed under. -/
def lastIndexOf (type : StateType) (leftTree rightTree : TRex.OpTree) : Int :=
  match type with
  | .state => max (TRex.RulePkt.findLastState leftTree) (TRex.RulePkt.findLastState rightTree)
  | .neg => max (TRex.RulePkt.findNegation leftTree) (TRex.RulePkt.findNegation rightTree)
  | .agg => max (TRex.RulePkt.findAggregate leftTree) (TRex.RulePkt.findAggregate rightTree)

def ComplexParameter.toCpp (p : ComplexParameter) : CPUParameter :=
  { operation := p.operation, type := p.sType, vtype := p.type
    leftTree := p.leftTree.toCpp pad, rightTree := p.rightTree.toCpp pad
    lastIndex := lastIndexOf p.sType (p.leftTree.toCpp pad) (p.rightTree.toCpp pad) }

/-- Time-based bounds have no lower state; of two states the later one is the lower bound, and the
time, which nothing considers then, is that of the call. -/
def Negation.toCpp (n : Negation) : TRex.Negation :=
  { eventType := n.eventType, constraints := n.constraints.map (Constraint.toCpp junk)
    lowerId := if n.lowerId < 0 then -1 else max n.lowerId n.upperId
    lowerTime := if n.lowerId < 0 then Unmarshaller.timeOfLong n.lowerTime else now
    upperId := if n.lowerId < 0 then n.upperId else min n.lowerId n.upperId }

def TAggregate.toCpp (a : TAggregate) : Aggregate :=
  { eventType := a.eventType, constraints := a.constraints.map (Constraint.toCpp junk)
    lowerId := if a.lowerId < 0 then -1 else max a.lowerId a.upperId
    lowerTime := if a.lowerId < 0 then Unmarshaller.timeOfLong a.lowerTime else now
    upperId := if a.lowerId < 0 then a.upperId else min a.lowerId a.upperId
    fun_ := a.fun_, name := a.name }

def EventTemplate.toCpp (t : EventTemplate) : CompositeEventTemplate :=
  { eventType := t.eventType, attributes := t.attributes.map fun a => (a.1, a.2.toCpp pad)
    staticAttributes := t.staticAttributes.map (Attribute.stored pad) }

/-- The C++ rule has the elements of the Java rule, in the same order. -/
structure RulePkt.Same (rule : RulePkt) (pkt : TRex.RulePkt) : Prop where
  predicates : pkt.predicates = rule.predicates.map (EventPredicate.toCpp junk)
  parameters : pkt.complexParameters = rule.parameters.map (ComplexParameter.toCpp pad)
  noOthers : pkt.parameters = []
  aggregates : pkt.aggregates = rule.aggregates.map (TAggregate.toCpp now junk)
  negations : pkt.negations = rule.negations.map (Negation.toCpp now junk)
  template : pkt.ceTemplate = some (rule.eventTemplate.toCpp pad)
  consuming : ∀ i : Nat, i ∈ pkt.consuming ↔ (i : Int) ∈ rule.consuming

end ToCpp

/-! ## What the client sends -/

/-- An ASCII string that fits into an array of one more than `limit` characters. -/
structure Ascii (limit : Nat) (s : CString) : Prop where
  chars : ∀ c ∈ s, c.toNat < 128
  short : s.length ≤ limit

def IsLong (v : Int) : Prop := -2 ^ 63 ≤ v ∧ v < 2 ^ 63

instance (v : Int) : Decidable (IsInt v) := inferInstanceAs (Decidable (_ ∧ _))

instance (v : Int) : Decidable (IsLong v) := inferInstanceAs (Decidable (_ ∧ _))

/-- A collection has at most as many elements as an `int` can count. -/
def FitsCounter {α : Type} (xs : List α) : Prop := xs.length < 2 ^ 31

def ValueOk : Value → Prop
  | .int v => IsInt v
  | .float _ => True
  | .bool _ _ => True
  | .string s => Ascii stringValLen s

structure AttributeOk (a : Attribute) : Prop where
  name : Ascii nameLen a.name
  value : ValueOk a.value

structure ConstraintOk (c : Constraint) : Prop where
  name : Ascii nameLen c.name
  intVal : IsInt c.intVal
  stringVal : c.type = .string → Ascii stringValLen c.stringVal

structure ConstraintsOk (cs : List Constraint) : Prop where
  countable : FitsCounter cs
  each : ∀ c ∈ cs, ConstraintOk c

def OpValueReference.Ok : OpValueReference → Prop
  | .rulePkt index _ name => IsInt index ∧ Ascii nameLen name
  | .static value => ValueOk value

def OpTree.Ok : OpTree → Prop
  | .leaf valueRef _ => valueRef.Ok
  | .inner leftTree rightTree _ _ => leftTree.Ok ∧ rightTree.Ok

/-- The tree refers to an element of the given kind. -/
def OpTree.RefersTo (kind : StateType) : OpTree → Prop
  | .leaf (.rulePkt index stype _) _ => stype = kind ∧ 0 ≤ index
  | .leaf (.static _) _ => False
  | .inner leftTree rightTree _ _ => leftTree.RefersTo kind ∨ rightTree.RefersTo kind

structure EventPredicate.Ok (p : EventPredicate) : Prop where
  eventType : IsInt p.eventType
  constraints : ConstraintsOk p.constraints
  refersTo : IsInt p.refersTo
  win : IsLong p.win

structure ComplexParameter.Ok (p : ComplexParameter) : Prop where
  leftTree : p.leftTree.Ok
  rightTree : p.rightTree.Ok
  ownKind : p.leftTree.RefersTo p.sType ∨ p.rightTree.RefersTo p.sType

/-- Bounds in range: an upper state, and a time or another state as the lower bound. -/
structure BoundsOk (numPredicates : Nat) (lowerId lowerTime upperId : Int) : Prop where
  lower : IsInt lowerId
  time : IsLong lowerTime
  upper : 0 ≤ upperId ∧ upperId < numPredicates
  between : lowerId < 0 ∨ (lowerId < numPredicates ∧ lowerId ≠ upperId)

structure Negation.Ok (numPredicates : Nat) (n : Negation) : Prop where
  eventType : IsInt n.eventType
  constraints : ConstraintsOk n.constraints
  bounds : BoundsOk numPredicates n.lowerId n.lowerTime n.upperId

structure TAggregate.Ok (numPredicates : Nat) (a : TAggregate) : Prop where
  eventType : IsInt a.eventType
  constraints : ConstraintsOk a.constraints
  bounds : BoundsOk numPredicates a.lowerId a.lowerTime a.upperId
  name : Ascii nameLen a.name

structure EventTemplate.Ok (t : EventTemplate) : Prop where
  eventType : IsInt t.eventType
  countable : FitsCounter t.attributes
  attributes : ∀ a ∈ t.attributes, Ascii nameLen a.1 ∧ a.2.Ok
  countableStatic : FitsCounter t.staticAttributes
  staticAttributes : ∀ a ∈ t.staticAttributes, AttributeOk a

/-- A rule as a client builds it: the root first, every other predicate referring to an earlier one,
and every index in range. -/
structure RulePkt.Admissible (rule : RulePkt) : Prop where
  countable : FitsCounter rule.predicates ∧ FitsCounter rule.parameters ∧
    FitsCounter rule.aggregates ∧
    FitsCounter rule.negations ∧ FitsCounter rule.consuming
  predicates : ∀ p ∈ rule.predicates, p.Ok
  root : ∀ p, rule.predicates[0]? = some p → p.refersTo = -1 ∧ p.win = 0 ∧ p.kind = .eachWithin
  refersTo : ∀ (i : Nat) (p : EventPredicate), rule.predicates[i]? = some p → 1 ≤ i →
    0 ≤ p.refersTo ∧ p.refersTo < i
  parameters : ∀ p ∈ rule.parameters, p.Ok
  aggregates : ∀ a ∈ rule.aggregates, a.Ok rule.predicates.length
  negations : ∀ n ∈ rule.negations, n.Ok rule.predicates.length
  template : rule.eventTemplate.Ok
  consuming : ∀ i ∈ rule.consuming, 0 ≤ i ∧ i < rule.predicates.length

/-! ## NULs -/

/-- The value with its string cut at the first NUL; the same for the records below. -/
def cutValue : Value → Value
  | .string s => .string s.cut
  | v => v

def cutAttribute (a : Attribute) : Attribute := ⟨a.name.cut, cutValue a.value⟩

def cutConstraint (c : Constraint) : Constraint :=
  { c with
    name := c.name.cut
    stringVal := if c.type = .string then c.stringVal.cut else c.stringVal }

def OpValueReference.cut : OpValueReference → OpValueReference
  | .rulePkt index stype name => .rulePkt index stype name.cut
  | .static value => .static (cutValue value)

def OpTree.cut : OpTree → OpTree
  | .leaf valueRef valType => .leaf valueRef.cut valType
  | .inner leftTree rightTree op valType => .inner leftTree.cut rightTree.cut op valType

def EventPredicate.cut (p : EventPredicate) : EventPredicate :=
  { p with constraints := p.constraints.map cutConstraint }

def ComplexParameter.cut (p : ComplexParameter) : ComplexParameter :=
  { p with leftTree := p.leftTree.cut, rightTree := p.rightTree.cut }

def Negation.cut (n : Negation) : Negation :=
  { n with constraints := n.constraints.map cutConstraint }

def TAggregate.cut (a : TAggregate) : TAggregate :=
  { a with constraints := a.constraints.map cutConstraint, name := a.name.cut }

def EventTemplate.cut (t : EventTemplate) : EventTemplate :=
  { t with
    attributes := t.attributes.map fun a => (a.1.cut, a.2.cut)
    staticAttributes := t.staticAttributes.map cutAttribute }

def RulePkt.cut (rule : RulePkt) : RulePkt :=
  { predicates := rule.predicates.map EventPredicate.cut
    parameters := rule.parameters.map ComplexParameter.cut
    negations := rule.negations.map Negation.cut
    aggregates := rule.aggregates.map TAggregate.cut
    consuming := rule.consuming
    eventTemplate := rule.eventTemplate.cut }

/-- No name and no string that is sent contains a NUL: cutting them changes nothing. -/
def RulePkt.NulFree (rule : RulePkt) : Prop := rule.cut = rule

/-- Name and string are as short as the decoder asserts. -/
def ShortAttribute (a : Attribute) : Prop :=
  a.name.length < nameLen ∧ ∀ s, a.value = .string s → s.length < stringValLen

def EventTemplate.StaticShort (t : EventTemplate) : Prop :=
  ∀ a ∈ t.staticAttributes, ShortAttribute a

end Java

/-! ## Reading the client's bytes -/

namespace Unmarshaller

open Java

section Records

variable {pad : Nat} {junk : Constraint}

theorem length_cut_le (s : CString) : s.cut.length ≤ s.length :=
  (List.takeWhile_prefix _).length_le

theorem reads_javaString {limit : Nat} {s : CString} (ascii : Ascii limit s)
    (small : limit ≤ 15) :
    Reads decodeString (Java.Marshaller.encodeString s) s.cut := by
  have short := ascii.short
  apply reads_cut
  · intro c mem
    have := ascii.chars c mem
    omega
  · omega

theorem reads_javaStringInto {limit : Nat} {s : CString} (ascii : Ascii limit s)
    (small : limit ≤ 15) :
    Reads (decodeStringInto limit) (Java.Marshaller.encodeString s) s.cut :=
  (reads_javaString ascii small).last
    (Reads.require ((length_cut_le s).trans ascii.short) (Reads.pure _))

theorem javaFloat_eq (bits : CFloat) :
    Java.Marshaller.encodeFloat bits = TRex.Marshaller.encodeFloat bits := by
  unfold Java.Marshaller.encodeFloat Java.Marshaller.encodeInt TRex.Marshaller.encodeFloat
  have small := bits.toNat_lt
  congr 1
  omega

theorem reads_javaFloat (bits : CFloat) :
    Reads decodeFloat (Java.Marshaller.encodeFloat bits) bits := by
  rw [javaFloat_eq]
  exact reads_float bits

theorem reads_javaLong {v : Int} (inRange : IsLong v) :
    Reads decodeLong (Java.Marshaller.encodeLong v) v := by
  have small : (v % 2 ^ 64).toNat < 2 ^ 64 := by omega
  have read := reads_long small
  have same : Int.bmod ((v % 2 ^ 64).toNat : Int) (2 ^ 64) = v := by
    obtain ⟨lower, upper⟩ := inRange
    rw [Int.bmod_def]
    split <;> omega
  rw [same] at read
  exact read

theorem reads_compKind (kind : CompKind) :
    Reads decodeCompKind (Java.Marshaller.encodeCompKind kind) kind := by
  cases kind <;> exact fun _ => rfl

theorem reads_constraintOp (op : Op) :
    Reads decodeConstraintOp (Java.Marshaller.encodeConstraintOp op) op := by
  cases op <;> exact fun _ => rfl

theorem reads_javaValType (type : ValType) :
    Reads decodeValType (Java.Marshaller.encodeValType type) type := by
  cases type <;> exact fun _ => rfl

theorem reads_stateType (type : StateType) :
    Reads decodeStateType (Java.Marshaller.encodeStateType type) type := by
  cases type <;> exact fun _ => rfl

theorem reads_aggregateFun (f : AggregateFun) :
    Reads decodeAggregateFun (Java.Marshaller.encodeAggregateFun f) f := by
  cases f <;> exact fun _ => rfl

theorem reads_opTreeOperation (op : OpTreeOperation) :
    Reads decodeOpTreeOperation (Java.Marshaller.encodeOp op) op := by
  cases op <;> exact fun _ => rfl

theorem reads_constraint {c : Constraint} (ok : ConstraintOk c) :
    Reads (decodeConstraint junk) (Java.Marshaller.encodeConstraint c)
      (Constraint.toCpp junk (cutConstraint c)) := by
  refine (reads_javaStringInto ok.name (by decide)).bind
    ((reads_constraintOp c.op).bind ((reads_javaValType c.type).bind ?_))
  unfold Java.Marshaller.encodeConstraintVal Constraint.toCpp cutConstraint
  cases type : c.type with
  | int => exact (reads_int ok.intVal).last (Reads.pure _)
  | float => exact (reads_javaFloat c.floatVal).last (Reads.pure _)
  | bool => exact (reads_bool c.boolVal).last (Reads.pure _)
  | string =>
      exact (reads_javaStringInto (ok.stringVal type) (by decide)).last (Reads.pure _)

theorem reads_constraints {cs : List Constraint} (ok : ConstraintsOk cs) :
    Reads (decodeConstraints junk)
      (Java.Marshaller.encodeCollection Java.Marshaller.encodeConstraint cs)
      ((cs.map cutConstraint).map (Constraint.toCpp junk)) := by
  rw [List.map_map]
  exact (reads_count ok.countable).bind (Reads.require (by omega)
    (Reads.times fun c mem => reads_constraint (ok.each c mem)))

theorem reads_predicate {p : EventPredicate} (ok : p.Ok) :
    Reads (decodeEventPredicate junk) (Java.Marshaller.encodePredicate p) (p.cut.toCpp junk) :=
  (reads_int ok.eventType).bind ((reads_constraints ok.constraints).bind
    ((reads_int ok.refersTo).bind ((reads_javaLong ok.win).bind
      ((reads_compKind p.kind).last (Reads.pure _)))))

/-- What is read of a negation: the builder has not seen it yet. -/
def rawNegation (junk : Constraint) (n : Java.Negation) : TRex.Negation :=
  { eventType := n.eventType, constraints := n.constraints.map (Constraint.toCpp junk)
    lowerId := n.lowerId, lowerTime := timeOfLong n.lowerTime, upperId := n.upperId }

def rawAggregate (junk : Constraint) (a : TAggregate) : Aggregate :=
  { eventType := a.eventType, constraints := a.constraints.map (Constraint.toCpp junk)
    lowerId := a.lowerId, lowerTime := timeOfLong a.lowerTime, upperId := a.upperId
    fun_ := a.fun_, name := a.name }

theorem isInt_upperId {numPredicates : Nat} {lowerId lowerTime upperId : Int}
    (few : numPredicates < 2 ^ 31) (bounds : BoundsOk numPredicates lowerId lowerTime upperId) :
    IsInt upperId := by
  obtain ⟨nonneg, less⟩ := bounds.upper
  constructor <;> omega

theorem reads_negation {numPredicates : Nat} (few : numPredicates < 2 ^ 31) {n : Java.Negation}
    (ok : n.Ok numPredicates) :
    Reads (decodeNegation junk) (Java.Marshaller.encodeNegation n) (rawNegation junk n.cut) :=
  (reads_int ok.eventType).bind ((reads_constraints ok.constraints).bind
    ((reads_int ok.bounds.lower).bind ((reads_javaLong ok.bounds.time).bind
      ((reads_int (isInt_upperId few ok.bounds)).last (Reads.pure _)))))

theorem reads_aggregate {numPredicates : Nat} (few : numPredicates < 2 ^ 31) {a : TAggregate}
    (ok : a.Ok numPredicates) :
    Reads (decodeAggregate junk) (Java.Marshaller.encodeAggregate a) (rawAggregate junk a.cut) :=
  (reads_int ok.eventType).bind ((reads_constraints ok.constraints).bind
    ((reads_int ok.bounds.lower).bind ((reads_javaLong ok.bounds.time).bind
      ((reads_int (isInt_upperId few ok.bounds)).bind ((reads_aggregateFun a.fun_).bind
        ((reads_javaStringInto ok.name (by decide)).last (Reads.pure _)))))))

theorem reads_staticValueReference {v : Value} (ok : ValueOk v) :
    Reads (decodeStaticValueReference pad)
      (Java.Marshaller.encodeValType v.type ++ Java.Marshaller.encodeValue v)
      (.static ((cutValue v).stored pad)) := by
  refine (reads_javaValType v.type).bind ?_
  cases v with
  | int v => exact (reads_int ok).last (Reads.pure _)
  | float bits => exact (reads_javaFloat bits).last (Reads.pure _)
  | bool b _ => exact (reads_bool b).last (Reads.pure _)
  | string s => exact (reads_javaStringInto ok (by decide)).last (Reads.pure _)

theorem reads_rulePktReference {index : Int} {stype : StateType} {name : CString}
    (inRange : IsInt index) (ascii : Ascii nameLen name) :
    Reads decodeRulePktReference
      (Java.Marshaller.encodeInt index ++
        (Java.Marshaller.encodeStateType stype ++ Java.Marshaller.encodeString name))
      ((Java.OpValueReference.rulePkt index stype name.cut).toCpp pad) := by
  refine (reads_int inRange).bind ((reads_stateType stype).bind
    ((reads_javaString ascii (by decide)).last ?_))
  simp only [Java.OpValueReference.toCpp]
  by_cases nameless : stype = .agg ∧ name.cut.length = 0
  · rw [if_pos nameless, if_pos nameless, nameless.1]
    exact Reads.pure _
  · rw [if_neg nameless, if_neg nameless]
    exact Reads.pure _

theorem reads_valueReference {ref : Java.OpValueReference} (ok : ref.Ok) :
    Reads (decodeValueReference pad) (Java.Marshaller.encodeValueReference ref)
      (ref.cut.toCpp pad) := by
  cases ref with
  | rulePkt index stype name =>
      exact (Reads.byte 0).bind (reads_rulePktReference ok.1 ok.2)
  | static value => exact (Reads.byte 1).bind (reads_staticValueReference ok)

/-- The number of levels of a tree. -/
def depth : Java.OpTree → Nat
  | .leaf _ _ => 1
  | .inner leftTree rightTree _ _ => max (depth leftTree) (depth rightTree) + 1

theorem depth_le_length (tree : Java.OpTree) :
    depth tree ≤ (Java.Marshaller.encodeOpTree tree).length := by
  induction tree with
  | leaf valueRef valType => simp [depth, Java.Marshaller.encodeOpTree]
  | inner left right op valType ihLeft ihRight =>
      simp only [depth, Java.Marshaller.encodeOpTree, List.length_append, List.length_singleton]
      omega

theorem reads_opTreeWithin {tree : Java.OpTree} (ok : tree.Ok) {fuel : Nat}
    (enough : depth tree ≤ fuel) :
    Reads (decodeOpTreeWithin pad fuel) (Java.Marshaller.encodeOpTree tree)
      (tree.cut.toCpp pad) := by
  induction tree generalizing fuel with
  | leaf valueRef valType =>
      obtain ⟨fuel, rfl⟩ := Nat.exists_eq_add_of_le' enough
      exact (Reads.byte 0).bind ((reads_javaValType valType).bind
        ((reads_valueReference ok).last (Reads.pure _)))
  | inner left right op valType ihLeft ihRight =>
      simp only [depth] at enough
      obtain ⟨fuel, rfl⟩ : ∃ k, fuel = k + 1 := ⟨fuel - 1, by omega⟩
      exact (Reads.byte 1).bind ((reads_javaValType valType).bind
        ((ihLeft ok.1 (by omega)).bind ((ihRight ok.2 (by omega)).bind
          ((reads_opTreeOperation op).last (Reads.pure _)))))

theorem reads_opTree {tree : Java.OpTree} (ok : tree.Ok) :
    Reads (decodeOpTree pad) (Java.Marshaller.encodeOpTree tree) (tree.cut.toCpp pad) := by
  intro rest
  have deep := depth_le_length tree
  have enough : depth tree ≤ (Java.Marshaller.encodeOpTree tree ++ rest).length := by
    rw [List.length_append]
    omega
  exact reads_opTreeWithin ok enough rest

/-- What is read of a parameter, before the builder looks for its index. -/
def rawParameter (pad : Nat) (p : Java.ComplexParameter) : TRex.ComplexParameter :=
  { operation := p.operation, type := p.sType, vtype := p.type
    leftTree := p.leftTree.toCpp pad, rightTree := p.rightTree.toCpp pad }

theorem reads_parameter {p : Java.ComplexParameter} (ok : p.Ok) :
    Reads (decodeParameter pad) (Java.Marshaller.encodeParameter p) (rawParameter pad p.cut) :=
  (reads_constraintOp p.operation).bind ((reads_stateType p.sType).bind
    ((reads_javaValType p.type).bind ((reads_opTree ok.leftTree).bind
      ((reads_opTree ok.rightTree).last (Reads.pure _)))))

theorem reads_templateAttr {a : CString × Java.OpTree} (name : Ascii nameLen a.1) (tree : a.2.Ok) :
    Reads (decodeTemplateAttr pad) (Java.Marshaller.encodeTemplateAttr a)
      (a.1.cut, a.2.cut.toCpp pad) :=
  (reads_javaString name (by decide)).bind ((reads_opTree tree).last (Reads.pure _))

theorem reads_javaValue {v : Value} (ok : ValueOk v)
    (short : ∀ s, cutValue v = .string s → s.length < stringValLen) :
    Reads (decodeValue pad v.type) (Java.Marshaller.encodeValue v) ((cutValue v).stored pad) := by
  cases v with
  | int v => exact (reads_int ok).last (Reads.pure _)
  | float bits => exact (reads_javaFloat bits).last (Reads.pure _)
  | bool b _ => exact (reads_bool b).last (Reads.pure _)
  | string s =>
      exact (reads_javaString ok (by decide)).last (Reads.require (short s.cut rfl) (Reads.pure _))

theorem reads_javaAttribute {a : Attribute} (ok : AttributeOk a)
    (short : ShortAttribute (cutAttribute a)) :
    Reads (decodeAttribute pad) (Java.Marshaller.encodeAttribute a)
      ((cutAttribute a).stored pad) :=
  (reads_javaString ok.name (by decide)).bind (Reads.require short.1
    ((reads_javaValType a.type).bind ((reads_javaValue ok.value short.2).last (Reads.pure _))))

theorem refuses_javaValue {v : Value} (ok : ValueOk v)
    (long : ¬ ∀ s, cutValue v = .string s → s.length < stringValLen) :
    Refuses (decodeValue pad v.type) (Java.Marshaller.encodeValue v) := by
  cases v with
  | string s =>
      refine (reads_javaString ok (by decide)).last_refuses (Refuses.require ?_ _ _)
      intro short
      refine long fun s' same => ?_
      cases same
      exact short
  | int v => exact absurd (fun s same => nomatch same) long
  | float bits => exact absurd (fun s same => nomatch same) long
  | bool b pad => exact absurd (fun s same => nomatch same) long

/-- The assertions stop the decoder at a name or a string that is too long. -/
theorem refuses_javaAttribute {a : Attribute} (ok : AttributeOk a)
    (long : ¬ ShortAttribute (cutAttribute a)) :
    Refuses (decodeAttribute pad) (Java.Marshaller.encodeAttribute a) := by
  refine (reads_javaString ok.name (by decide)).bind_refuses ?_
  by_cases name : a.name.cut.length < nameLen
  · have passes : Wire.require (a.name.cut.length < nameLen) = (pure () : Decoder Unit) :=
      if_pos name
    rw [passes, pure_bind]
    refine (reads_javaValType a.type).bind_refuses ?_
    exact (refuses_javaValue ok.value fun short => long ⟨name, short⟩).last _
  · exact Refuses.require name _ _

theorem reads_template {t : EventTemplate} (ok : t.Ok) (short : t.cut.StaticShort) :
    Reads (decodeEventTemplate pad) (Java.Marshaller.encodeTemplate t) (t.cut.toCpp pad) := by
  unfold Java.Marshaller.encodeTemplate Java.Marshaller.encodeCollection
  rw [List.append_assoc]
  refine (reads_int ok.eventType).bind ((reads_count ok.countable).bind
    ((Reads.times fun a mem => reads_templateAttr (ok.attributes a mem).1
      (ok.attributes a mem).2).bind ((reads_count ok.countableStatic).bind
    ((Reads.times fun a mem => reads_javaAttribute (ok.staticAttributes a mem)
      (short _ (List.mem_map_of_mem mem))).last ?_))))
  simp only [EventTemplate.toCpp, EventTemplate.cut, List.map_map]
  exact Reads.pure _

theorem refuses_template {t : EventTemplate} (ok : t.Ok) (long : ¬ t.cut.StaticShort) :
    Refuses (decodeEventTemplate pad) (Java.Marshaller.encodeTemplate t) := by
  unfold Java.Marshaller.encodeTemplate Java.Marshaller.encodeCollection
  rw [List.append_assoc]
  refine (reads_int ok.eventType).bind_refuses ((reads_count ok.countable).bind_refuses
    ((Reads.times fun a mem => reads_templateAttr (ok.attributes a mem).1
      (ok.attributes a mem).2).bind_refuses ((reads_count ok.countableStatic).bind_refuses
    (Refuses.last (Refuses.times ?_ ?_) _))))
  · intro a mem
    by_cases short : ShortAttribute (cutAttribute a)
    · exact .inl ⟨_, reads_javaAttribute (ok.staticAttributes a mem) short⟩
    · exact .inr (refuses_javaAttribute (ok.staticAttributes a mem) short)
  · simp only [EventTemplate.StaticShort, EventTemplate.cut, List.forall_mem_map,
      not_forall] at long
    obtain ⟨a, mem, tooLong⟩ := long
    exact ⟨a, mem, refuses_javaAttribute (ok.staticAttributes a mem) tooLong⟩

end Records

/-! ## Maps -/

section Maps

variable {α β : Type} {d : Decoder α} {enc : β → Bytes} {val : β → α} {xs : List β}
  {order : List Nat}

/-- The entries of a map in the order of iteration. -/
def visited (xs : List β) (order : List Nat) : List (β × Nat) :=
  order.filterMap fun key => (xs[key]?).map fun x => (x, key)

theorem visited_range (xs : List β) : visited xs (List.range xs.length) = xs.zipIdx := by
  induction xs using List.reverseRecOn with
  | nil => rfl
  | append_singleton xs x ih =>
      have before : visited (xs ++ [x]) (List.range xs.length) = xs.zipIdx := by
        rw [← ih]
        apply List.filterMap_congr
        intro key mem
        rw [List.getElem?_append_left (List.mem_range.mp mem)]
      rw [List.length_append, List.length_singleton, List.range_succ, visited,
        List.filterMap_append, List.zipIdx_append]
      exact congrArg₂ _ before (by simp)

theorem visited_perm (visits : order.Perm (List.range xs.length)) :
    (visited xs order).Perm xs.zipIdx := by
  rw [← visited_range]
  exact visits.filterMap _

/-- What is written for a map is what is written for its entries. -/
theorem encodeMap_eq (visits : order.Perm (List.range xs.length)) :
    Java.Marshaller.encodeMap enc xs order = Java.Marshaller.encodeInt xs.length ++
      (visited xs order).flatMap fun x => Java.Marshaller.encodeInt x.2 ++ enc x.1 := by
  have keys : ∀ key ∈ order, key < xs.length := fun key mem =>
    List.mem_range.mp (visits.subset mem)
  unfold Java.Marshaller.encodeMap visited
  congr 1
  clear visits
  induction order with
  | nil => rfl
  | cons key rest ih =>
      have less := keys key List.mem_cons_self
      rw [List.flatMap_cons, ih fun key' mem => keys key' (List.mem_cons_of_mem key mem),
        List.filterMap_cons, Java.Marshaller.encodeEntry, List.getElem?_eq_getElem less]
      rfl

/-- The decoded map holds the entries in the order of their keys, whatever the order of
iteration. -/
theorem reads_map (visits : order.Perm (List.range xs.length)) (countable : FitsCounter xs)
    (each : ∀ x ∈ xs, Reads d (enc x) (val x)) :
    Reads (decodeMap d) (Java.Marshaller.encodeMap enc xs order)
      (xs.zipIdx.map fun x => ((x.2 : Int), val x.1)) := by
  have perm := visited_perm visits
  have length : (visited xs order).length = xs.length := by
    rw [perm.length_eq, List.length_zipIdx]
  have entries : ∀ x ∈ visited xs order, Reads (do
      let key ← decodeInt
      let value ← d
      return (key, value)) (Java.Marshaller.encodeInt x.2 ++ enc x.1) ((x.2 : Int), val x.1) := by
    rintro ⟨x, key⟩ mem
    have inMap : (x, key) ∈ xs.zipIdx := perm.subset mem
    have less : key < xs.length := by
      have := List.mem_zipIdx_iff_getElem?.mp inMap
      exact (List.getElem?_eq_some_iff.mp this).1
    unfold FitsCounter at countable
    exact (reads_count (by omega)).bind
      ((each x (List.fst_mem_of_mem_zipIdx inMap)).last (Reads.pure _))
  have sorted : OrdMap.Sorted (xs.zipIdx.map fun x => ((x.2 : Int), val x.1)) := by
    have increasing : (xs.zipIdx.map Prod.snd).Pairwise (· < ·) := by
      rw [List.zipIdx_map_snd]
      exact List.pairwise_lt_range'
    rw [OrdMap.Sorted, List.pairwise_map]
    exact (List.pairwise_map.mp increasing).imp fun less => by simpa using less
  have law : ∀ a b : Int, decide (a < b) = true ↔ a < b := fun a b => decide_eq_true_iff
  have inserted :=
    OrdMap.foldl_insert_of_perm law (perm.map fun x => ((x.2 : Int), val x.1)) sorted
  rw [encodeMap_eq visits]
  refine (reads_count countable).bind ?_
  rw [Int.toNat_natCast, ← length]
  refine (Reads.times entries).last ?_
  rw [inserted]
  exact Reads.pure _

end Maps

/-! ## The rule -/

section Rule

variable {rule : Java.RulePkt} {orders : Orders} {now pad lastId : Nat} {junk : Constraint}

/-- The set is filled with the elements sent. -/
theorem reads_intSet {sent : List Int} (countable : FitsCounter sent) (ints : ∀ i ∈ sent, IsInt i) :
    Reads decodeIntSet (Java.Marshaller.encodeCollection Java.Marshaller.encodeInt sent)
      (sent.foldl (fun s e => OrdSet.insert e s) []) := by
  have each : ∀ i ∈ sent, Reads decodeInt (Java.Marshaller.encodeInt i) (id i) :=
    fun i mem => reads_int (ints i mem)
  refine (reads_count countable).bind ((Reads.times each).last ?_)
  rw [List.map_id]
  exact Reads.pure _

/-- What the builder is given for a rule: keys and elements in order, and the set of indexes. -/
def build (now pad lastId : Nat) (junk : Constraint) (rule : Java.RulePkt) (consuming : List Int) :
    RulePkt :=
  buildRulePkt now lastId (rule.predicates.zipIdx.map fun x => ((x.2 : Int), x.1.toCpp junk))
    (rule.parameters.zipIdx.map fun x => ((x.2 : Int), rawParameter pad x.1))
    (rule.aggregates.zipIdx.map fun x => ((x.2 : Int), rawAggregate junk x.1))
    (rule.negations.zipIdx.map fun x => ((x.2 : Int), rawNegation junk x.1))
    (rule.eventTemplate.toCpp pad) (consuming.foldl (fun s e => OrdSet.insert e s) [])

theorem zipIdx_map_cut {α β : Type} (cut : α → α) (f : α → β) (xs : List α) :
    (xs.map cut).zipIdx.map (fun x => ((x.2 : Int), f x.1)) =
      xs.zipIdx.map fun x => ((x.2 : Int), f (cut x.1)) := by
  rw [List.zipIdx_map, List.map_map]
  rfl

/-- What the maps and the set of a rule are read as. -/
theorem reads_rulePkt (admissible : rule.Admissible) (visits : orders.Visits rule)
    (short : rule.eventTemplate.cut.StaticShort) :
    Reads (decodeRulePkt now pad lastId junk) (Java.Marshaller.encodeBody rule orders)
      (build now pad lastId junk rule.cut orders.consuming) := by
  obtain ⟨predicates, parameters, aggregates, negations, consuming⟩ := admissible.countable
  have sent : FitsCounter orders.consuming := by
    rw [FitsCounter, visits.consuming.length_eq]
    exact consuming
  have ints : ∀ i ∈ orders.consuming, IsInt i := by
    intro i mem
    obtain ⟨nonneg, less⟩ := admissible.consuming i (visits.consuming.subset mem)
    unfold FitsCounter at predicates
    constructor <;> omega
  refine (reads_map visits.predicates predicates fun p mem =>
      reads_predicate (admissible.predicates p mem)).bind
    ((reads_map visits.parameters parameters fun p mem =>
      reads_parameter (admissible.parameters p mem)).bind
    ((reads_map visits.aggregates aggregates fun a mem =>
      reads_aggregate predicates (admissible.aggregates a mem)).bind
    ((reads_map visits.negations negations fun n mem =>
      reads_negation predicates (admissible.negations n mem)).bind
    ((reads_template admissible.template short).bind
    ((reads_intSet sent ints).last ?_)))))
  simp only [build, Java.RulePkt.cut, zipIdx_map_cut]
  exact Reads.pure _

theorem refuses_rulePkt (admissible : rule.Admissible) (visits : orders.Visits rule)
    (long : ¬ rule.eventTemplate.cut.StaticShort) :
    Refuses (decodeRulePkt now pad lastId junk) (Java.Marshaller.encodeBody rule orders) := by
  obtain ⟨predicates, parameters, aggregates, negations, -⟩ := admissible.countable
  exact (reads_map visits.predicates predicates fun p mem =>
      reads_predicate (admissible.predicates p mem)).bind_refuses
    ((reads_map visits.parameters parameters fun p mem =>
      reads_parameter (admissible.parameters p mem)).bind_refuses
    ((reads_map visits.aggregates aggregates fun a mem =>
      reads_aggregate predicates (admissible.aggregates a mem)).bind_refuses
    ((reads_map visits.negations negations fun n mem =>
      reads_negation predicates (admissible.negations n mem)).bind_refuses
    ((refuses_template admissible.template long).bind _ _))))

end Rule

/-! ## What the builder makes of it -/

section Builder

variable {now pad lastId : Nat} {junk : Constraint} {pkt : RulePkt}

/-- What the builder needs of a rule. -/
structure Buildable (rule : Java.RulePkt) : Prop where
  root : ∀ p, rule.predicates[0]? = some p → p.refersTo = -1 ∧ p.win = 0 ∧ p.kind = .eachWithin
  refersTo : ∀ (i : Nat) (p : EventPredicate), rule.predicates[i]? = some p → 1 ≤ i →
    0 ≤ p.refersTo ∧ p.refersTo < i
  parameters : ∀ p ∈ rule.parameters,
    p.leftTree.RefersTo p.sType ∨ p.rightTree.RefersTo p.sType
  aggregates : ∀ a ∈ rule.aggregates,
    BoundsOk rule.predicates.length a.lowerId a.lowerTime a.upperId
  negations : ∀ n ∈ rule.negations,
    BoundsOk rule.predicates.length n.lowerId n.lowerTime n.upperId
  consuming : ∀ i ∈ rule.consuming, 0 ≤ i ∧ i < rule.predicates.length

theorem foldl_addPredicate {ps : List Predicate} (empty : pkt.predicates = [])
    (root : ∀ p, ps[0]? = some p → p.refersTo = -1 ∧ p.win = 0 ∧ p.kind = .eachWithin)
    (back : ∀ (i : Nat) (p : Predicate), ps[i]? = some p → 1 ≤ i → p.refersTo < i) :
    (ps.zipIdx.map fun x => ((x.2 : Int), x.1)).foldl addPredicate pkt =
      { pkt with predicates := ps } := by
  induction ps using List.reverseRecOn with
  | nil => exact (congrArg (fun ps => { pkt with predicates := ps }) empty :)
  | append_singleton ps p ih =>
      have earlier := ih (fun q lookup => root q (by
        rw [List.getElem?_append_left (List.getElem?_eq_some_iff.mp lookup).1]
        exact lookup)) fun i q lookup => back i q (by
        rw [List.getElem?_append_left (List.getElem?_eq_some_iff.mp lookup).1]
        exact lookup)
      have last : (ps ++ [p])[ps.length]? = some p := by simp
      rw [List.zipIdx_append, List.map_append, List.foldl_append, earlier]
      simp only [List.zipIdx_singleton, List.map_cons, List.map_nil, List.foldl_cons,
        List.foldl_nil, Nat.zero_add]
      rcases Nat.eq_zero_or_pos ps.length with none | pos
      · -- the first predicate is the root
        obtain rfl := List.length_eq_zero_iff.mp none
        obtain ⟨refersTo, win, kind⟩ := root p last
        simp [addPredicate, applied, RulePkt.addRootPredicate, ← refersTo, ← win, ← kind]
      · have less := back ps.length p last pos
        have notRoot : ¬ (ps.length : Int) = 0 := by omega
        have accepted : ¬ ((ps.length : Int) ≤ 0 ∨ p.refersTo ≥ (ps.length : Int)) := by omega
        simp only [addPredicate, applied, RulePkt.addPredicate, if_neg notRoot, if_neg accepted,
          Option.getD_some]

/-- A loop over the entries of a map in which every entry is accepted and appended to the packet. -/
theorem foldl_accepted {α β γ : Type} {add : RulePkt → Int × β → RulePkt}
    (append : RulePkt → List γ → RulePkt) {raw : α → β} {conv : α → γ} {xs : List α} {n : Nat}
    (append_nil : ∀ pkt, append pkt [] = pkt)
    (append_append : ∀ pkt l l', append (append pkt l) l' = append pkt (l ++ l'))
    (keeps : ∀ pkt l, (append pkt l).predicates = pkt.predicates)
    (accepted : ∀ pkt k, pkt.predicates.length = n → ∀ x ∈ xs,
      add pkt (k, raw x) = append pkt [conv x]) (size : pkt.predicates.length = n) :
    (xs.zipIdx.map fun x => ((x.2 : Int), raw x.1)).foldl add pkt = append pkt (xs.map conv) := by
  have loop : ∀ (entries : List (α × Nat)), (∀ e ∈ entries, e.1 ∈ xs) → ∀ pkt : RulePkt,
      pkt.predicates.length = n →
      (entries.map fun x => ((x.2 : Int), raw x.1)).foldl add pkt =
        append pkt ((entries.map Prod.fst).map conv) := by
    intro entries
    induction entries with
    | nil => exact fun _ pkt _ => (append_nil pkt).symm
    | cons e rest ih =>
        intro members pkt size
        rw [List.map_cons, List.foldl_cons, accepted pkt _ size e.1 (members e List.mem_cons_self),
          ih (fun e' mem => members e' (List.mem_cons_of_mem e mem)) _ (by rw [keeps]; exact size),
          append_append]
        rfl
  rw [loop xs.zipIdx (fun e mem => List.fst_mem_of_mem_zipIdx mem) pkt size, List.zipIdx_map_fst]

/-- The bounds that the builder checks, after it has put the two states in order. -/
theorem bounds_accepted {n : Nat} {lowerId lowerTime upperId : Int}
    (bounds : BoundsOk n lowerId lowerTime upperId) (between : ¬ lowerId < 0) :
    max lowerId upperId < n ∧ 0 ≤ min lowerId upperId ∧ min lowerId upperId < n ∧
      min lowerId upperId < max lowerId upperId := by
  obtain ⟨nonneg, upper⟩ := bounds.upper
  rcases bounds.between with timed | ⟨lower, ne⟩
  · exact absurd timed between
  · refine ⟨?_, ?_, ?_, ?_⟩ <;> omega

theorem addNegation_eq (k : Int) {n : Java.Negation}
    (bounds : BoundsOk pkt.predicates.length n.lowerId n.lowerTime n.upperId) :
    addNegation now pkt (k, rawNegation junk n) =
      { pkt with negations := pkt.negations ++ [n.toCpp now junk] } := by
  obtain ⟨nonneg, upper⟩ := bounds.upper
  change (if n.lowerId < 0 then pkt.addTimeBasedNegation _ _ n.upperId _
    else pkt.addNegationBetweenStates _ _ n.lowerId n.upperId now).getD pkt = _
  unfold Java.Negation.toCpp
  by_cases timed : n.lowerId < 0
  · rw [if_pos timed, if_pos timed, if_pos timed, if_pos timed, RulePkt.addTimeBasedNegation,
      RulePkt.addNegation]
    rw [if_neg (by omega), if_neg (by omega), if_neg (by omega), Option.getD_some]
    rfl
  · obtain ⟨lower, nonneg, upper, less⟩ := bounds_accepted bounds timed
    rw [if_neg timed, if_neg timed, if_neg timed, if_neg timed, RulePkt.addNegationBetweenStates,
      RulePkt.sorted_pair]
    dsimp only
    rw [RulePkt.addNegation, if_neg (by omega), if_neg (by omega), if_neg (by omega),
      Option.getD_some]
    rfl

theorem addAggregate_eq (k : Int) {a : TAggregate}
    (bounds : BoundsOk pkt.predicates.length a.lowerId a.lowerTime a.upperId) :
    addAggregate now pkt (k, rawAggregate junk a) =
      { pkt with aggregates := pkt.aggregates ++ [a.toCpp now junk] } := by
  obtain ⟨nonneg, upper⟩ := bounds.upper
  change (if a.lowerId < 0 then pkt.addTimeBasedAggregate _ _ a.upperId _ _ _
    else pkt.addAggregateBetweenStates _ _ a.lowerId a.upperId now _ _).getD pkt = _
  unfold TAggregate.toCpp
  by_cases timed : a.lowerId < 0
  · rw [if_pos timed, if_pos timed, if_pos timed, if_pos timed, RulePkt.addTimeBasedAggregate,
      RulePkt.addAggregate]
    rw [if_neg (by omega), if_neg (by omega), if_neg (by omega), Option.getD_some]
    rfl
  · obtain ⟨lower, nonneg, upper, less⟩ := bounds_accepted bounds timed
    rw [if_neg timed, if_neg timed, if_neg timed, if_neg timed, RulePkt.addAggregateBetweenStates,
      RulePkt.sorted_pair]
    dsimp only
    rw [RulePkt.addAggregate, if_neg (by omega), if_neg (by omega), if_neg (by omega),
      Option.getD_some]
    rfl

theorem findReference_nonneg {kind : StateType} {tree : Java.OpTree} (refers : tree.RefersTo kind) :
    0 ≤ RulePkt.findReference kind (tree.toCpp pad) := by
  induction tree with
  | leaf ref valType =>
      cases ref with
      | rulePkt index stype name =>
          obtain ⟨rfl, nonneg⟩ := refers
          simpa [Java.OpTree.toCpp, Java.OpValueReference.toCpp, RulePkt.findReference] using nonneg
      | static value => exact refers.elim
  | inner left right op valType ihLeft ihRight =>
      simp only [Java.OpTree.toCpp, RulePkt.findReference]
      rcases refers with inLeft | inRight
      · exact (ihLeft inLeft).trans (le_max_left _ _)
      · exact (ihRight inRight).trans (le_max_right _ _)

theorem findLastState_nonneg {tree : Java.OpTree} (refers : tree.RefersTo .state) :
    0 ≤ RulePkt.findLastState (tree.toCpp pad) := by
  induction tree with
  | leaf ref valType =>
      cases ref with
      | rulePkt index stype name =>
          obtain ⟨rfl, nonneg⟩ := refers
          simpa [Java.OpTree.toCpp, Java.OpValueReference.toCpp, RulePkt.findLastState] using nonneg
      | static value => exact refers.elim
  | inner left right op valType ihLeft ihRight =>
      simp only [Java.OpTree.toCpp, RulePkt.findLastState]
      rcases refers with inLeft | inRight
      · exact (ihLeft inLeft).trans (le_max_left _ _)
      · exact (ihRight inRight).trans (le_max_right _ _)

theorem addParameter_eq (k : Int) {p : Java.ComplexParameter}
    (ownKind : p.leftTree.RefersTo p.sType ∨ p.rightTree.RefersTo p.sType) :
    addParameter pkt (k, rawParameter pad p) =
      { pkt with complexParameters := pkt.complexParameters ++ [p.toCpp pad] } := by
  have nonneg : 0 ≤ lastIndexOf p.sType (p.leftTree.toCpp pad) (p.rightTree.toCpp pad) := by
    unfold lastIndexOf
    cases kind : p.sType <;> rw [kind] at ownKind
    case state =>
      rcases ownKind with inLeft | inRight
      · exact (findLastState_nonneg inLeft).trans (le_max_left _ _)
      · exact (findLastState_nonneg inRight).trans (le_max_right _ _)
    all_goals
      rcases ownKind with inLeft | inRight
      · exact (findReference_nonneg inLeft).trans (le_max_left _ _)
      · exact (findReference_nonneg inRight).trans (le_max_right _ _)
  unfold addParameter applied
  simp only [rawParameter, Java.ComplexParameter.toCpp]
  unfold lastIndexOf at nonneg ⊢
  cases kind : p.sType <;> rw [kind] at nonneg <;>
    simp only [RulePkt.addComplexParameter, RulePkt.addComplexParameterForNegation,
      RulePkt.addComplexParameterForAggregate, RulePkt.addComplexParameterWith] <;>
    rw [if_neg (not_lt.mpr nonneg), Option.getD_some]

theorem foldl_addAggregate {as : List TAggregate}
    (bounds : ∀ a ∈ as, BoundsOk pkt.predicates.length a.lowerId a.lowerTime a.upperId) :
    (as.zipIdx.map fun x => ((x.2 : Int), rawAggregate junk x.1)).foldl (addAggregate now) pkt =
      { pkt with aggregates := pkt.aggregates ++ as.map (TAggregate.toCpp now junk) } :=
  foldl_accepted (fun pkt l => { pkt with aggregates := pkt.aggregates ++ l })
    (fun pkt => by simp) (fun pkt l l' => by simp) (fun _ _ => rfl)
    (fun _ k size a mem => addAggregate_eq k (size ▸ bounds a mem)) rfl

theorem foldl_addNegation {ns : List Java.Negation}
    (bounds : ∀ n ∈ ns, BoundsOk pkt.predicates.length n.lowerId n.lowerTime n.upperId) :
    (ns.zipIdx.map fun x => ((x.2 : Int), rawNegation junk x.1)).foldl (addNegation now) pkt =
      { pkt with negations := pkt.negations ++ ns.map (Java.Negation.toCpp now junk) } :=
  foldl_accepted (fun pkt l => { pkt with negations := pkt.negations ++ l })
    (fun pkt => by simp) (fun pkt l l' => by simp) (fun _ _ => rfl)
    (fun _ k size n mem => addNegation_eq k (size ▸ bounds n mem)) rfl

theorem foldl_addParameter {ps : List Java.ComplexParameter}
    (ownKind : ∀ p ∈ ps, p.leftTree.RefersTo p.sType ∨ p.rightTree.RefersTo p.sType) :
    (ps.zipIdx.map fun x => ((x.2 : Int), rawParameter pad x.1)).foldl addParameter pkt =
      { pkt with
        complexParameters := pkt.complexParameters ++ ps.map (Java.ComplexParameter.toCpp pad) } :=
  foldl_accepted (fun pkt l => { pkt with complexParameters := pkt.complexParameters ++ l })
    (fun pkt => by simp) (fun pkt l l' => by simp) (fun _ _ => rfl)
    (fun _ k _ p mem => addParameter_eq k (ownKind p mem)) rfl

/-- The predicates of the new packet are those of the rule. -/
theorem foldl_addPredicate_toCpp {rule : Java.RulePkt} (buildable : Buildable rule)
    (empty : pkt.predicates = []) :
    (rule.predicates.zipIdx.map fun x => ((x.2 : Int), x.1.toCpp junk)).foldl addPredicate pkt =
      { pkt with predicates := rule.predicates.map (EventPredicate.toCpp junk) } := by
  have keyed : (rule.predicates.zipIdx.map fun x => ((x.2 : Int), x.1.toCpp junk)) =
      (rule.predicates.map (EventPredicate.toCpp junk)).zipIdx.map fun x => ((x.2 : Int), x.1) := by
    rw [List.zipIdx_map, List.map_map]
    rfl
  rw [keyed]
  apply foldl_addPredicate empty
  · intro p lookup
    rw [List.getElem?_map] at lookup
    obtain ⟨q, found, rfl⟩ := Option.map_eq_some_iff.mp lookup
    obtain ⟨refersTo, win, kind⟩ := buildable.root q found
    exact ⟨refersTo, by rw [EventPredicate.toCpp, win]; rfl, kind⟩
  · intro i p lookup pos
    rw [List.getElem?_map] at lookup
    obtain ⟨q, found, rfl⟩ := Option.map_eq_some_iff.mp lookup
    exact (buildable.refersTo i q found pos).2

theorem foldl_addConsuming {indexes : List Int}
    (inRange : ∀ i ∈ indexes, 0 ≤ i ∧ i < pkt.predicates.length) :
    ∃ consuming, indexes.foldl addConsuming pkt = { pkt with consuming } ∧
      ∀ i : Nat, i ∈ consuming ↔ i ∈ pkt.consuming ∨ (i : Int) ∈ indexes := by
  induction indexes generalizing pkt with
  | nil => exact ⟨pkt.consuming, rfl, fun i => by simp⟩
  | cons j rest ih =>
      obtain ⟨nonneg, less⟩ := inRange j List.mem_cons_self
      have added : addConsuming pkt j =
          { pkt with consuming := pkt.consuming.insert j.toNat } := by
        rw [addConsuming, applied, RulePkt.addConsuming, if_neg (by omega), Option.getD_some]
      obtain ⟨consuming, folded, members⟩ := @ih
        { pkt with consuming := pkt.consuming.insert j.toNat }
        fun i mem => inRange i (List.mem_cons_of_mem j mem)
      refine ⟨consuming, ?_, fun i => ?_⟩
      · rw [List.foldl_cons, added, folded]
      · have same : i = j.toNat ↔ (i : Int) = j := by omega
        rw [members, List.mem_insert_iff, List.mem_cons, same]
        tauto

/-- The packet when only the consuming indexes are missing. -/
def filled (now pad lastId : Nat) (junk : Constraint) (rule : Java.RulePkt) : RulePkt :=
  { ruleId := lastId
    predicates := rule.predicates.map (EventPredicate.toCpp junk)
    parameters := []
    negations := rule.negations.map (Java.Negation.toCpp now junk)
    aggregates := rule.aggregates.map (TAggregate.toCpp now junk)
    consuming := []
    complexParameters := rule.parameters.map (Java.ComplexParameter.toCpp pad)
    ceTemplate := some (rule.eventTemplate.toCpp pad) }

theorem build_eq_filled {rule : Java.RulePkt} (buildable : Buildable rule) (consuming : List Int) :
    build now pad lastId junk rule consuming =
      (consuming.foldl (fun s e => OrdSet.insert e s) []).foldl addConsuming
        (filled now pad lastId junk rule) := by
  have bounds : ∀ {n : Nat}, n = rule.predicates.length →
      (∀ a ∈ rule.aggregates, BoundsOk n a.lowerId a.lowerTime a.upperId) ∧
      ∀ m ∈ rule.negations, BoundsOk n m.lowerId m.lowerTime m.upperId := by
    rintro n rfl
    exact ⟨buildable.aggregates, buildable.negations⟩
  unfold build buildRulePkt
  simp only
  rw [foldl_addPredicate_toCpp buildable rfl, foldl_addAggregate (bounds (List.length_map _)).1,
    foldl_addNegation (bounds (List.length_map _)).2, foldl_addParameter buildable.parameters]
  rfl

/-- The builder accepts everything and puts the rule together. -/
theorem build_same {rule : Java.RulePkt} (buildable : Buildable rule) {consuming : List Int}
    (sent : consuming.Perm rule.consuming) :
    rule.Same now pad junk (build now pad lastId junk rule consuming) := by
  have elements : ∀ i, i ∈ consuming.foldl (fun s e => OrdSet.insert e s) [] ↔
      i ∈ rule.consuming := by
    intro i
    rw [OrdSet.mem_foldl_insert, sent.mem_iff]
    simp
  have inRange : ∀ i ∈ consuming.foldl (fun s e => OrdSet.insert e s) [],
      0 ≤ i ∧ i < (filled now pad lastId junk rule).predicates.length := by
    intro i mem
    have bounds := buildable.consuming i ((elements i).mp mem)
    simpa [filled] using bounds
  obtain ⟨indexes, added, members⟩ := foldl_addConsuming inRange
  rw [build_eq_filled buildable, added]
  refine ⟨rfl, rfl, rfl, rfl, rfl, rfl, fun i => ?_⟩
  rw [members, elements]
  simp [filled]

end Builder

/-! ## What cutting does -/

section Cut

theorem cut_refersTo {kind : StateType} {tree : Java.OpTree} (refers : tree.RefersTo kind) :
    tree.cut.RefersTo kind := by
  induction tree with
  | leaf ref valType =>
      cases ref with
      | rulePkt index stype name => exact refers
      | static value => exact refers.elim
  | inner left right op valType ihLeft ihRight => exact refers.imp ihLeft ihRight

theorem buildable_cut {rule : Java.RulePkt} (admissible : rule.Admissible) :
    Buildable rule.cut := by
  have lookup : ∀ {i : Nat} {p : EventPredicate}, rule.cut.predicates[i]? = some p →
      ∃ q, rule.predicates[i]? = some q ∧ q.cut = p := by
    intro i p found
    simp only [Java.RulePkt.cut, List.getElem?_map] at found
    exact Option.map_eq_some_iff.mp found
  have length : rule.cut.predicates.length = rule.predicates.length := List.length_map _
  refine ⟨?_, ?_, ?_, ?_, ?_, ?_⟩
  · intro p found
    obtain ⟨q, sent, rfl⟩ := lookup found
    exact admissible.root q sent
  · intro i p found pos
    obtain ⟨q, sent, rfl⟩ := lookup found
    exact admissible.refersTo i q sent pos
  · intro p mem
    obtain ⟨q, sent, rfl⟩ := List.mem_map.mp mem
    exact (admissible.parameters q sent).ownKind.imp cut_refersTo cut_refersTo
  · intro a mem
    obtain ⟨b, sent, rfl⟩ := List.mem_map.mp mem
    rw [length]
    exact (admissible.aggregates b sent).bounds
  · intro n mem
    obtain ⟨m, sent, rfl⟩ := List.mem_map.mp mem
    rw [length]
    exact (admissible.negations m sent).bounds
  · rw [length]
    exact admissible.consuming

variable {now pad : Nat} {junk : Constraint}

/-- If cutting is invisible in the images of the elements of a list, it changes none of them. -/
theorem map_cut_eq {α β : Type} {cut : α → α} {conv : α → β} {xs : List α}
    (inj : ∀ x ∈ xs, conv (cut x) = conv x → cut x = x)
    (same : (xs.map cut).map conv = xs.map conv) : xs.map cut = xs := by
  rw [List.map_map, List.map_inj_left] at same
  exact (List.map_congr_left fun x mem => inj x mem (same x mem)).trans (List.map_id xs)

theorem cutConstraint_inj {c : Constraint}
    (same : Constraint.toCpp junk (cutConstraint c) = Constraint.toCpp junk c) :
    cutConstraint c = c := by
  have name : c.name.cut = c.name := congrArg TRex.Constraint.name same
  have stringVal := congrArg TRex.Constraint.stringVal same
  unfold cutConstraint at stringVal ⊢
  simp only [Constraint.toCpp] at stringVal
  rw [name]
  by_cases type : c.type = .string
  · rw [if_pos type, if_pos type, if_pos type] at stringVal
    rw [if_pos type, stringVal]
  · rw [if_neg type]

theorem cutConstraints_inj {cs : List Constraint}
    (same : (cs.map cutConstraint).map (Constraint.toCpp junk) = cs.map (Constraint.toCpp junk)) :
    cs.map cutConstraint = cs :=
  map_cut_eq (fun _ _ => cutConstraint_inj) same

theorem cutValue_inj {v : Value} (same : (cutValue v).stored pad = v.stored pad) :
    cutValue v = v := by
  cases v with
  | string s => exact same
  | _ => rfl

theorem cutAttribute_inj {a : Attribute}
    (same : (cutAttribute a).stored pad = a.stored pad) : cutAttribute a = a := by
  have name : a.name.cut = a.name := congrArg Attribute.name same
  have value := cutValue_inj (congrArg Attribute.value same)
  rw [cutAttribute, name, value]

theorem cutReference_inj {ref : Java.OpValueReference}
    (same : ref.cut.toCpp pad = ref.toCpp pad) : ref.cut = ref := by
  cases ref with
  | rulePkt index stype name =>
      simp only [Java.OpValueReference.cut, Java.OpValueReference.toCpp,
        OpValueReference.rulePkt.injEq, true_and] at same
      have names : name.cut = name := by
        split at same
        case isTrue nameless =>
          split at same
          case isTrue empty =>
            rw [List.length_eq_zero_iff.mp empty.2]
            rfl
          case isFalse => cases same
        case isFalse =>
          split at same
          · cases same
          · exact Option.some.inj same
      rw [Java.OpValueReference.cut, names]
  | static value =>
      simp only [Java.OpValueReference.cut, Java.OpValueReference.toCpp,
        OpValueReference.static.injEq] at same
      rw [Java.OpValueReference.cut, cutValue_inj same]

theorem cutTree_inj {tree : Java.OpTree} (same : tree.cut.toCpp pad = tree.toCpp pad) :
    tree.cut = tree := by
  induction tree with
  | leaf ref valType =>
      simp only [Java.OpTree.cut, Java.OpTree.toCpp, OpTree.leaf.injEq, and_true] at same
      rw [Java.OpTree.cut, cutReference_inj same]
  | inner left right op valType ihLeft ihRight =>
      simp only [Java.OpTree.cut, Java.OpTree.toCpp, OpTree.inner.injEq, and_true] at same
      rw [Java.OpTree.cut, ihLeft same.1, ihRight same.2]

theorem cutTemplate_inj {t : EventTemplate} (same : t.cut.toCpp pad = t.toCpp pad) : t.cut = t := by
  have attributes := congrArg CompositeEventTemplate.attributes same
  have static := congrArg CompositeEventTemplate.staticAttributes same
  unfold EventTemplate.cut
  rw [map_cut_eq (fun a _ => cutAttribute_inj) static, map_cut_eq ?_ attributes]
  intro a _ same
  obtain ⟨name, tree⟩ := Prod.mk.inj same
  exact Prod.ext name (cutTree_inj tree)

/-- Two rules that are the same C++ rule, one of them the other one cut, are equal. -/
theorem cut_eq_of_same {rule : Java.RulePkt} {pkt : RulePkt}
    (read : rule.cut.Same now pad junk pkt) (same : rule.Same now pad junk pkt) :
    rule.cut = rule := by
  have predicates : rule.predicates.map EventPredicate.cut = rule.predicates := by
    refine map_cut_eq (fun p _ same => ?_) (read.predicates.symm.trans same.predicates)
    rw [EventPredicate.cut, cutConstraints_inj (congrArg Predicate.constraints same)]
  have parameters : rule.parameters.map Java.ComplexParameter.cut = rule.parameters := by
    refine map_cut_eq (fun p _ same => ?_) (read.parameters.symm.trans same.parameters)
    rw [Java.ComplexParameter.cut, cutTree_inj (congrArg CPUParameter.leftTree same),
      cutTree_inj (congrArg CPUParameter.rightTree same)]
  have aggregates : rule.aggregates.map TAggregate.cut = rule.aggregates := by
    refine map_cut_eq (fun a _ same => ?_) (read.aggregates.symm.trans same.aggregates)
    have name : a.name.cut = a.name := congrArg Aggregate.name same
    rw [TAggregate.cut, cutConstraints_inj (congrArg Aggregate.constraints same), name]
  have negations : rule.negations.map Java.Negation.cut = rule.negations := by
    refine map_cut_eq (fun n _ same => ?_) (read.negations.symm.trans same.negations)
    rw [Java.Negation.cut, cutConstraints_inj (congrArg Negation.constraints same)]
  have template := cutTemplate_inj (Option.some.inj (read.template.symm.trans same.template))
  rw [Java.RulePkt.cut, predicates, parameters, aggregates, negations, template]

end Cut

end Unmarshaller

/-! ## The two sides together -/

/-- The server installs the rule that the client sent: the header announces the bytes of the body,
and the decoder reads the rule off exactly these bytes. -/
def Java.RulePkt.Arrives (now pad lastId : Nat) (junk : Constraint) (rule : Java.RulePkt)
    (orders : Java.Orders) : Prop :=
  Java.Marshaller.encode rule orders = Java.Marshaller.encodePktType .rulePkt ++
      (Java.Marshaller.encodeInt (Java.Marshaller.encodeBody rule orders).length ++
        Java.Marshaller.encodeBody rule orders) ∧
    Reads Unmarshaller.decodeInt
      (Java.Marshaller.encodeInt (Java.Marshaller.encodeBody rule orders).length)
      (Java.Marshaller.encodeBody rule orders).length ∧
    ∃ pkt, Reads (Unmarshaller.decodeRulePkt now pad lastId junk)
        (Java.Marshaller.encodeBody rule orders) pkt ∧
      rule.Same now pad junk pkt

/-- A rule arrives as it was sent if and only if none of its strings contains a NUL and the names
and strings of its static attributes are shorter than the decoder asserts, whatever the order in
which the client's maps are iterated. The whole packet fits into a Java array. -/
theorem javaRule_arrives_iff (rule : Java.RulePkt) (admissible : rule.Admissible)
    (orders : Java.Orders) (visits : orders.Visits rule)
    (allocated : (Java.Marshaller.encode rule orders).length < 2 ^ 31) (now pad lastId : Nat)
    (junk : Constraint) :
    rule.Arrives now pad lastId junk orders ↔ rule.NulFree ∧ rule.eventTemplate.StaticShort := by
  have length := Java.Marshaller.length_encodeBody rule orders
  have header : Java.Marshaller.encode rule orders = Java.Marshaller.encodePktType .rulePkt ++
      (Java.Marshaller.encodeInt (Java.Marshaller.encodeBody rule orders).length ++
        Java.Marshaller.encodeBody rule orders) := by
    rw [length]
    rfl
  have small : (Java.Marshaller.encodeBody rule orders).length < 2 ^ 31 := by
    rw [header, List.length_append, List.length_append] at allocated
    omega
  have built := Unmarshaller.buildable_cut admissible
  constructor
  · rintro ⟨-, -, pkt, reads, same⟩
    by_cases short : rule.eventTemplate.cut.StaticShort
    · have read : Reads (Unmarshaller.decodeRulePkt now pad lastId junk)
          (Java.Marshaller.encodeBody rule orders)
          (Unmarshaller.build now pad lastId junk rule.cut orders.consuming) :=
        Unmarshaller.reads_rulePkt admissible visits short
      have both := (reads []).symm.trans (read [])
      have built : rule.cut.Same now pad junk pkt := by
        rw [(Prod.mk.inj (Option.some.inj both)).1]
        exact Unmarshaller.build_same built visits.consuming
      have nulFree : rule.cut = rule := Unmarshaller.cut_eq_of_same built same
      have uncut : rule.eventTemplate.cut = rule.eventTemplate :=
        congrArg Java.RulePkt.eventTemplate nulFree
      rw [uncut] at short
      exact ⟨nulFree, short⟩
    · exact absurd (Unmarshaller.refuses_rulePkt admissible visits short) reads.not_refuses
  · rintro ⟨nulFree, short⟩
    have uncut : rule.eventTemplate.cut = rule.eventTemplate :=
      congrArg Java.RulePkt.eventTemplate nulFree
    rw [← uncut] at short
    have same : rule.cut.Same now pad junk
        (Unmarshaller.build now pad lastId junk rule.cut orders.consuming) :=
      Unmarshaller.build_same built visits.consuming
    have read : Reads (Unmarshaller.decodeRulePkt now pad lastId junk)
        (Java.Marshaller.encodeBody rule orders)
        (Unmarshaller.build now pad lastId junk rule.cut orders.consuming) :=
      Unmarshaller.reads_rulePkt admissible visits short
    rw [show rule.cut = rule from nulFree] at read same
    exact ⟨header, Unmarshaller.reads_count small, _, read, same⟩

/-! ## A fire rule of the client -/

namespace Java

def area : CString := ['a', 'r', 'e', 'a']

def areaOf (index : Int) : OpTree := .leaf (.rulePkt index .state area) .string

def hot : Constraint :=
  { name := ['v'], op := .gt, type := .int, intVal := 45, floatVal := 0, boolVal := false
    stringVal := [] }

/-- Fire is smoke after a temperature above 45 in the same area, without rain between them. The
composite event has the area of the smoke and one static attribute. -/
def fireRule (staticName : CString) : RulePkt :=
  { predicates :=
      [{ eventType := 1, constraints := [], refersTo := -1, win := 0, kind := .eachWithin },
       { eventType := 2, refersTo := 0, win := 300000, kind := .lastWithin
         constraints := [hot] }]
    parameters := [{ operation := .eq, sType := .state, type := .string
                     leftTree := areaOf 0, rightTree := areaOf 1 }]
    negations := [{ eventType := 3, constraints := [], lowerId := 0, lowerTime := 0, upperId := 1 }]
    aggregates := [{ eventType := 2, constraints := [], lowerId := -1, lowerTime := 60000
                     upperId := 0, fun_ := .avg, name := ['v'] }]
    consuming := [1]
    eventTemplate := { eventType := 10, attributes := [(area, areaOf 0)]
                       staticAttributes := [⟨staticName, .int 1⟩] } }

/-- The predicates are visited the other way round. -/
def fireOrders : Orders :=
  { predicates := [1, 0], parameters := [0], aggregates := [0], negations := [0]
    consuming := [1] }

theorem fireOrders_visits (staticName : CString) : fireOrders.Visits (fireRule staticName) :=
  ⟨List.Perm.swap 0 1 [], List.Perm.refl _, List.Perm.refl _, List.Perm.refl _, List.Perm.refl _⟩

theorem ascii_of_all {limit : Nat} {s : CString}
    (chars : s.all (fun c => decide (c.toNat < 128)) = true) (short : s.length ≤ limit) :
    Ascii limit s :=
  ⟨fun c mem => of_decide_eq_true (List.all_eq_true.mp chars c mem), short⟩

theorem fireRule_admissible {staticName : CString} (ascii : Ascii nameLen staticName) :
    (fireRule staticName).Admissible := by
  have areaOk : Ascii nameLen area := ascii_of_all rfl (by decide)
  have noneOk : ConstraintsOk [] := ⟨by simp [FitsCounter], by simp⟩
  have areaOfOk : ∀ index, IsInt index → (areaOf index).Ok := fun index inRange => ⟨inRange, areaOk⟩
  have inRange : ∀ i : Int, 0 ≤ i ∧ i < 2 → 0 ≤ i ∧ i < (fireRule staticName).predicates.length :=
    fun _ inRange => inRange
  refine ⟨by simp [FitsCounter, fireRule], ?_, ?_, ?_, ?_, ?_, ?_, ?_, ?_⟩
  · intro p mem
    rcases List.mem_pair.mp mem with rfl | rfl
    · exact ⟨by decide, noneOk, by decide, by decide⟩
    · refine ⟨by decide, ⟨by simp [FitsCounter], ?_⟩, by decide, by decide⟩
      intro c mem
      rw [List.mem_singleton.mp mem]
      exact ⟨ascii_of_all rfl (by decide), by decide, fun string => by cases string⟩
  · intro p found
    rw [← Option.some.inj found]
    exact ⟨rfl, rfl, rfl⟩
  · intro i p found pos
    have last : i = 1 := by
      have inBounds := (List.getElem?_eq_some_iff.mp found).1
      simp only [fireRule, List.length_cons, List.length_nil] at inBounds
      omega
    subst last
    rw [← Option.some.inj found]
    decide
  · intro p mem
    rw [List.mem_singleton.mp mem]
    exact ⟨areaOfOk 0 (by decide), areaOfOk 1 (by decide), .inl ⟨rfl, by decide⟩⟩
  · intro a mem
    rw [List.mem_singleton.mp mem]
    exact ⟨by decide, noneOk, ⟨by decide, by decide, inRange 0 (by decide), .inl (by decide)⟩,
      ascii_of_all rfl (by decide)⟩
  · intro n mem
    rw [List.mem_singleton.mp mem]
    exact ⟨by decide, noneOk, ⟨by decide, by decide, inRange 1 (by decide),
      .inr ⟨(inRange 0 (by decide)).2, by decide⟩⟩⟩
  · refine ⟨show IsInt 10 by decide, by simp [FitsCounter, fireRule], ?_,
      by simp [FitsCounter, fireRule], ?_⟩
    · intro a mem
      rw [List.mem_singleton.mp mem]
      exact ⟨areaOk, areaOfOk 0 (by decide)⟩
    · intro a mem
      rw [List.mem_singleton.mp mem]
      exact ⟨ascii, show IsInt 1 by decide⟩
  · intro i mem
    rw [List.mem_singleton.mp mem]
    exact inRange 1 (by decide)

end Java

/-- A name of as many characters as a name may have. -/
def longName : CString := List.replicate 15 'a'

/-- The decoder refuses a static attribute whose name has the maximum length. -/
theorem fireRule_longName_lost :
    (Java.fireRule longName).Admissible ∧ Java.fireOrders.Visits (Java.fireRule longName) ∧
      (Java.Marshaller.encode (Java.fireRule longName) Java.fireOrders).length < 2 ^ 31 ∧
      ¬ (Java.fireRule longName).Arrives 5 0 0 Java.hot Java.fireOrders := by
  have admissible : (Java.fireRule longName).Admissible :=
    Java.fireRule_admissible (Java.ascii_of_all rfl (by decide))
  have visits := Java.fireOrders_visits longName
  refine ⟨admissible, visits, by decide +kernel, ?_⟩
  rintro ⟨-, -, pkt, reads, -⟩
  refine absurd (Unmarshaller.refuses_rulePkt admissible visits ?_) reads.not_refuses
  intro short
  have refused := (short _ List.mem_cons_self).1
  exact absurd refused (by decide)

theorem fireRule_arrives :
    (Java.fireRule Java.area).Arrives 5 0 0 Java.hot Java.fireOrders := by
  have admissible : (Java.fireRule Java.area).Admissible :=
    Java.fireRule_admissible (Java.ascii_of_all rfl (by decide))
  have visits := Java.fireOrders_visits Java.area
  refine (javaRule_arrives_iff _ admissible _ visits
    (by decide +kernel) 5 0 0 Java.hot).mpr ⟨rfl, ?_⟩
  intro a mem
  rw [List.mem_singleton.mp mem]
  exact ⟨by decide, fun s string => by cases string⟩

end TRex
