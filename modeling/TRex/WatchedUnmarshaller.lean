import TRex.Lib.Grammar
import TRex.RuleUnmarshaller
import TRex.TreeBounds

/-!
# The decoders, watched

The decoders of `Marshalling/Unmarshaller` once more, with the reason why each of them stops. The
input is the body that the header of a packet declares; nothing in the source looks at its length,
so a decoder that needs more reads on behind it. Once a rule is read, the calls that build it write
its parameters to arrays of a fixed size as well. `erase_decodePubPkt` and its siblings say that
these are the decoders of `Marshaller` and `RuleUnmarshaller` with the reasons left out.

Memory is taken to be unbounded: allocations fail only for negative lengths.
-/

namespace TRex

open Wire

/-- Why a decoder does not return. -/
inductive Stop
  /-- A byte behind the body is read. -/
  | past
  /-- A string is written outside the array it is copied to. -/
  | overflow
  /-- A local array has a negative length. -/
  | negativeArray
  /-- `new` of a negative number of elements throws `std::bad_array_new_length`. -/
  | badArrayNewLength
  | assertion
  deriving DecidableEq

/-- An exception and a failed assertion are reports; the others go unnoticed. -/
def Stop.Reported : Stop → Prop
  | .badArrayNewLength => True
  | .assertion => True
  | _ => False

namespace WatchedUnmarshaller

/-- A number or an enumeration: it takes a fixed number of bytes. -/
def primitive {α : Type} (d : Decoder α) : Watched Stop α := Watched.ofDecoder .past d

/-- An array of `length + 1` characters is allocated, filled and terminated at `length`. -/
def decodeString : Watched Stop CString := do
  let length ← primitive Unmarshaller.decodeInt
  if length < -1 then Watched.stop .badArrayNewLength
  else if length = -1 then Watched.stop .overflow
  else
    return CString.cut ((← Watched.take .past length.toNat).map Unmarshaller.decodeChar)

def decodeStringInto (limit : Nat) : Watched Stop CString := do
  let s ← decodeString
  Watched.ensure .overflow (s.length ≤ limit)
  return s

/-- A number of elements and the elements; a negative number of them is none. -/
def counted {α : Type} (d : Watched Stop α) : Watched Stop (List α) := do
  let num ← primitive Unmarshaller.decodeInt
  Watched.times d num.toNat

/-- The same for an array, whose length must not be negative. -/
def countedArray {α : Type} (negative : Stop) (d : Watched Stop α) : Watched Stop (List α) := do
  let num ← primitive Unmarshaller.decodeInt
  Watched.ensure negative (0 ≤ num)
  Watched.times d num.toNat

/-- A string that is asserted to be shorter than the bound before it is copied. -/
def decodeStringBelow (bound : Nat) : Watched Stop CString := do
  let s ← decodeString
  Watched.ensure .assertion (s.length < bound)
  return s

section Records

variable (pad : Nat) (junk : Constraint)

def decodeValue : ValType → Watched Stop Value
  | .int => do return .int (← primitive Unmarshaller.decodeInt)
  | .float => do return .float (← primitive Unmarshaller.decodeFloat)
  | .bool => do return .bool (← primitive Unmarshaller.decodeBoolean) pad
  | .string => do return .string (← decodeStringBelow stringValLen)

def decodeAttribute : Watched Stop Attribute := do
  let name ← decodeStringBelow nameLen
  let type ← primitive Unmarshaller.decodeValType
  let value ← decodeValue pad type
  return ⟨name, value⟩

/-- The member that the type names. -/
def decodeConstraintVal (c : Constraint) : ValType → Watched Stop Constraint
  | .int => do return { c with intVal := ← primitive Unmarshaller.decodeInt }
  | .float => do return { c with floatVal := ← primitive Unmarshaller.decodeFloat }
  | .bool => do return { c with boolVal := ← primitive Unmarshaller.decodeBoolean }
  | .string => do return { c with stringVal := ← decodeStringInto stringValLen }

def decodeConstraint : Watched Stop Constraint := do
  let name ← decodeStringInto nameLen
  let op ← primitive Unmarshaller.decodeConstraintOp
  let type ← primitive Unmarshaller.decodeValType
  decodeConstraintVal { junk with name, op, type } type

def decodeConstraints : Watched Stop (List Constraint) :=
  countedArray .badArrayNewLength (decodeConstraint junk)

def decodeEventPredicate : Watched Stop Predicate := do
  let eventType ← primitive Unmarshaller.decodeInt
  let constraints ← decodeConstraints junk
  let refersTo ← primitive Unmarshaller.decodeInt
  let win ← primitive Unmarshaller.decodeLong
  let kind ← primitive Unmarshaller.decodeCompKind
  return { eventType, constraints, refersTo, win := Unmarshaller.timeOfLong win, kind }

def decodeNegation : Watched Stop Negation := do
  let eventType ← primitive Unmarshaller.decodeInt
  let constraints ← decodeConstraints junk
  let lowerId ← primitive Unmarshaller.decodeInt
  let lowerTime ← primitive Unmarshaller.decodeLong
  let upperId ← primitive Unmarshaller.decodeInt
  return { eventType, constraints, lowerId, lowerTime := Unmarshaller.timeOfLong lowerTime
           upperId }

def decodeAggregate : Watched Stop Aggregate := do
  let eventType ← primitive Unmarshaller.decodeInt
  let constraints ← decodeConstraints junk
  let lowerId ← primitive Unmarshaller.decodeInt
  let lowerTime ← primitive Unmarshaller.decodeLong
  let upperId ← primitive Unmarshaller.decodeInt
  let fun_ ← primitive Unmarshaller.decodeAggregateFun
  let name ← decodeStringInto nameLen
  return { eventType, constraints, lowerId, lowerTime := Unmarshaller.timeOfLong lowerTime, upperId
           fun_, name }

def decodeStaticVal : ValType → Watched Stop OpValueReference
  | .int => do return .static (.int (← primitive Unmarshaller.decodeInt))
  | .float => do return .static (.float (← primitive Unmarshaller.decodeFloat))
  | .bool => do return .static (.bool (← primitive Unmarshaller.decodeBoolean) pad)
  | .string => do return .static (.string (← decodeStringInto stringValLen))

def decodeStaticValueReference : Watched Stop OpValueReference := do
  let type ← primitive Unmarshaller.decodeValType
  decodeStaticVal pad type

/-- The name goes to an array of its own length. -/
def decodeRulePktReference : Watched Stop OpValueReference := do
  let idx ← primitive Unmarshaller.decodeInt
  let type ← primitive Unmarshaller.decodeStateType
  let name ← decodeString
  if type = .agg ∧ name.length = 0 then return .rulePkt idx .agg none
  else return .rulePkt idx type (some name)

def decodeValueReference : Watched Stop OpValueReference := do
  match ← primitive byte with
  | 0 => decodeRulePktReference
  | _ => decodeStaticValueReference pad

/-- A recursion deeper than the input is long has left the input. -/
def decodeOpTreeWithin : Nat → Watched Stop OpTree
  | 0 => Watched.stop .past
  | fuel + 1 => do
    let type ← primitive byte
    let valType ← primitive Unmarshaller.decodeValType
    match type with
    | 0 => return .leaf (← decodeValueReference pad) valType
    | _ =>
      let leftTree ← decodeOpTreeWithin fuel
      let rightTree ← decodeOpTreeWithin fuel
      let op ← primitive Unmarshaller.decodeOpTreeOperation
      return .inner leftTree rightTree op valType

def decodeOpTree : Watched Stop OpTree := fun source => decodeOpTreeWithin pad source.length source

def decodeParameter : Watched Stop ComplexParameter := do
  let operation ← primitive Unmarshaller.decodeConstraintOp
  let type ← primitive Unmarshaller.decodeStateType
  let vtype ← primitive Unmarshaller.decodeValType
  let leftTree ← decodeOpTree pad
  let rightTree ← decodeOpTree pad
  return { operation, type, vtype, leftTree, rightTree }

def decodeTemplateAttr : Watched Stop (CString × OpTree) := do
  let name ← decodeString
  let tree ← decodeOpTree pad
  return (name, tree)

def decodeEventTemplate : Watched Stop CompositeEventTemplate := do
  let eventType ← primitive Unmarshaller.decodeInt
  let attributes ← counted (decodeTemplateAttr pad)
  let staticAttributes ← counted (decodeAttribute pad)
  return { eventType, attributes, staticAttributes }

end Records

/-! ## Packets -/

def decodeEntry {α : Type} (decode : Watched Stop α) : Watched Stop (Int × α) := do
  let key ← primitive Unmarshaller.decodeInt
  let value ← decode
  return (key, value)

def decodeMap {α : Type} (decode : Watched Stop α) : Watched Stop (List (Int × α)) := do
  let entries ← counted (decodeEntry decode)
  return entries.foldl (fun m e => OrdMap.insert (fun a b => decide (a < b)) e.1 e.2 m) []

def decodeIntSet : Watched Stop (List Int) := do
  let elements ← counted (primitive Unmarshaller.decodeInt)
  return elements.foldl (fun s e => OrdSet.insert e s) []

/-! ### The calls that build a rule -/

end WatchedUnmarshaller

/-- `serializeNode` copies the names of all leaves but those that refer to an aggregate. -/
def OpValueReference.NameFits : OpValueReference → Prop
  | .static _ => True
  | .rulePkt _ type name => type = .agg ∨ ∃ s ∈ name, s.length ≤ nameLen

/-- The builder refuses the parameter, or its trees and names fit into a `GPUParameter`. -/
def ComplexParameter.Serializable (par : ComplexParameter) : Prop :=
  max (RulePkt.findFor par.type par.leftTree) (RulePkt.findFor par.type par.rightTree) < 0 ∨
    (par.leftTree.asExpr.height ≤ 3 ∧ par.rightTree.asExpr.height ≤ 3) ∧
      ∀ ref ∈ par.leftTree.refs ++ par.rightTree.refs, ref.NameFits

namespace WatchedUnmarshaller

/-- The builder call for a decoded parameter. -/
def callFor (pkt : RulePkt) (par : ComplexParameter) (gp : ComplexGPUParameter) : RecordedCall :=
  RuleParts.addComplexParameterFor ⟨pkt, []⟩ gp par.type par.operation par.vtype par.leftTree
    par.rightTree

/-- The call writes inside the arrays of the `GPUParameter` that it fills, which holds anything
before. -/
def SerializedInBounds (pkt : RulePkt) (par : ComplexParameter) : Prop :=
  ∀ gp, (callFor pkt par gp).InBounds ⟨pkt, []⟩ ∧ ((callFor pkt par gp).returned = true →
    ∀ ref ∈ par.leftTree.refs ++ par.rightTree.refs, ref.NameFits)

theorem callFor_inBounds_iff (pkt : RulePkt) (par : ComplexParameter) (gp : ComplexGPUParameter) :
    (callFor pkt par gp).InBounds ⟨pkt, []⟩ ↔
      max (RulePkt.findFor par.type par.leftTree) (RulePkt.findFor par.type par.rightTree) < 0 ∨
        (par.leftTree.asExpr.height ≤ 3 ∧ par.rightTree.asExpr.height ≤ 3) := by
  unfold callFor
  cases par.type with
  | state => exact inBounds_addComplexParameterWith ..
  | neg => exact inBounds_addComplexParameterWith ..
  | agg => exact inBounds_addComplexParameterWith ..

theorem callFor_returned_iff (pkt : RulePkt) (par : ComplexParameter) (gp : ComplexGPUParameter) :
    (callFor pkt par gp).returned = true ↔
      ¬ max (RulePkt.findFor par.type par.leftTree)
        (RulePkt.findFor par.type par.rightTree) < 0 := by
  unfold callFor
  cases par.type with
  | state => exact returned_addComplexParameterWith ..
  | neg => exact returned_addComplexParameterWith ..
  | agg => exact returned_addComplexParameterWith ..

theorem serializedInBounds_iff (pkt : RulePkt) (par : ComplexParameter) :
    SerializedInBounds pkt par ↔ par.Serializable := by
  unfold SerializedInBounds ComplexParameter.Serializable
  simp only [callFor_inBounds_iff, callFor_returned_iff]
  constructor
  · intro all
    obtain ⟨bounds, names⟩ := all zeroParameter
    exact bounds.elim Or.inl fun low => or_iff_not_imp_left.mpr fun accepted =>
      ⟨low, names accepted⟩
  · intro fits _
    exact ⟨fits.imp_right And.left, fun accepted => (fits.resolve_left accepted).2⟩

instance : DecidablePred OpValueReference.NameFits
  | .static _ => inferInstanceAs (Decidable True)
  | .rulePkt _ type name =>
    inferInstanceAs (Decidable (type = .agg ∨ ∃ s ∈ name, s.length ≤ nameLen))

instance (par : ComplexParameter) : Decidable par.Serializable :=
  inferInstanceAs (Decidable (_ ∨ _))

instance (pkt : RulePkt) (par : ComplexParameter) : Decidable (SerializedInBounds pkt par) :=
  decidable_of_iff _ (serializedInBounds_iff pkt par).symm

def addParameters : RulePkt → List (Int × ComplexParameter) → Watched Stop RulePkt
  | pkt, [] => return pkt
  | pkt, it :: rest => do
    Watched.ensure .overflow (SerializedInBounds pkt it.2)
    addParameters (Unmarshaller.addParameter pkt it) rest

def buildRulePkt (now lastId : Nat) (predicates : List (Int × Predicate))
    (parameters : List (Int × ComplexParameter)) (aggregates : List (Int × Aggregate))
    (negations : List (Int × Negation)) (eventTemplate : CompositeEventTemplate)
    (consuming : List Int) : Watched Stop RulePkt := do
  let pkt := (RulePkt.new false lastId).1
  let pkt := predicates.foldl Unmarshaller.addPredicate pkt
  let pkt := aggregates.foldl (Unmarshaller.addAggregate now) pkt
  let pkt := negations.foldl (Unmarshaller.addNegation now) pkt
  let pkt ← addParameters pkt parameters
  let pkt := pkt.setCompositeEventTemplate eventTemplate
  return consuming.foldl Unmarshaller.addConsuming pkt

def decodeRulePkt (now pad lastId : Nat) (junk : Constraint) : Watched Stop RulePkt := do
  let predicates ← decodeMap (decodeEventPredicate junk)
  let parameters ← decodeMap (decodeParameter pad)
  let aggregates ← decodeMap (decodeAggregate junk)
  let negations ← decodeMap (decodeNegation junk)
  let eventTemplate ← decodeEventTemplate pad
  let consuming ← decodeIntSet
  buildRulePkt now lastId predicates parameters aggregates negations eventTemplate consuming

/-- The attributes are a local array. -/
def decodePubPkt (now pad : Nat) : Watched Stop PubPkt := do
  let eventType ← primitive Unmarshaller.decodeInt
  let timeStamp ← primitive Unmarshaller.decodeLong
  let attributes ← countedArray .negativeArray (decodeAttribute pad)
  let pkt := PubPkt.new eventType attributes now
  if Unmarshaller.timeOfLong timeStamp > 0 then
    return pkt.setTime (Unmarshaller.timeOfLong timeStamp)
  else return pkt.setTime now

/-- So are the constraints, of which there may be none. -/
def decodeSubPkt (junk : Constraint) : Watched Stop SubPkt := do
  let eventType ← primitive Unmarshaller.decodeInt
  let constraints ← countedArray .negativeArray (decodeConstraint junk)
  return { eventType, constraints }

/-! ## The decoders without the reasons -/

@[simp] theorem erase_primitive {α : Type} (d : Decoder α) : Watched.erase (primitive d) = d :=
  Watched.erase_ofDecoder _ _

@[simp] theorem erase_decodeString : Watched.erase decodeString = Unmarshaller.decodeString := by
  rw [decodeString, Watched.erase_bind, erase_primitive]
  unfold Unmarshaller.decodeString
  congr
  funext length
  split
  case isTrue negative =>
    rw [require, if_neg (by omega)]
    rfl
  case isFalse =>
    split
    case isTrue negative =>
      rw [require, if_neg (by omega)]
      rfl
    case isFalse =>
      rw [require, if_pos (by omega), pure_bind]
      simp only [Watched.erase_bind, Watched.erase_take, Watched.erase_pure]

@[simp] theorem erase_decodeStringInto (limit : Nat) :
    Watched.erase (decodeStringInto limit) = Unmarshaller.decodeStringInto limit := by
  simp only [decodeStringInto, Unmarshaller.decodeStringInto, Watched.erase_bind,
    erase_decodeString, Watched.erase_ensure, Watched.erase_pure]

theorem erase_counted {α : Type} {d : Watched Stop α} {d' : Decoder α}
    (erased : Watched.erase d = d') : Watched.erase (counted d) = (do
      let num ← Unmarshaller.decodeInt
      times d' num.toNat) := by
  simp only [counted, Watched.erase_bind, erase_primitive, Watched.erase_times erased]

theorem erase_countedArray {α : Type} (negative : Stop) {d : Watched Stop α} {d' : Decoder α}
    (erased : Watched.erase d = d') : Watched.erase (countedArray negative d) = (do
      let num ← Unmarshaller.decodeInt
      require (0 ≤ num)
      times d' num.toNat) := by
  simp only [countedArray, Watched.erase_bind, erase_primitive, Watched.erase_ensure,
    Watched.erase_times erased]

section Records

variable (pad : Nat) (junk : Constraint)

@[simp] theorem erase_decodeValue (type : ValType) :
    Watched.erase (decodeValue pad type) = Unmarshaller.decodeValue pad type := by
  cases type <;> simp only [decodeValue, decodeStringBelow, Unmarshaller.decodeValue,
    Watched.erase_bind, erase_primitive, erase_decodeString, Watched.erase_ensure,
    Watched.erase_pure, bind_assoc, pure_bind]

@[simp] theorem erase_decodeAttribute :
    Watched.erase (decodeAttribute pad) = Unmarshaller.decodeAttribute pad := by
  simp only [decodeAttribute, decodeStringBelow, Unmarshaller.decodeAttribute, Watched.erase_bind,
    erase_primitive, erase_decodeString, Watched.erase_ensure, Watched.erase_pure,
    erase_decodeValue, bind_assoc, pure_bind]

@[simp] theorem erase_decodeConstraint :
    Watched.erase (decodeConstraint junk) = Unmarshaller.decodeConstraint junk := by
  simp only [decodeConstraint, Unmarshaller.decodeConstraint, Watched.erase_bind, erase_primitive,
    erase_decodeStringInto]
  congr
  funext name
  congr
  funext op
  congr
  funext type
  cases type <;> simp only [decodeConstraintVal, Watched.erase_bind, erase_primitive,
    erase_decodeStringInto, Watched.erase_pure]

@[simp] theorem erase_decodeConstraints :
    Watched.erase (decodeConstraints junk) = Unmarshaller.decodeConstraints junk := by
  rw [decodeConstraints, erase_countedArray _ (erase_decodeConstraint junk)]
  rfl

@[simp] theorem erase_decodeEventPredicate :
    Watched.erase (decodeEventPredicate junk) = Unmarshaller.decodeEventPredicate junk := by
  simp only [decodeEventPredicate, Unmarshaller.decodeEventPredicate, Watched.erase_bind,
    erase_primitive, erase_decodeConstraints, Watched.erase_pure]

@[simp] theorem erase_decodeNegation :
    Watched.erase (decodeNegation junk) = Unmarshaller.decodeNegation junk := by
  simp only [decodeNegation, Unmarshaller.decodeNegation, Watched.erase_bind, erase_primitive,
    erase_decodeConstraints, Watched.erase_pure]

@[simp] theorem erase_decodeAggregate :
    Watched.erase (decodeAggregate junk) = Unmarshaller.decodeAggregate junk := by
  simp only [decodeAggregate, Unmarshaller.decodeAggregate, Watched.erase_bind, erase_primitive,
    erase_decodeConstraints, erase_decodeStringInto, Watched.erase_pure]

@[simp] theorem erase_decodeValueReference :
    Watched.erase (decodeValueReference pad) = Unmarshaller.decodeValueReference pad := by
  have static : Watched.erase (decodeStaticValueReference pad) =
      Unmarshaller.decodeStaticValueReference pad := by
    simp only [decodeStaticValueReference, Unmarshaller.decodeStaticValueReference,
      Watched.erase_bind, erase_primitive]
    congr
    funext type
    cases type <;> simp only [decodeStaticVal, Watched.erase_bind, erase_primitive,
      erase_decodeStringInto, Watched.erase_pure]
  have rulePkt : Watched.erase decodeRulePktReference = Unmarshaller.decodeRulePktReference := by
    simp only [decodeRulePktReference, Unmarshaller.decodeRulePktReference, Watched.erase_bind,
      erase_primitive, erase_decodeString, apply_ite Watched.erase, Watched.erase_pure]
  simp only [decodeValueReference, Unmarshaller.decodeValueReference, Watched.erase_bind,
    erase_primitive]
  congr
  funext b
  -- both sides branch on the same byte
  by_cases isRulePkt : b = 0
  · rw [isRulePkt]
    exact rulePkt
  · simp only [static]

theorem erase_decodeOpTreeWithin (fuel : Nat) :
    Watched.erase (decodeOpTreeWithin pad fuel) = Unmarshaller.decodeOpTreeWithin pad fuel := by
  induction fuel with
  | zero => rfl
  | succ fuel ih =>
      simp only [decodeOpTreeWithin, Unmarshaller.decodeOpTreeWithin, Watched.erase_bind,
        erase_primitive]
      congr
      funext type
      congr
      funext valType
      split
      · simp only [Watched.erase_bind, erase_decodeValueReference, Watched.erase_pure]
      · simp only [Watched.erase_bind, ih, erase_primitive, Watched.erase_pure]

@[simp] theorem erase_decodeOpTree :
    Watched.erase (decodeOpTree pad) = Unmarshaller.decodeOpTree pad := by
  funext source
  exact congrFun (erase_decodeOpTreeWithin pad source.length) source

@[simp] theorem erase_decodeParameter :
    Watched.erase (decodeParameter pad) = Unmarshaller.decodeParameter pad := by
  simp only [decodeParameter, Unmarshaller.decodeParameter, Watched.erase_bind, erase_primitive,
    erase_decodeOpTree, Watched.erase_pure]

@[simp] theorem erase_decodeEventTemplate :
    Watched.erase (decodeEventTemplate pad) = Unmarshaller.decodeEventTemplate pad := by
  have attr : Watched.erase (decodeTemplateAttr pad) =
      Unmarshaller.decodeTemplateAttr pad := by
    simp only [decodeTemplateAttr, Unmarshaller.decodeTemplateAttr, Watched.erase_bind,
      erase_decodeString, erase_decodeOpTree, Watched.erase_pure]
  simp only [decodeEventTemplate, Unmarshaller.decodeEventTemplate, Watched.erase_bind,
    erase_primitive, erase_counted attr, erase_counted (erase_decodeAttribute pad),
    Watched.erase_pure, bind_assoc]

end Records

theorem erase_decodeMap {α : Type} {d : Watched Stop α} {d' : Decoder α}
    (erased : Watched.erase d = d') :
    Watched.erase (decodeMap d) = Unmarshaller.decodeMap d' := by
  have entry : Watched.erase (decodeEntry d) = (do
      let key ← Unmarshaller.decodeInt
      let value ← d'
      return (key, value)) := by
    simp only [decodeEntry, Watched.erase_bind, erase_primitive, erased, Watched.erase_pure]
  simp only [decodeMap, Unmarshaller.decodeMap, Watched.erase_bind, erase_counted entry,
    Watched.erase_pure, bind_assoc]

theorem addParameters_of_serializable {parameters : List (Int × ComplexParameter)}
    (fits : ∀ it ∈ parameters, it.2.Serializable) (pkt : RulePkt) :
    addParameters pkt parameters = pure (parameters.foldl Unmarshaller.addParameter pkt) := by
  induction parameters generalizing pkt with
  | nil => rfl
  | cons it rest ih =>
      have first := (serializedInBounds_iff pkt it.2).mpr (fits it List.mem_cons_self)
      rw [addParameters, Watched.ensure, if_pos first, pure_bind,
        ih fun it mem => fits it (List.mem_cons_of_mem _ mem)]
      rfl

/-- The first parameter that does not fit stops the loop. -/
theorem addParameters_of_not {parameters : List (Int × ComplexParameter)}
    (not : ¬ ∀ it ∈ parameters, it.2.Serializable) (pkt : RulePkt) :
    addParameters pkt parameters = Watched.stop .overflow := by
  induction parameters generalizing pkt with
  | nil => exact absurd (fun it mem => absurd mem List.not_mem_nil) not
  | cons it rest ih =>
      rw [addParameters, Watched.ensure]
      by_cases first : it.2.Serializable
      · rw [if_pos ((serializedInBounds_iff pkt it.2).mpr first), pure_bind]
        exact ih (fun later => not (List.forall_mem_cons.mpr ⟨first, later⟩)) _
      · rw [if_neg (mt (serializedInBounds_iff pkt it.2).mp first)]
        rfl

section Build

variable {now lastId : Nat} {predicates : List (Int × Predicate)}
  {parameters : List (Int × ComplexParameter)} {aggregates : List (Int × Aggregate)}
  {negations : List (Int × Negation)} {eventTemplate : CompositeEventTemplate}
  {consuming : List Int}

theorem buildRulePkt_of_serializable (fits : ∀ it ∈ parameters, it.2.Serializable) :
    buildRulePkt now lastId predicates parameters aggregates negations eventTemplate consuming =
      pure (Unmarshaller.buildRulePkt now lastId predicates parameters aggregates negations
        eventTemplate consuming) := by
  simp only [buildRulePkt, addParameters_of_serializable fits, pure_bind]
  rfl

theorem buildRulePkt_of_not (not : ¬ ∀ it ∈ parameters, it.2.Serializable) :
    buildRulePkt now lastId predicates parameters aggregates negations eventTemplate consuming =
      Watched.stop .overflow := by
  simp only [buildRulePkt, addParameters_of_not not]
  rfl

theorem erase_buildRulePkt :
    Watched.erase (buildRulePkt now lastId predicates parameters aggregates negations eventTemplate
        consuming) = (do
      require (∀ it ∈ parameters, it.2.Serializable)
      return Unmarshaller.buildRulePkt now lastId predicates parameters aggregates negations
        eventTemplate consuming) := by
  by_cases fits : ∀ it ∈ parameters, it.2.Serializable
  · rw [buildRulePkt_of_serializable fits, require, if_pos fits, pure_bind, Watched.erase_pure]
  · rw [buildRulePkt_of_not fits, require, if_neg fits]
    rfl

end Build

/-- A rule comes out as the decoder makes it, if it comes out. -/
theorem decodeRulePkt_some {now pad lastId : Nat} {junk : Constraint} {input : Bytes}
    {x : RulePkt × Bytes}
    (read : Watched.erase (decodeRulePkt now pad lastId junk) input = some x) :
    Unmarshaller.decodeRulePkt now pad lastId junk input = some x := by
  have consuming : Watched.erase decodeIntSet = Unmarshaller.decodeIntSet := by
    simp only [decodeIntSet, Unmarshaller.decodeIntSet, Watched.erase_bind,
      erase_counted (erase_primitive Unmarshaller.decodeInt), Watched.erase_pure, bind_assoc]
  simp only [decodeRulePkt, Watched.erase_bind,
    erase_decodeMap (erase_decodeEventPredicate junk), erase_decodeMap (erase_decodeParameter pad),
    erase_decodeMap (erase_decodeAggregate junk), erase_decodeMap (erase_decodeNegation junk),
    erase_decodeEventTemplate, consuming, erase_buildRulePkt] at read
  refine bind_mono (fun predicates => bind_mono fun parameters => bind_mono fun aggregates =>
    bind_mono fun negations => bind_mono fun eventTemplate => bind_mono fun consuming => ?_) read
  intro input x built
  rw [require] at built
  split at built
  · rwa [pure_bind] at built
  · cases built

theorem erase_decodePubPkt (now pad : Nat) :
    Watched.erase (decodePubPkt now pad) = Unmarshaller.decodePubPkt now pad := by
  simp only [decodePubPkt, Unmarshaller.decodePubPkt, Watched.erase_bind, erase_primitive,
    erase_countedArray _ (erase_decodeAttribute pad), apply_ite Watched.erase, Watched.erase_pure,
    bind_assoc]

theorem erase_decodeSubPkt (junk : Constraint) :
    Watched.erase (decodeSubPkt junk) = Unmarshaller.decodeSubPkt junk := by
  simp only [decodeSubPkt, Unmarshaller.decodeSubPkt, Watched.erase_bind, erase_primitive,
    erase_countedArray _ (erase_decodeConstraint junk), Watched.erase_pure, bind_assoc]
  congr
  funext eventType
  congr
  funext numConstraints
  split
  case isTrue none =>
    rw [none]
    rfl
  case isFalse => rfl

end WatchedUnmarshaller

end TRex
