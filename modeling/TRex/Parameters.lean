import TRex.Structures

/-!
# Evaluation of parameters

The `compute*ValueForParameters` family and `checkComplexParameter` of `Common/Funs.cc`, and
`StacksRule::checkParameter`. A tree is evaluated against the packet under test and the partial
result built so far; every leaf reads one packet, `OpValueReference.source`, and the value of a tree
depends on nothing else (`checkComplexParameter_congr`).

A slot of a partial result is `none` until a packet is assigned to it. The source reads an
uninitialised pointer there; the model treats the attribute as missing, and the results that depend
on parameters assume or prove that no such slot is read.

Two things that go wrong in the source have a value here. Division by zero, and of the least integer
by -1, traps there and is total here; `IntegerDivision` is about when it traps. The source copies
the strings it compares to buffers of `STRING_VAL_LEN` bytes, which 15 characters and the NUL
overrun; here strings have any length. Those of received packets are shorter, as the decoder
asserts. -/

namespace TRex

/-- `PartialEvent`: the packet assigned to each state so far. The source has an array of
`MAX_RULE_FIELDS` slots, which longer rules overrun; here every state has a slot. -/
@[ext] structure PartialEvent where
  indexes : Nat → Option PubPktPtr

namespace PartialEvent

/-- A fresh `PartialEvent`. -/
def empty : PartialEvent := ⟨fun _ => none⟩

/-- `indexes[i] = p`. -/
def set (pe : PartialEvent) (i : Nat) (p : PubPktPtr) : PartialEvent :=
  ⟨fun j => if j = i then some p else pe.indexes j⟩

@[simp] theorem set_self (pe : PartialEvent) (i : Nat) (p : PubPktPtr) :
    (pe.set i p).indexes i = some p := by
  simp [set]

@[simp] theorem set_of_ne {i j : Nat} (pe : PartialEvent) (p : PubPktPtr) (ne : j ≠ i) :
    (pe.set i p).indexes j = pe.indexes j := by
  simp [set, ne]

/-- `indexes[i]->getTimeStamp()`, read only where a packet is assigned. -/
def timeOf (pe : PartialEvent) (i : Int) : Nat :=
  ((pe.indexes i.toNat).map PubPktPtr.getTimeStamp).getD 0

theorem timeOf_of_some {pe : PartialEvent} {i : Int} {p : PubPktPtr}
    (assigned : pe.indexes i.toNat = some p) : pe.timeOf i = p.getTimeStamp := by
  simp [timeOf, assigned]

end PartialEvent

/-! ## Leaves -/

/-- The packet a reference reads: the packet under test, or a slot of the partial result. -/
def OpValueReference.source (pkt : PubPktPtr) (pe : PartialEvent) (index : Int)
    (sType : StateType) : OpValueReference → Option PubPktPtr
  | .static _ => none
  | .rulePkt refIndex type _ =>
    if (refIndex = index ∧ type ≠ .agg ∧ type ≠ .neg ∧ sType = .state) ∨
        (type = .neg ∧ sType = .neg) ∨ (type = .agg ∧ sType = .agg) then some pkt
    else pe.indexes refIndex.toNat

/-- The attribute of that name in the packet a reference reads. -/
def attributeIn (cPkt : Option PubPktPtr) (name : Option CString) : Option Value :=
  cPkt.bind fun p => name.bind fun n =>
    (p.pkt.getAttributeIndexAndType n).map fun (index, _) => p.pkt.valueAt index

def boolToInt (b : Bool) : Int := if b then 1 else 0

/-- The conversions to `int` of the leaves; a string has none. -/
def Value.asInt : Value → Int
  | .int v => v
  | .float f => f.toInt
  | .bool b _ => boolToInt b
  | .string _ => 0

def Value.asFloat : Value → CFloat
  | .int v => CFloat.ofInt v
  | .float f => f
  | .bool b _ => CFloat.ofInt (boolToInt b)
  | .string _ => CFloat.ofInt 0

/-! ## Trees -/

section Evaluation

variable (pkt : PubPktPtr) (pe : PartialEvent) (index : Int) (sType : StateType)

/-- Total, where the division of the source traps. -/
def computeIntValueForParameters : OpTree → Int
  | .leaf (.static value) _ => value.asInt
  | .leaf ref@(.rulePkt _ _ name) _ =>
    ((attributeIn (ref.source pkt pe index sType) name).map Value.asInt).getD 0
  | .inner left right op _ =>
    let leftValue := computeIntValueForParameters left
    let rightValue := computeIntValueForParameters right
    match op with
    | .add => wrap32 (leftValue + rightValue)
    | .sub => wrap32 (leftValue - rightValue)
    | .mul => wrap32 (leftValue * rightValue)
    | .div => wrap32 (leftValue.tdiv rightValue)
    | .and | .or => 0

def computeFloatValueForParameters : OpTree → CFloat
  | .leaf (.static value) _ => value.asFloat
  | .leaf ref@(.rulePkt _ _ name) _ =>
    ((attributeIn (ref.source pkt pe index sType) name).map Value.asFloat).getD (CFloat.ofInt 0)
  | .inner left right op _ =>
    let leftValue := computeFloatValueForParameters left
    let rightValue := computeFloatValueForParameters right
    match op with
    | .add => leftValue.add rightValue
    | .sub => leftValue.sub rightValue
    | .mul => leftValue.mul rightValue
    | .div => leftValue.div rightValue
    | .and | .or => CFloat.ofInt 0

/-- A Boolean attribute is read through `getIntAttributeVal`, so the padding of its union counts;
an integer attribute is not read at all. -/
def computeBoolValueForParameters : OpTree → Bool
  | .leaf (.static value) _ =>
    match value with
    | .int v => v != 0
    | .float f => f.toBool
    | .bool b _ => b
    | .string _ => false
  | .leaf ref@(.rulePkt _ _ name) _ =>
    match attributeIn (ref.source pkt pe index sType) name with
    | some (.bool b pad) => (Value.bool b pad).intVal != 0
    | some (.float f) => f.toBool
    | _ => false
  | .inner left right op _ =>
    let leftValue := computeBoolValueForParameters left
    let rightValue := computeBoolValueForParameters right
    match op with
    | .and => leftValue && rightValue
    | .or => leftValue || rightValue
    | _ => false

/-- `none` where the source leaves the result buffer unwritten; the buffer has no length here. -/
def computeStringValueForParameters : OpTree → Option CString
  | .leaf (.static value) _ =>
    match value with
    | .string s => some s
    | _ => none
  | .leaf ref@(.rulePkt _ _ name) _ =>
    match attributeIn (ref.source pkt pe index sType) name with
    | none => some []
    | some (.string s) => some s
    | some _ => none
  | .inner _ _ _ _ => none

/-- The comparison of a complex parameter. On Booleans `EQ` is conjunction and `NE` disjunction. -/
def checkComplexParameter (parameter : CPUParameter) : Bool :=
  match parameter.vtype with
  | .int =>
    let left := computeIntValueForParameters pkt pe index sType parameter.leftTree
    let right := computeIntValueForParameters pkt pe index sType parameter.rightTree
    match parameter.operation with
    | .eq => left == right
    | .gt => decide (left > right)
    | .lt => decide (left < right)
    | .ne => left != right
    | .le => decide (left ≤ right)
    | .ge => decide (left ≥ right)
    | .in_ => false
  | .float =>
    let left := computeFloatValueForParameters pkt pe index sType parameter.leftTree
    let right := computeFloatValueForParameters pkt pe index sType parameter.rightTree
    match parameter.operation with
    | .eq => left.eq right
    | .gt => right.lt left
    | .lt => left.lt right
    | .ne => !left.eq right
    | .le => left.le right
    | .ge => right.le left
    | .in_ => false
  | .bool =>
    let leftValue := computeBoolValueForParameters pkt pe index sType parameter.leftTree
    let rightValue := computeBoolValueForParameters pkt pe index sType parameter.rightTree
    match parameter.operation with
    | .eq => leftValue && rightValue
    | .ne => leftValue || rightValue
    | _ => false
  | .string =>
    let strLeft := computeStringValueForParameters pkt pe index sType parameter.leftTree
    let strRight := computeStringValueForParameters pkt pe index sType parameter.rightTree
    match parameter.operation with
    | .eq => strLeft == strRight
    | .ne => strLeft != strRight
    | _ => false

/-- `StacksRule::checkParameters`. -/
def checkParameters (complexParameters : List CPUParameter) : Bool :=
  complexParameters.all (checkComplexParameter pkt pe index sType)

end Evaluation

/-- `StacksRule::checkParameter`: the two named attributes have one type and equal values. Strings
are compared whole, without the source's buffers of 15 bytes. -/
def checkParameter (pkt : Option PubPktPtr) (pe : PartialEvent) (parameter : Parameter) : Bool :=
  let receivedPkt := pe.indexes parameter.evIndex1.toNat
  match attributeIn receivedPkt (some parameter.name2), attributeIn pkt (some parameter.name1) with
  | some (.int v), some (.int w) => v == w
  | some (.float f), some (.float g) => f.eq g
  | some (.bool b _), some (.bool c _) => b == c
  | some (.string s), some (.string t) => s == t
  | _, _ => false

/-! ## A tree depends only on what its leaves read -/

def OpTree.refs : OpTree → List OpValueReference
  | .leaf ref _ => [ref]
  | .inner left right _ _ => left.refs ++ right.refs

def CPUParameter.refs (parameter : CPUParameter) : List OpValueReference :=
  parameter.leftTree.refs ++ parameter.rightTree.refs

section Congruence

variable {pkt pkt' : PubPktPtr} {pe pe' : PartialEvent} {index index' : Int}
  {sType sType' : StateType}

/-- The leaves read the same packets in both situations. -/
def ReadAlike (pkt : PubPktPtr) (pe : PartialEvent) (index : Int) (sType : StateType)
    (pkt' : PubPktPtr) (pe' : PartialEvent) (index' : Int) (sType' : StateType)
    (refs : List OpValueReference) : Prop :=
  ∀ ref ∈ refs, ref.source pkt pe index sType = ref.source pkt' pe' index' sType'

theorem ReadAlike.left {refs refs' : List OpValueReference}
    (same : ReadAlike pkt pe index sType pkt' pe' index' sType' (refs ++ refs')) :
    ReadAlike pkt pe index sType pkt' pe' index' sType' refs :=
  fun ref mem => same ref (List.mem_append_left _ mem)

theorem ReadAlike.right {refs refs' : List OpValueReference}
    (same : ReadAlike pkt pe index sType pkt' pe' index' sType' (refs ++ refs')) :
    ReadAlike pkt pe index sType pkt' pe' index' sType' refs' :=
  fun ref mem => same ref (List.mem_append_right _ mem)

theorem computeIntValueForParameters_congr {tree : OpTree}
    (same : ReadAlike pkt pe index sType pkt' pe' index' sType' tree.refs) :
    computeIntValueForParameters pkt pe index sType tree =
      computeIntValueForParameters pkt' pe' index' sType' tree := by
  induction tree with
  | leaf ref valType =>
      cases ref with
      | static value => rfl
      | rulePkt refIndex type name =>
          simp only [computeIntValueForParameters, same _ (List.mem_singleton.mpr rfl)]
  | inner left right op valType ihLeft ihRight =>
      simp only [computeIntValueForParameters, ihLeft same.left, ihRight same.right]

theorem computeFloatValueForParameters_congr {tree : OpTree}
    (same : ReadAlike pkt pe index sType pkt' pe' index' sType' tree.refs) :
    computeFloatValueForParameters pkt pe index sType tree =
      computeFloatValueForParameters pkt' pe' index' sType' tree := by
  induction tree with
  | leaf ref valType =>
      cases ref with
      | static value => rfl
      | rulePkt refIndex type name =>
          simp only [computeFloatValueForParameters, same _ (List.mem_singleton.mpr rfl)]
  | inner left right op valType ihLeft ihRight =>
      simp only [computeFloatValueForParameters, ihLeft same.left, ihRight same.right]

theorem computeBoolValueForParameters_congr {tree : OpTree}
    (same : ReadAlike pkt pe index sType pkt' pe' index' sType' tree.refs) :
    computeBoolValueForParameters pkt pe index sType tree =
      computeBoolValueForParameters pkt' pe' index' sType' tree := by
  induction tree with
  | leaf ref valType =>
      cases ref with
      | static value => rfl
      | rulePkt refIndex type name =>
          simp only [computeBoolValueForParameters, same _ (List.mem_singleton.mpr rfl)]
  | inner left right op valType ihLeft ihRight =>
      simp only [computeBoolValueForParameters, ihLeft same.left, ihRight same.right]

theorem computeStringValueForParameters_congr {tree : OpTree}
    (same : ReadAlike pkt pe index sType pkt' pe' index' sType' tree.refs) :
    computeStringValueForParameters pkt pe index sType tree =
      computeStringValueForParameters pkt' pe' index' sType' tree := by
  cases tree with
  | leaf ref valType =>
      cases ref with
      | static value => rfl
      | rulePkt refIndex type name =>
          simp only [computeStringValueForParameters, same _ (List.mem_singleton.mpr rfl)]
  | inner left right op valType => rfl

/-- A complex parameter has the same truth value where its leaves read the same packets. -/
theorem checkComplexParameter_eq_of_readAlike {parameter : CPUParameter}
    (same : ReadAlike pkt pe index sType pkt' pe' index' sType' parameter.refs) :
    checkComplexParameter pkt pe index sType parameter =
      checkComplexParameter pkt' pe' index' sType' parameter := by
  have left : ReadAlike pkt pe index sType pkt' pe' index' sType' parameter.leftTree.refs :=
    same.left
  have right : ReadAlike pkt pe index sType pkt' pe' index' sType' parameter.rightTree.refs :=
    same.right
  simp only [checkComplexParameter, computeIntValueForParameters_congr left,
    computeIntValueForParameters_congr right, computeFloatValueForParameters_congr left,
    computeFloatValueForParameters_congr right, computeBoolValueForParameters_congr left,
    computeBoolValueForParameters_congr right, computeStringValueForParameters_congr left,
    computeStringValueForParameters_congr right]

/-- The leaves read the same packets in both partial results. -/
def SameSources (pkt : PubPktPtr) (pe pe' : PartialEvent) (index : Int) (sType : StateType)
    (refs : List OpValueReference) : Prop :=
  ∀ ref ∈ refs, ref.source pkt pe index sType = ref.source pkt pe' index sType

/-- A complex parameter has the same truth value on partial results that agree on what it reads. -/
theorem checkComplexParameter_congr {parameter : CPUParameter}
    (same : SameSources pkt pe pe' index sType parameter.refs) :
    checkComplexParameter pkt pe index sType parameter =
      checkComplexParameter pkt pe' index sType parameter :=
  checkComplexParameter_eq_of_readAlike same

end Congruence

/-! ## Parameters that read only assigned events -/

/-- Every leaf is a constant or a state between 0 and `last`. -/
def CPUParameter.ReadsStatesUpTo (parameter : CPUParameter) (last : Int) : Prop :=
  ∀ ref ∈ parameter.refs, match ref with
    | .static _ => True
    | .rulePkt index type _ => type = .state ∧ 0 ≤ index ∧ index ≤ last

/-- Every leaf is a constant, the negation event or a state between 0 and `last`. -/
def CPUParameter.ReadsNegationOrStatesUpTo (parameter : CPUParameter) (last : Int) : Prop :=
  ∀ ref ∈ parameter.refs, match ref with
    | .static _ => True
    | .rulePkt index type _ => type = .neg ∨ (type = .state ∧ 0 ≤ index ∧ index ≤ last)

/-- Two partial results agree below `bound`. -/
def PartialEvent.AgreeBelow (bound : Nat) (pe pe' : PartialEvent) : Prop :=
  ∀ j < bound, pe.indexes j = pe'.indexes j

/-- A state parameter with last index `i` cannot tell apart results that agree below `i`: state `i`
itself is the packet under test. -/
theorem CPUParameter.ReadsStatesUpTo.sameSources {parameter : CPUParameter} {i : Nat}
    {pkt : PubPktPtr} {pe pe' : PartialEvent} (reads : parameter.ReadsStatesUpTo i)
    (agree : pe.AgreeBelow i pe') : SameSources pkt pe pe' i .state parameter.refs := by
  intro ref mem
  have read := reads ref mem
  cases ref with
  | static value => rfl
  | rulePkt refIndex type name =>
      obtain ⟨rfl, nonneg, le⟩ := read
      by_cases current : refIndex = i
      · simp [OpValueReference.source, current]
      · simp only [OpValueReference.source, current]
        rw [agree refIndex.toNat (by omega)]

/-- A negation parameter that reads states up to `i` cannot tell apart results that agree on them.
-/
theorem CPUParameter.ReadsNegationOrStatesUpTo.sameSources {parameter : CPUParameter} {i : Nat}
    {pkt : PubPktPtr} {index : Int} {pe pe' : PartialEvent}
    (reads : parameter.ReadsNegationOrStatesUpTo i) (agree : pe.AgreeBelow (i + 1) pe') :
    SameSources pkt pe pe' index .neg parameter.refs := by
  intro ref mem
  have read := reads ref mem
  cases ref with
  | static value => rfl
  | rulePkt refIndex type name =>
      rcases read with rfl | ⟨rfl, nonneg, le⟩
      · simp [OpValueReference.source]
      · simp only [OpValueReference.source]
        rw [agree refIndex.toNat (by omega)]

end TRex
