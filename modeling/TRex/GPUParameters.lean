import TRex.CudaKernels
import TRex.Lib.StackMachine
import TRex.Parameters

/-!
# Complex parameters on the device

The second half of `RulePkt::addComplexParameter`, which writes the two trees of a parameter into
arrays (`serializeTrees`), `CudaKernels::setParameters`, which looks up the attributes they name,
and the functions of `Kernels/StateParametersFuns.cu` and `Kernels/Parameters.cu` that evaluate the
arrays on a small stack. A parameter is written over memory that was never set; where the result of
a function could depend on such memory, or on a place outside an array, it is `none`. -/

namespace TRex

def maxDepth : Nat := 5

def treeSize : Nat := 2 ^ maxDepth - 1

def stackSize : Nat := 2 ^ (maxDepth - 1)

inductive OpTreeType
  | leaf | inner
  deriving DecidableEq

/-! ## Nodes -/

/-- `GPUNode`. The union is the member that was written last, `value`; `rest` is what a string read
from the union finds behind the four bytes of a number, up to the NUL that ends it. -/
structure Node where
  operation : OpTreeOperation
  type : OpTreeType
  sType : StateType
  refersTo : Int
  attrNum : Int
  empty : Bool
  isStatic : Bool
  attrName : CString
  valueType : ValType
  value : Value
  rest : CString

/-- The union read as a string. -/
def Node.stringVal (node : Node) : CString :=
  match node.value with
  | .string s => s
  | value =>
    if 0 ∈ value.raw then value.stringVal else value.raw.map Char.ofNat ++ node.rest

/-- `ComplexGPUParameterConstraints`. -/
structure GPUParameter where
  operation : Op
  sType : StateType
  vType : ValType
  leftTree : Nat → Node
  lSize : Nat
  rSize : Nat
  rightTree : Nat → Node
  lastIndex : Int
  depth : Nat

/-! ## Serialization -/

def findDepth : OpTree → Nat → Nat
  | .leaf _ _, depth => depth
  | .inner left right _ _, depth => max (findDepth left (depth + 1)) (findDepth right (depth + 1))

/-- What `serializeTrees` clears a node to. -/
def Node.clear (node : Node) : Node :=
  { node with
    empty := true
    refersTo := -1
    attrNum := -1
    value := .int (-1)
    type := .inner
    sType := .state
    valueType := .int }

/-- The leaf case of `serializeNode`. Only numbers are stored as the value of a leaf. -/
def serializeLeaf (predicatesNum : Nat) (reference : OpValueReference) (node : Node) : Node :=
  match reference with
  | .static value =>
    { node with
      empty := false
      type := .leaf
      isStatic := true
      valueType := value.type
      value := match value with
        | .int _ | .float _ => value
        | .bool _ _ | .string _ => node.value }
  | .rulePkt index type name =>
    { node with
      empty := false
      type := .leaf
      isStatic := false
      sType := type
      refersTo := if type = .state then (predicatesNum : Int) - index - 1 else index
      attrName := if type = .agg then node.attrName else name.getD node.attrName }

def serializeInner (op : OpTreeOperation) (node : Node) : Node :=
  { node with empty := false, type := .inner, operation := op }

/-- `serializeNode`, on the index of the next node to write and the array. -/
def serializeNode (predicatesNum : Nat) : OpTree → Nat × (Nat → Node) → Nat × (Nat → Node)
  | .leaf reference _, (idx, serialized) =>
    (idx + 1, Function.update serialized idx
      (serializeLeaf predicatesNum reference (serialized idx)))
  | .inner left right op _, (idx, serialized) =>
    serializeNode predicatesNum right (serializeNode predicatesNum left
      (idx + 1, Function.update serialized idx (serializeInner op (serialized idx))))

/-- The part of an array that is cleared. -/
def clearTree (depth : Nat) (tree : Nat → Node) (i : Nat) : Node :=
  if i < 2 ^ depth - 1 then (tree i).clear else tree i

/-- `serializeTrees`. Clearing a tree that is too deep runs past the array. -/
def serializeTrees (predicatesNum : Nat) (ltree rtree : OpTree) (gp : GPUParameter) :
    Option GPUParameter :=
  if treeSize < 2 ^ gp.depth - 1 then none
  else
    let left := serializeNode predicatesNum ltree (0, clearTree gp.depth gp.leftTree)
    let right := serializeNode predicatesNum rtree (0, clearTree gp.depth gp.rightTree)
    some { gp with
      leftTree := left.2
      lSize := left.1
      rightTree := right.2
      rSize := right.1 }

namespace RulePkt

/-- What `addComplexParameter` stores for the CPU. -/
def cpuParameter (pOperation : Op) (type : ValType) (leftTree rightTree : OpTree) : CPUParameter :=
  { operation := pOperation
    type := .state
    vtype := type
    leftTree, rightTree
    lastIndex := max (findLastState leftTree) (findLastState rightTree) }

/-- What it stores for the device, on the memory of the local variable `gp`. -/
def gpuParameter (pkt : RulePkt) (gp : GPUParameter) (pOperation : Op) (type : ValType)
    (leftTree rightTree : OpTree) : Option GPUParameter :=
  let lIndex := max (findLastState leftTree) (findLastState rightTree)
  serializeTrees pkt.predicates.length leftTree rightTree
    { gp with
      lastIndex := (pkt.predicates.length : Int) - lIndex - 1
      depth := max (findDepth leftTree 2) (findDepth rightTree 2)
      sType := .state
      vType := type
      operation := pOperation }

end RulePkt

/-! ## Attributes -/

namespace GPUProcessor

variable (p : GPUProcessor)

/-- The event of a stack that attributes are looked up in. -/
def sample (stype : StateType) (stack : Int) : Option PubPkt :=
  if 0 ≤ stack then p.samples stype stack.toNat else none

def getAttributeIndexAndType (state : Int) (name : CString) (stype : StateType) :
    Option (Nat × ValType) :=
  let found := match stype with
    | .state => p.sample .state ((p.sequenceLen : Int) - state - 1)
    | .agg => p.sample .agg state
    | .neg => p.sample .neg state
  found.bind fun event => event.getAttributeIndexAndType name

/-- What `setParameters` does to a node: a leaf that is no constant gets the place and the type of
its attribute. -/
def setNode (node : Node) : Option Node :=
  if !node.empty && !node.isStatic && node.type = .leaf then
    (p.getAttributeIndexAndType node.refersTo node.attrName node.sType).map
      fun (attrNum, valueType) =>
      { node with attrNum, valueType }
  else some node

/-- The nodes of one tree, written over those of `host`. -/
def setTree (depth : Nat) (tree host : Nat → Node) : Option (Nat → Node) :=
  if ∀ r < 2 ^ depth - 1, (p.setNode (tree r)).isSome then
    some fun r => if r < 2 ^ depth - 1 then (p.setNode (tree r)).getD (tree r) else host r
  else none

/-- `setParameters` for one parameter, `host` being the slot of `hostComplexParameters`. -/
def setParameter (param host : GPUParameter) : Option GPUParameter := do
  let leftTree ← p.setTree param.depth param.leftTree host.leftTree
  let rightTree ← p.setTree param.depth param.rightTree host.rightTree
  return { param with leftTree, rightTree }

end GPUProcessor

/-! ## Kernels -/

section Kernels

-- the event under test (`stack[id + offset]`), those assigned so far, and the number of the state
variable (current : EventInfo) (ev : EventInfoSet) (stateIndex : Int)

def readEvent (node : Node) : Option EventInfo :=
  if node.refersTo = stateIndex ∧ node.sType = .state then some current
  else if 0 ≤ node.refersTo then some (ev node.refersTo.toNat)
  else none

def readAttribute (node : Node) : Option Attribute :=
  (readEvent current ev stateIndex node).bind fun myEvt =>
    if 0 ≤ node.attrNum then myEvt.attr[node.attrNum.toNat]? else none

/-- What the functions for reading a number or a Boolean do; they differ in the conversions. -/
def readValue {α : Type} (ofInt : Int → α) (ofFloat : CFloat → α) (ofBool : Bool → α) (zero : α)
    (node : Node) : Option α :=
  match node.isStatic, node.valueType with
  | true, .int => some (ofInt node.value.intVal)
  | true, .float => some (ofFloat node.value.floatVal)
  | true, .bool => some (ofBool node.value.boolVal)
  | _, _ =>
    if node.sType = .agg then some zero
    else (readAttribute current ev stateIndex node).map fun attr =>
      match attr.type with
      | .int => ofInt attr.value.intVal
      | .float => ofFloat attr.value.floatVal
      | .bool => ofBool attr.value.boolVal
      | .string => zero

def d_readIntValue : Node → Option Int :=
  readValue current ev stateIndex id CFloat.toIntOnDevice boolToInt 0

def d_readFloatValue : Node → Option CFloat :=
  readValue current ev stateIndex CFloat.ofInt id (fun b => CFloat.ofInt (boolToInt b))
    (CFloat.ofInt 0)

def d_readBoolValue : Node → Option Bool :=
  readValue current ev stateIndex (· != 0) CFloat.toBool id false

def d_readStringValue (node : Node) : Option CString :=
  if node.isStatic ∧ node.valueType = .string then some node.stringVal
  else (readAttribute current ev stateIndex node).bind fun attr =>
    if attr.type = .string then some attr.value.stringVal else none

/-- The four operators on numbers; the first operand is popped first. -/
def arithmetic {α : Type} (add sub mul div : α → α → α) :
    OpTreeOperation → List α → Option (List α)
  | .add, a :: b :: s => some (add a b :: s)
  | .sub, a :: b :: s => some (sub a b :: s)
  | .mul, a :: b :: s => some (mul a b :: s)
  | .div, a :: b :: s => some (div a b :: s)
  | .and, s | .or, s => some s
  | _, _ => none

/-- The two operators on Booleans. `&&` and `||` do not evaluate their second operand where the
first one decides, and then do not pop it either. -/
def logic : OpTreeOperation → List Bool → Option (List Bool)
  | .and, true :: b :: s => some (b :: s)
  | .and, false :: s => some (false :: s)
  | .or, true :: s => some (true :: s)
  | .or, false :: b :: s => some (b :: s)
  | .and, _ | .or, _ => none
  | _, s => some s

/-- One turn of the loop over the nodes. -/
def computeStep {α : Type} (read : Node → Option α)
    (operate : OpTreeOperation → List α → Option (List α)) (stack : List α) (node : Node) :
    Option (List α) :=
  match node.type with
  | .leaf =>
    (read node).bind fun value => if stack.length < stackSize then some (value :: stack) else none
  | .inner => operate node.operation stack

/-- What the three functions that use a stack do; the top of the stack is the head of the list, and
`stack[0]` is returned. -/
def computeOnStack {α : Type} (read : Node → Option α)
    (operate : OpTreeOperation → List α → Option (List α)) (tree : Nat → Node) (size : Nat) :
    Option α :=
  (((List.range size).map tree).reverse.foldlM (computeStep read operate) []).bind List.getLast?

def d_computeIntValue : (Nat → Node) → Nat → Option Int :=
  computeOnStack (d_readIntValue current ev stateIndex)
    (arithmetic (fun a b => wrap32 (a + b)) (fun a b => wrap32 (a - b))
      (fun a b => wrap32 (a * b)) (fun a b => wrap32 (a.tdiv b)))

def d_computeFloatValue : (Nat → Node) → Nat → Option CFloat :=
  computeOnStack (d_readFloatValue current ev stateIndex)
    (arithmetic CFloat.add CFloat.sub CFloat.mul CFloat.div)

def d_computeBoolValue : (Nat → Node) → Nat → Option Bool :=
  computeOnStack (d_readBoolValue current ev stateIndex) logic

def d_computeStringValue (tree : Nat → Node) (size : Nat) : Option CString :=
  (((List.range size).map tree).reverse.find? fun node => node.type = .leaf).bind
    (d_readStringValue current ev stateIndex)

/-- The sign of the difference of the first characters that differ, 0 if there are none. -/
def d_strcmp : CString → CString → Int
  | [], [] => 0
  | [], _ :: _ => -1
  | _ :: _, [] => 1
  | a :: s1, b :: s2 => if a = b then d_strcmp s1 s2 else if a < b then -1 else 1

def d_checkComplexParameter (par : GPUParameter) : Option Bool :=
  match par.vType with
  | .int => do
    let left ← d_computeIntValue current ev stateIndex par.leftTree par.lSize
    let right ← d_computeIntValue current ev stateIndex par.rightTree par.rSize
    match par.operation with
    | .eq => some (left == right)
    | .gt => some (decide (left > right))
    | .lt => some (decide (left < right))
    | .ne => some (left != right)
    | _ => some false
  | .float => do
    let left ← d_computeFloatValue current ev stateIndex par.leftTree par.lSize
    let right ← d_computeFloatValue current ev stateIndex par.rightTree par.rSize
    match par.operation with
    | .eq => some (left.eq right)
    | .gt => some (right.lt left)
    | .lt => some (left.lt right)
    | .ne => some (!left.eq right)
    | _ => some false
  | .bool => do
    let left ← d_computeBoolValue current ev stateIndex par.leftTree par.lSize
    let right ← d_computeBoolValue current ev stateIndex par.rightTree par.rSize
    match par.operation with
    | .eq => some (left == right)
    | .ne => some (left != right)
    | _ => some false
  | .string =>
    let left := d_computeStringValue current ev stateIndex par.leftTree par.lSize
    let right := d_computeStringValue current ev stateIndex par.rightTree par.rSize
    match par.operation with
    | .eq => do some (d_strcmp (← left) (← right) == 0)
    | .ne => do some (d_strcmp (← left) (← right) != 0)
    | _ => some false

end Kernels

namespace GPUProcessor

/-- From a call of `addComplexParameter` to the check of the parameter in a kernel. -/
def checkOnDevice (p : GPUProcessor) (gp host : GPUParameter) (current : EventInfo)
    (ev : EventInfoSet) (parameter : CPUParameter) : Option Bool := do
  let param ← p.rulePkt.gpuParameter gp parameter.operation parameter.vtype parameter.leftTree
    parameter.rightTree
  let par ← p.setParameter param host
  d_checkComplexParameter current ev par.lastIndex par

end GPUProcessor

end TRex
