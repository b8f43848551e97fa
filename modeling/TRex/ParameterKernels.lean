import TRex.GPUParameters

/-!
# Parameters on both engines

The arrays that `serializeTrees` writes hold a tree in prefix order (`serializeNode_encodes`), so
that the loops of the kernels compute the value of the tree where the operators take both operands
off the stack. Those on Booleans do not, and leave the value of the last leaf
(`d_computeBoolValue_arrayOf`). `checkOnDevice_eq_iff` says when a kernel and the CPU agree on a
parameter: a kernel knows no `LE` and `GE`, the CPU takes `EQ` and `NE` of Booleans for conjunction
and disjunction, and constants that are no numbers are not stored in the arrays.
-/

namespace TRex

open StackMachine

/-! ## Trees as expressions -/

namespace OpTree

def asExpr : OpTree → Expr OpValueReference OpTreeOperation
  | .leaf reference _ => .leaf reference
  | .inner left right op _ => .node op left.asExpr right.asExpr

def operations : OpTree → List OpTreeOperation
  | .leaf _ _ => []
  | .inner left right op _ => op :: (left.operations ++ right.operations)

end OpTree

/-- Only the values of a tree's own leaves matter. -/
theorem OpTree.eval_congr {α : Type} {value value' : OpValueReference → α}
    {apply : OpTreeOperation → α → α → α} (tree : OpTree)
    (same : ∀ reference ∈ tree.refs, value reference = value' reference) :
    tree.asExpr.eval value apply = tree.asExpr.eval value' apply := by
  induction tree with
  | leaf reference valType => exact same reference (List.mem_singleton.mpr rfl)
  | inner left right op valType ihLeft ihRight =>
      rw [OpTree.asExpr, Expr.eval, Expr.eval,
        ihLeft fun reference mem => same reference (List.mem_append_left _ mem),
        ihRight fun reference mem => same reference (List.mem_append_right _ mem)]

theorem findDepth_eq (tree : OpTree) (depth : Nat) :
    findDepth tree depth = depth + tree.asExpr.height := by
  induction tree generalizing depth with
  | leaf reference valType => rfl
  | inner left right op valType ihLeft ihRight =>
      rw [findDepth, ihLeft, ihRight, OpTree.asExpr, Expr.height]
      omega

/-! ## The serialized array -/

section Serialization

variable {n : Nat}

theorem serializeNode_fst (tree : OpTree) (idx : Nat) (mem : Nat → Node) :
    (serializeNode n tree (idx, mem)).1 = idx + tree.asExpr.size := by
  induction tree generalizing idx mem with
  | leaf reference valType => rfl
  | inner left right op valType ihLeft ihRight =>
      rw [serializeNode, ← Prod.mk.eta (p := serializeNode n left _), ihRight, ihLeft,
        OpTree.asExpr, Expr.size]
      omega

/-- Only the nodes of the tree are written. -/
theorem serializeNode_frame (tree : OpTree) (idx : Nat) (mem : Nat → Node) {j : Nat}
    (outside : j < idx ∨ idx + tree.asExpr.size ≤ j) :
    (serializeNode n tree (idx, mem)).2 j = mem j := by
  induction tree generalizing idx mem with
  | leaf reference valType =>
      simp only [OpTree.asExpr, Expr.size] at outside
      exact Function.update_of_ne (by omega) _ _
  | inner left right op valType ihLeft ihRight =>
      simp only [OpTree.asExpr, Expr.size] at outside
      rw [serializeNode, ← Prod.mk.eta (p := serializeNode n left _), serializeNode_fst,
        ihRight _ _ (by omega), ihLeft _ _ (by omega)]
      exact Function.update_of_ne (by omega) _ _

theorem serializeNode_leaf (reference : OpValueReference) (valType : ValType) (idx : Nat)
    (mem : Nat → Node) :
    (serializeNode n (.leaf reference valType) (idx, mem)).2 idx =
      serializeLeaf n reference (mem idx) :=
  Function.update_self ..

theorem serializeNode_encodes (isLeaf : Node → OpValueReference → Prop)
    (isOp : Node → OpTreeOperation → Prop) (tree : OpTree) (idx : Nat) (mem : Nat → Node)
    (leaves : ∀ reference ∈ tree.refs, ∀ j, idx ≤ j → j < idx + tree.asExpr.size →
      isLeaf (serializeLeaf n reference (mem j)) reference)
    (ops : ∀ op ∈ tree.operations, ∀ j, idx ≤ j → j < idx + tree.asExpr.size →
      isOp (serializeInner op (mem j)) op) :
    Encodes isLeaf isOp
      ((List.range' idx tree.asExpr.size).map (serializeNode n tree (idx, mem)).2) tree.asExpr := by
  induction tree generalizing idx mem with
  | leaf reference valType =>
      have here := leaves reference (List.mem_singleton.mpr rfl) idx (Nat.le_refl _)
        (Nat.lt_succ_self _)
      exact .leaf (serializeNode_leaf reference valType idx mem ▸ here)
  | inner left right op valType ihLeft ihRight =>
      let first := Function.update mem idx (serializeInner op (mem idx))
      let second := (serializeNode n left (idx + 1, first)).2
      let last := (serializeNode n right (idx + 1 + left.asExpr.size, second)).2
      have apart : serializeNode n (.inner left right op valType) (idx, mem) =
          serializeNode n right (idx + 1 + left.asExpr.size, second) := by
        rw [serializeNode, ← serializeNode_fst]
      have firstSame : ∀ j, idx < j → first j = mem j :=
        fun j later => Function.update_of_ne (Nat.ne_of_gt later) _ _
      have secondSame : ∀ j, idx + 1 + left.asExpr.size ≤ j → second j = mem j := fun j later =>
        (serializeNode_frame left _ _ (.inr later)).trans (firstSame j (by omega))
      have lastSame : ∀ j, j < idx + 1 + left.asExpr.size → last j = second j :=
        fun j before => serializeNode_frame right _ _ (.inl before)
      have root : last idx = serializeInner op (mem idx) :=
        (lastSame idx (by omega)).trans <|
          (serializeNode_frame left _ _ (.inl (Nat.lt_succ_self idx))).trans
            (Function.update_self ..)
      simp only [OpTree.asExpr, Expr.size, OpTree.refs, OpTree.operations] at leaves ops ⊢
      have encodesLeft := ihLeft (idx + 1) first
        (fun reference mem j ge lt => firstSame j (by omega) ▸
          leaves reference (List.mem_append_left _ mem) j (by omega) (by omega))
        (fun op mem j ge lt => firstSame j (by omega) ▸
          ops op (List.mem_cons_of_mem _ (List.mem_append_left _ mem)) j (by omega) (by omega))
      have encodesRight := ihRight (idx + 1 + left.asExpr.size) second
        (fun reference mem j ge lt => secondSame j ge ▸
          leaves reference (List.mem_append_right _ mem) j (by omega) (by omega))
        (fun op mem j ge lt => secondSame j ge ▸
          ops op (List.mem_cons_of_mem _ (List.mem_append_right _ mem)) j (by omega) (by omega))
      have cells : List.range' idx (1 + left.asExpr.size + right.asExpr.size) =
          idx :: (List.range' (idx + 1) left.asExpr.size ++
            List.range' (idx + 1 + left.asExpr.size) right.asExpr.size) := by
        rw [List.range'_append_1, ← List.range'_succ]
        congr 1
        omega
      have leftCells : (List.range' (idx + 1) left.asExpr.size).map last =
          (List.range' (idx + 1) left.asExpr.size).map second :=
        List.map_congr_left fun j mem => lastSame j (List.mem_range'_1.mp mem).2
      rw [apart, cells, List.map_cons, List.map_append]
      change Encodes isLeaf isOp (last idx :: (_ ++ _)) _
      rw [leftCells, root]
      exact .node (ops op (List.mem_cons_self ..) idx (Nat.le_refl _) (by omega)) encodesLeft
        encodesRight

end Serialization

/-! ## The arrays on the device -/

namespace GPUProcessor

variable (p : GPUProcessor)

/-- The array of a tree after `setParameters`. -/
def arrayOf (depth : Nat) (gpTree host : Nat → Node) (tree : OpTree) (r : Nat) : Node :=
  let serialized := (serializeNode p.sequenceLen tree (0, clearTree depth gpTree)).2
  if r < 2 ^ depth - 1 then (p.setNode (serialized r)).getD (serialized r) else host r

/-- The attribute of a leaf is found, whatever its node held before. -/
def Located (reference : OpValueReference) : Prop :=
  ∀ node : Node, (p.setNode (serializeLeaf p.sequenceLen reference node.clear)).isSome

variable {p} {depth : Nat} {gpTree host : Nat → Node} {tree : OpTree}

theorem setNode_inner (op : OpTreeOperation) (node : Node) :
    p.setNode (serializeInner op node) = some (serializeInner op node) := by
  simp [setNode, serializeInner]

theorem setTree_eq (located : ∀ reference ∈ tree.refs, p.Located reference)
    (fits : tree.asExpr.size ≤ 2 ^ depth - 1) :
    p.setTree depth (serializeNode p.sequenceLen tree (0, clearTree depth gpTree)).2 host =
      some (p.arrayOf depth gpTree host tree) := by
  apply if_pos
  intro r inside
  by_cases written : r < tree.asExpr.size
  · have encodes := serializeNode_encodes (n := p.sequenceLen)
      (fun node _ => (p.setNode node).isSome) (fun node _ => (p.setNode node).isSome) tree 0
      (clearTree depth gpTree)
      (fun reference mem j _ lt => by
        rw [clearTree, if_pos (by omega)]
        exact located reference mem (gpTree j))
      (fun op mem j _ _ => by rw [setNode_inner, Option.isSome_some])
    exact encodes.forall_mem (P := fun node => (p.setNode node).isSome) (fun _ _ here => here)
      (fun _ _ here => here) _
      (List.mem_map_of_mem (List.mem_range'_1.mpr ⟨Nat.zero_le r, by rwa [Nat.zero_add]⟩))
  · rw [serializeNode_frame tree 0 _ (.inr (by omega)), clearTree, if_pos inside]
    simp [setNode, Node.clear]

theorem arrayOf_encodes {isLeaf : Node → OpValueReference → Prop}
    {isOp : Node → OpTreeOperation → Prop} (fits : tree.asExpr.size ≤ 2 ^ depth - 1)
    (leaves : ∀ reference ∈ tree.refs, ∀ node node' : Node,
      p.setNode (serializeLeaf p.sequenceLen reference node.clear) = some node' →
        isLeaf node' reference)
    (located : ∀ reference ∈ tree.refs, p.Located reference)
    (ops : ∀ op ∈ tree.operations, ∀ node, isOp (serializeInner op node) op) :
    Encodes isLeaf isOp
      ((List.range tree.asExpr.size).map (p.arrayOf depth gpTree host tree)) tree.asExpr := by
  let serialized := (serializeNode p.sequenceLen tree (0, clearTree depth gpTree)).2
  have encodes := serializeNode_encodes (n := p.sequenceLen)
    (fun node reference => ∃ node', p.setNode node = some node' ∧ isLeaf node' reference)
    (fun node op => p.setNode node = some node ∧ isOp node op) tree 0
    (clearTree depth gpTree)
    (fun reference mem j _ lt => by
      rw [clearTree, if_pos (by omega)]
      obtain ⟨node', set⟩ := Option.isSome_iff_exists.mp (located reference mem (gpTree j))
      exact ⟨node', set, leaves reference mem _ _ set⟩)
    (fun op mem j _ _ => ⟨setNode_inner op _, ops op mem _⟩)
  have cells : (List.range tree.asExpr.size).map (p.arrayOf depth gpTree host tree) =
      ((List.range' 0 tree.asExpr.size).map serialized).map
        fun node => (p.setNode node).getD node := by
    rw [List.map_map, ← List.range_eq_range']
    refine List.map_congr_left fun r mem => if_pos ?_
    have inside := List.mem_range.mp mem
    omega
  rw [cells]
  refine encodes.map (fun node reference here => ?_) (fun node op here => ?_)
  · obtain ⟨node', set, there⟩ := here
    rwa [set, Option.getD_some]
  · rw [here.1, Option.getD_some]
    exact here.2

end GPUProcessor

/-! ## Leaves on the device -/

namespace Value

variable {α : Type}

/-- What is stored of a constant: a Boolean is read from the number -1, a string as the four bytes
of that number and what the memory holds behind them. -/
def onDevice (rest : CString) : Value → Value
  | .bool _ _ => .bool true 0
  | .string _ => .string ((Value.int (-1)).raw.map Char.ofNat ++ rest)
  | value => value

/-- The conversion of a value by its type. -/
def cast (ofInt : Int → α) (ofFloat : CFloat → α) (ofBool : Bool → α) (zero : α) : Value → α
  | .int v => ofInt v
  | .float f => ofFloat f
  | .bool b _ => ofBool b
  | .string _ => zero

/-- What a kernel takes for a Boolean; the CPU reads integers and Booleans otherwise. -/
def asBool : Value → Bool := cast (· != 0) CFloat.toBool id false

/-- What a kernel takes for an `int`. -/
def asIntOnDevice : Value → Int := cast id CFloat.toIntOnDevice boolToInt 0

/-- A `FLOAT` among the values is one that an `int` can hold. -/
def FitsInt (value : Value) : Prop := ∀ f, value = .float f → f.FitsInt

theorem asIntOnDevice_eq {value : Value} (fits : value.FitsInt) :
    value.asIntOnDevice = value.asInt := by
  cases value with
  | int v => rfl
  | float f => exact CFloat.toIntOnDevice_of_fitsInt (fits f rfl)
  | bool b pad => rfl
  | string s => rfl

theorem asFloat_eq_cast (value : Value) :
    value.asFloat =
      value.cast CFloat.ofInt id (fun b => CFloat.ofInt (boolToInt b)) (CFloat.ofInt 0) := by
  cases value <;> rfl

end Value

namespace GPUProcessor

variable {p : GPUProcessor} {pkt : PubPktPtr} {pe : PartialEvent} {index : Int}
  {current : EventInfo} {ev : EventInfoSet} {vtype : ValType}

/-- The kernel finds the packet under test on the stack, and the packet of state `i` under the
number that the state has on the device. -/
structure Assigned (p : GPUProcessor) (pkt : PubPktPtr) (pe : PartialEvent) (current : EventInfo)
    (ev : EventInfoSet) : Prop where
  current : createEventInfo pkt.pkt = some current
  states : ∀ i q, i < p.sequenceLen → pe.indexes i = some q →
    createEventInfo q.pkt = some (ev (p.sequenceLen - 1 - i))

/-- The reference is to a state of the rule with a packet, and the processor finds the attribute
where that packet has it. A string is not compared with anything else. -/
def Resolves (p : GPUProcessor) (pkt : PubPktPtr) (pe : PartialEvent) (index : Int)
    (vtype : ValType) : OpValueReference → Prop
  | .static _ => True
  | .rulePkt i type name =>
    type = .state ∧ 0 ≤ i ∧ i < p.sequenceLen ∧ ∃ n q k t, name = some n ∧
      (OpValueReference.rulePkt i type name).source pkt pe index .state = some q ∧
      q.pkt.getAttributeIndexAndType n = some (k, t) ∧ (vtype = .string → t = .string) ∧
      (p.getAttributeIndexAndType ((p.sequenceLen : Int) - i - 1) n .state).map Prod.fst = some k

theorem setNode_static (n : Nat) (value : Value) (node : Node) :
    p.setNode (serializeLeaf n (.static value) node) =
      some (serializeLeaf n (.static value) node) := by
  simp [setNode, serializeLeaf]

theorem createEventInfo_attr {event : PubPkt} {info : EventInfo}
    (created : createEventInfo event = some info) : info.attr = event.attributes := by
  rw [createEventInfo] at created
  split at created
  · cases created
  · cases created
    rfl

theorem getAttributeIndexAndType_eq_some {event : PubPkt} {name : CString} {k : Nat} {t : ValType}
    (found : event.getAttributeIndexAndType name = some (k, t)) :
    ∃ a, event.attributes[k]? = some a ∧ a.type = t := by
  simp only [PubPkt.getAttributeIndexAndType, Option.bind_eq_some_iff, Option.map_eq_some_iff,
    Prod.mk.injEq] at found
  obtain ⟨k', _, a, there, rfl, type⟩ := found
  exact ⟨a, there, type⟩

/-- What a kernel reads of a reference is the attribute that the CPU reads. -/
theorem Resolves.read {i : Int} {type : StateType} {name : Option CString}
    (resolves : p.Resolves pkt pe index vtype (.rulePkt i type name))
    (assigned : p.Assigned pkt pe current ev) (node : Node) :
    ∃ a node', p.setNode (serializeLeaf p.sequenceLen (.rulePkt i type name) node.clear) =
        some node' ∧
      node'.type = .leaf ∧ node'.isStatic = false ∧ node'.sType = .state ∧
      readAttribute current ev ((p.sequenceLen : Int) - index - 1) node' = some a ∧
      attributeIn ((OpValueReference.rulePkt i type name).source pkt pe index .state) name =
        some a.value ∧ (vtype = .string → a.type = .string) := by
  obtain ⟨rfl, nonneg, before, n, q, k, t, rfl, source, found, string, located⟩ := resolves
  obtain ⟨a, there, rfl⟩ := getAttributeIndexAndType_eq_some found
  obtain ⟨⟨k', t'⟩, looked, rfl⟩ := Option.map_eq_some_iff.mp located
  have valueIs : q.pkt.valueAt k' = a.value := by rw [PubPkt.valueAt, there]; rfl
  have same : attributeIn (some q) (some n) = some a.value := by
    simp [attributeIn, found, valueIs]
  let node' : Node := { serializeLeaf p.sequenceLen (.rulePkt i .state (some n)) node.clear with
    attrNum := k', valueType := t' }
  have set : p.setNode (serializeLeaf p.sequenceLen (.rulePkt i .state (some n)) node.clear) =
      some node' := by
    simp only [setNode, serializeLeaf, looked, Bool.not_false, Bool.and_self,
      decide_true, if_true, Option.getD_some, reduceCtorEq, if_false, Option.map_some]
    rfl
  refine ⟨a, node', set, rfl, rfl, rfl, ?_, source ▸ same, string⟩
  have event : ∃ info, readEvent current ev ((p.sequenceLen : Int) - index - 1) node' = some info ∧
      info.attr = q.pkt.attributes := by
    have refersTo : node'.refersTo = (p.sequenceLen : Int) - i - 1 := rfl
    have sType : node'.sType = .state := rfl
    by_cases under : i = index
    · refine ⟨current, if_pos ⟨by rw [refersTo, under], sType⟩, ?_⟩
      simp [OpValueReference.source, under] at source
      exact source ▸ createEventInfo_attr assigned.current
    · have other : ¬ (node'.refersTo = (p.sequenceLen : Int) - index - 1 ∧
          node'.sType = .state) := by
        rintro ⟨same, -⟩
        omega
      have stored : pe.indexes i.toNat = some q := by
        simpa [OpValueReference.source, under] using source
      refine ⟨ev (p.sequenceLen - 1 - i.toNat), ?_,
        createEventInfo_attr (assigned.states _ _ (by omega) stored)⟩
      rw [readEvent, if_neg other, if_pos (by omega), refersTo]
      congr 2
      omega
  obtain ⟨info, isEvent, attrs⟩ := event
  have place : ((k' : Int)).toNat = k' := rfl
  rw [readAttribute, isEvent, Option.bind_some, attrs]
  exact (if_pos (Int.natCast_nonneg k')).trans there

theorem Resolves.located {reference : OpValueReference}
    (resolves : p.Resolves pkt pe index vtype reference) (assigned : p.Assigned pkt pe current ev) :
    p.Located reference := by
  intro node
  cases reference with
  | static value => rw [setNode_static, Option.isSome_some]
  | rulePkt i type name =>
      obtain ⟨a, node', set, _⟩ := resolves.read assigned node
      rw [set, Option.isSome_some]

/-- The value of a leaf on the device. -/
def leafOnDevice {α : Type} (pkt : PubPktPtr) (pe : PartialEvent) (index : Int) (rest : CString)
    (cast : Value → α) (zero : α) : OpValueReference → α
  | .static value => cast (value.onDevice rest)
  | reference@(.rulePkt _ _ name) =>
    ((attributeIn (reference.source pkt pe index .state) name).map cast).getD zero

theorem readValue_set {α : Type} {ofInt : Int → α} {ofFloat : CFloat → α} {ofBool : Bool → α}
    {zero : α} {reference : OpValueReference} (resolves : p.Resolves pkt pe index vtype reference)
    (assigned : p.Assigned pkt pe current ev)
    (noString : ∀ value, reference = .static value → value.type ≠ .string) {node node' : Node}
    (set : p.setNode (serializeLeaf p.sequenceLen reference node.clear) = some node') :
    node'.type = .leaf ∧
      readValue current ev ((p.sequenceLen : Int) - index - 1) ofInt ofFloat ofBool zero node' =
        some
          (leafOnDevice pkt pe index [] (Value.cast ofInt ofFloat ofBool zero) zero reference) := by
  cases reference with
  | static value =>
      cases (setNode_static _ value _).symm.trans set
      refine ⟨rfl, ?_⟩
      cases value with
      | int v => rfl
      | float f => rfl
      | bool b pad => rfl
      | string s => exact absurd rfl (noString _ rfl)
  | rulePkt i type name =>
      obtain ⟨a, node'', set', isLeaf, isStatic, sType, attr, source, _⟩ :=
        resolves.read assigned node
      cases set'.symm.trans set
      refine ⟨isLeaf, ?_⟩
      rw [leafOnDevice, source, readValue, isStatic]
      simp only [sType, attr, reduceCtorEq, if_false, Option.map_some, Option.getD_some,
        Option.some.injEq]
      cases a with
      | mk name value => cases value <;> rfl

/-! ## Trees on the device -/

section Trees

variable {α : Type} {read : Node → Option α} {value : OpValueReference → α} {depth : Nat}
  {gpTree host : Nat → Node} {tree : OpTree}

/-- Operators that take both operands compute the tree. -/
theorem computeOnStack_eval {operate : OpTreeOperation → List α → Option (List α)}
    {apply : OpTreeOperation → α → α → α} (fits : tree.asExpr.size ≤ 2 ^ depth - 1)
    (room : tree.asExpr.leafCount ≤ stackSize)
    (located : ∀ reference ∈ tree.refs, p.Located reference)
    (leaves : ∀ reference ∈ tree.refs, ∀ node node' : Node,
      p.setNode (serializeLeaf p.sequenceLen reference node.clear) = some node' →
        node'.type = .leaf ∧ read node' = some (value reference))
    (ops : ∀ op ∈ tree.operations, ∀ a b s, operate op (a :: b :: s) = some (apply op a b :: s)) :
    computeOnStack read operate (p.arrayOf depth gpTree host tree) tree.asExpr.size =
      some (tree.asExpr.eval value apply) := by
  have encodes : Encodes (Encodes.Pushes (computeStep read operate) stackSize value)
      (Encodes.Replaces (computeStep read operate) apply)
      ((List.range tree.asExpr.size).map (p.arrayOf depth gpTree host tree)) tree.asExpr :=
    arrayOf_encodes fits
      (fun reference mem node node' set s room => by
        obtain ⟨isLeaf, isRead⟩ := leaves reference mem node node' set
        simp only [computeStep, isLeaf, isRead, Option.bind_some, if_pos room])
      located (fun op mem node => ops op mem)
  rw [computeOnStack, encodes.run [] (by simpa using room)]
  rfl

/-- Operators that uncover their second operand leave the last leaf at the bottom. -/
theorem computeOnStack_lastLeaf {operate : OpTreeOperation → List α → Option (List α)}
    (fits : tree.asExpr.size ≤ 2 ^ depth - 1) (room : tree.asExpr.leafCount ≤ stackSize)
    (located : ∀ reference ∈ tree.refs, p.Located reference)
    (leaves : ∀ reference ∈ tree.refs, ∀ node node' : Node,
      p.setNode (serializeLeaf p.sequenceLen reference node.clear) = some node' →
        node'.type = .leaf ∧ read node' = some (value reference))
    (ops : ∀ op ∈ tree.operations, ∀ a b s,
      operate op (a :: b :: s) = some (a :: b :: s) ∨ operate op (a :: b :: s) = some (b :: s)) :
    computeOnStack read operate (p.arrayOf depth gpTree host tree) tree.asExpr.size =
      some (value tree.asExpr.lastLeaf) := by
  have encodes : Encodes (Encodes.Pushes (computeStep read operate) stackSize value)
      (Encodes.Uncovers (computeStep read operate))
      ((List.range tree.asExpr.size).map (p.arrayOf depth gpTree host tree)) tree.asExpr :=
    arrayOf_encodes fits
      (fun reference mem node node' set s room => by
        obtain ⟨isLeaf, isRead⟩ := leaves reference mem node node' set
        simp only [computeStep, isLeaf, isRead, Option.bind_some, if_pos room])
      located (fun op mem node => ops op mem)
  obtain ⟨above, ran, _⟩ := encodes.run_bottom [] (by simpa using room)
  rw [computeOnStack, ran, Option.bind_some, List.getLast?_concat]

end Trees

end GPUProcessor

/-! ## Trees of one type -/

/-- The constants that a tree of a type may hold: numbers are cast into each other. -/
def ValType.Literal (vtype : ValType) (value : Value) : Prop :=
  match vtype with
  | .int | .float => value.type = .int ∨ value.type = .float
  | .bool => value.type ≠ .string
  | .string => value.type = .string

/-- The operators on values of a type. -/
def ValType.Operator (vtype : ValType) (op : OpTreeOperation) : Prop :=
  match vtype with
  | .int | .float => op ≠ .and ∧ op ≠ .or
  | .bool => op = .and ∨ op = .or
  | .string => False

/-- What the source takes to be ensured when a rule is deployed. -/
structure OpTree.Typed (vtype : ValType) (tree : OpTree) : Prop where
  operators : ∀ op ∈ tree.operations, vtype.Operator op
  literals : ∀ value, .static value ∈ tree.refs → vtype.Literal value

theorem OpTree.Typed.noString {vtype : ValType} {tree : OpTree} (typed : tree.Typed vtype)
    (other : vtype ≠ .string) {reference : OpValueReference} (mem : reference ∈ tree.refs)
    (value : Value) (same : reference = .static value) : value.type ≠ .string := by
  subst same
  have literal := typed.literals value mem
  intro string
  cases vtype with
  | int | float =>
      rcases literal with number | number <;> cases number.symm.trans string
  | bool => exact literal string
  | string => exact other rfl

/-- The four operators on numbers, as one function. -/
def combine {α : Type} (add sub mul div : α → α → α) (zero : α) : OpTreeOperation → α → α → α
  | .add => add
  | .sub => sub
  | .mul => mul
  | .div => div
  | .and | .or => fun _ _ => zero

theorem arithmetic_eq {α : Type} {add sub mul div : α → α → α} (zero : α) {op : OpTreeOperation}
    (numeric : op ≠ .and ∧ op ≠ .or) (a b : α) (s : List α) :
    arithmetic add sub mul div op (a :: b :: s) =
      some (combine add sub mul div zero op a b :: s) := by
  cases op with
  | add => rfl
  | sub => rfl
  | mul => rfl
  | div => rfl
  | and => exact absurd rfl numeric.1
  | or => exact absurd rfl numeric.2

theorem logic_uncovers {op : OpTreeOperation} (boolean : op = .and ∨ op = .or) (a b : Bool)
    (s : List Bool) :
    logic op (a :: b :: s) = some (a :: b :: s) ∨ logic op (a :: b :: s) = some (b :: s) := by
  rcases boolean with rfl | rfl <;> cases a
  · exact .inl rfl
  · exact .inr rfl
  · exact .inr rfl
  · exact .inl rfl

theorem computeIntValueForParameters_eq_eval (pkt : PubPktPtr) (pe : PartialEvent) (index : Int)
    (sType : StateType) (tree : OpTree) :
    computeIntValueForParameters pkt pe index sType tree =
      tree.asExpr.eval
        (fun reference => computeIntValueForParameters pkt pe index sType (.leaf reference .int))
        (combine (fun a b => wrap32 (a + b)) (fun a b => wrap32 (a - b))
          (fun a b => wrap32 (a * b)) (fun a b => wrap32 (a.tdiv b)) 0) := by
  induction tree with
  | leaf reference valType => cases reference <;> rfl
  | inner left right op valType ihLeft ihRight =>
      rw [OpTree.asExpr, Expr.eval, ← ihLeft, ← ihRight]
      cases op <;> rfl

theorem computeFloatValueForParameters_eq_eval (pkt : PubPktPtr) (pe : PartialEvent) (index : Int)
    (sType : StateType) (tree : OpTree) :
    computeFloatValueForParameters pkt pe index sType tree =
      tree.asExpr.eval
        (fun reference =>
          computeFloatValueForParameters pkt pe index sType (.leaf reference .float))
        (combine CFloat.add CFloat.sub CFloat.mul CFloat.div (CFloat.ofInt 0)) := by
  induction tree with
  | leaf reference valType => cases reference <;> rfl
  | inner left right op valType ihLeft ihRight =>
      rw [OpTree.asExpr, Expr.eval, ← ihLeft, ← ihRight]
      cases op <;> rfl

/-- What a leaf is read from, for the CPU. -/
def OpValueReference.value (pkt : PubPktPtr) (pe : PartialEvent) (index : Int)
    (sType : StateType) : OpValueReference → Option Value
  | .static value => some value
  | reference@(.rulePkt _ _ name) => attributeIn (reference.source pkt pe index sType) name

/-- Each `FLOAT` that a tree reads is one that an `int` can hold. -/
def OpTree.FitsInt (pkt : PubPktPtr) (pe : PartialEvent) (index : Int) (tree : OpTree) : Prop :=
  ∀ reference ∈ tree.refs, ∀ value ∈ reference.value pkt pe index .state, value.FitsInt

namespace GPUProcessor

/-- The value of a tree of integers with the conversions of the device. -/
def intOnDevice (pkt : PubPktPtr) (pe : PartialEvent) (index : Int) (tree : OpTree) : Int :=
  tree.asExpr.eval (leafOnDevice pkt pe index [] Value.asIntOnDevice 0)
    (combine (fun a b => wrap32 (a + b)) (fun a b => wrap32 (a - b)) (fun a b => wrap32 (a * b))
      (fun a b => wrap32 (a.tdiv b)) 0)

variable {p : GPUProcessor} {pkt : PubPktPtr} {pe : PartialEvent} {index : Int}
  {current : EventInfo} {ev : EventInfoSet} {depth : Nat} {gpTree host : Nat → Node} {tree : OpTree}

/-- A leaf stands for the same integer on both sides. -/
theorem leafOnDevice_eq {reference : OpValueReference}
    (literal : ∀ value, reference = .static value → ValType.int.Literal value)
    (fits : ∀ value ∈ reference.value pkt pe index .state, value.FitsInt) :
    leafOnDevice pkt pe index [] Value.asIntOnDevice 0 reference =
      computeIntValueForParameters pkt pe index .state (.leaf reference .int) := by
  cases reference with
  | static value =>
      have same := Value.asIntOnDevice_eq (fits value rfl)
      have isNumber := literal value rfl
      cases value with
      | int v => exact same
      | float f => exact same
      | bool b pad => rcases isNumber with other | other <;> cases other
      | string s => rcases isNumber with other | other <;> cases other
  | rulePkt i type name =>
      rw [OpValueReference.value] at fits
      rw [leafOnDevice, computeIntValueForParameters]
      revert fits
      cases attributeIn (OpValueReference.source pkt pe index .state _) name with
      | none => exact fun _ => rfl
      | some value => exact fun fits => Value.asIntOnDevice_eq (fits value rfl)

/-- Where every `FLOAT` fits, the device's conversions are those of the CPU. -/
theorem intOnDevice_eq (typed : tree.Typed .int) (fits : tree.FitsInt pkt pe index) :
    intOnDevice pkt pe index tree = computeIntValueForParameters pkt pe index .state tree := by
  rw [computeIntValueForParameters_eq_eval, intOnDevice]
  exact tree.eval_congr fun reference mem =>
    leafOnDevice_eq (fun value same => typed.literals value (same ▸ mem)) (fits reference mem)

section

variable {vtype : ValType} (fits : tree.asExpr.size ≤ 2 ^ depth - 1)
  (room : tree.asExpr.leafCount ≤ stackSize) (assigned : p.Assigned pkt pe current ev)
  (resolves : ∀ reference ∈ tree.refs, p.Resolves pkt pe index vtype reference)

include fits room assigned resolves

theorem d_computeIntValue_arrayOf (typed : tree.Typed .int) :
    d_computeIntValue current ev ((p.sequenceLen : Int) - index - 1)
        (p.arrayOf depth gpTree host tree) tree.asExpr.size =
      some (intOnDevice pkt pe index tree) := by
  refine computeOnStack_eval fits room
    (fun reference mem => (resolves reference mem).located assigned) ?_
    (fun op mem => arithmetic_eq 0 (typed.operators op mem))
  intro reference mem node node' set
  exact readValue_set (resolves reference mem) assigned (typed.noString ValType.noConfusion mem) set

theorem d_computeFloatValue_arrayOf (typed : tree.Typed .float) :
    d_computeFloatValue current ev ((p.sequenceLen : Int) - index - 1)
        (p.arrayOf depth gpTree host tree) tree.asExpr.size =
      some (computeFloatValueForParameters pkt pe index .state tree) := by
  rw [computeFloatValueForParameters_eq_eval]
  refine computeOnStack_eval fits room
    (fun reference mem => (resolves reference mem).located assigned) ?_
    (fun op mem => arithmetic_eq (CFloat.ofInt 0) (typed.operators op mem))
  intro reference mem node node' set
  obtain ⟨isLeaf, isRead⟩ :=
    readValue_set (resolves reference mem) assigned (typed.noString ValType.noConfusion mem) set
  refine ⟨isLeaf, isRead.trans (congrArg some ?_)⟩
  cases reference with
  | static value =>
      have literal := typed.literals value mem
      cases value with
      | int v => rfl
      | float f => rfl
      | bool b pad => rcases literal with h | h <;> cases h
      | string s => rcases literal with h | h <;> cases h
  | rulePkt i type name =>
      rw [leafOnDevice, computeFloatValueForParameters, ← funext Value.asFloat_eq_cast]

/-- The value of a Boolean tree is that of its last leaf. -/
theorem d_computeBoolValue_arrayOf (typed : tree.Typed .bool) :
    d_computeBoolValue current ev ((p.sequenceLen : Int) - index - 1)
        (p.arrayOf depth gpTree host tree) tree.asExpr.size =
      some (leafOnDevice pkt pe index [] Value.asBool false tree.asExpr.lastLeaf) :=
  computeOnStack_lastLeaf fits room (fun reference mem => (resolves reference mem).located assigned)
    (fun reference mem _ _ => readValue_set (resolves reference mem) assigned
      (typed.noString ValType.noConfusion mem))
    (fun op mem => logic_uncovers (typed.operators op mem))

end

/-- A tree of strings is a leaf. -/
theorem d_computeStringValue_arrayOf (fits : tree.asExpr.size ≤ 2 ^ depth - 1)
    (assigned : p.Assigned pkt pe current ev)
    (resolves : ∀ reference ∈ tree.refs, p.Resolves pkt pe index .string reference)
    (typed : tree.Typed .string) :
    d_computeStringValue current ev ((p.sequenceLen : Int) - index - 1)
        (p.arrayOf depth gpTree host tree) tree.asExpr.size =
      some (leafOnDevice pkt pe index (gpTree 0).rest Value.stringVal [] tree.asExpr.lastLeaf) := by
  cases tree with
  | inner left right op valType => exact (typed.operators op (List.mem_cons_self ..)).elim
  | leaf reference valType =>
      have resolved := resolves reference (List.mem_singleton.mpr rfl)
      have inside : 0 < 2 ^ depth - 1 := fits
      obtain ⟨node, set⟩ :=
        Option.isSome_iff_exists.mp (resolved.located assigned (gpTree 0))
      have first : p.arrayOf depth gpTree host (.leaf reference valType) 0 = node := by
        rw [arrayOf, if_pos inside, serializeNode_leaf, clearTree, if_pos inside, set,
          Option.getD_some]
      have whole : ((List.range 1).map (p.arrayOf depth gpTree host (.leaf reference valType))) =
          [node] := by
        rw [List.range_one, List.map_singleton, first]
      have read : node.type = .leaf ∧
          d_readStringValue current ev ((p.sequenceLen : Int) - index - 1) node =
            some (leafOnDevice pkt pe index (gpTree 0).rest Value.stringVal [] reference) := by
        cases reference with
        | static value =>
            have literal := typed.literals value (List.mem_singleton.mpr rfl)
            cases (setNode_static _ value _).symm.trans set
            cases value with
            | string s => exact ⟨rfl, rfl⟩
            | int v => cases literal
            | float f => cases literal
            | bool b pad => cases literal
        | rulePkt i type name =>
            obtain ⟨a, node', set', isLeaf, isStatic, _, attr, source, string⟩ :=
              resolved.read assigned (gpTree 0)
            cases set'.symm.trans set
            refine ⟨isLeaf, ?_⟩
            rw [d_readStringValue, isStatic, if_neg (by simp), attr, Option.bind_some,
              if_pos (string rfl), leafOnDevice, source]
            rfl
      rw [d_computeStringValue, OpTree.asExpr, Expr.size, whole, List.reverse_singleton,
        List.find?_singleton, decide_eq_true read.1]
      exact read.2

end GPUProcessor

theorem d_strcmp_eq_zero (s1 s2 : CString) : d_strcmp s1 s2 = 0 ↔ s1 = s2 := by
  induction s1 generalizing s2 with
  | nil =>
      cases s2 with
      | nil => simp [d_strcmp]
      | cons b s2 => simp [d_strcmp]
  | cons a s1 ih =>
      cases s2 with
      | nil => simp [d_strcmp]
      | cons b s2 =>
          rw [d_strcmp, List.cons.injEq]
          split
          case isTrue same => rw [ih, and_iff_right same]
          case isFalse other =>
            refine iff_of_false (fun zero => ?_) (fun both => other both.1)
            split at zero <;> cases zero

/-! ## A parameter on both engines -/

/-- What is known of a parameter between states and of the packets that it is checked on. -/
structure CPUParameter.Checkable (parameter : CPUParameter) (p : GPUProcessor) (pkt : PubPktPtr)
    (pe : PartialEvent) : Prop where
  last : parameter.lastIndex =
    max (RulePkt.findLastState parameter.leftTree) (RulePkt.findLastState parameter.rightTree)
  left : parameter.leftTree.Typed parameter.vtype
  right : parameter.rightTree.Typed parameter.vtype
  resolves : ∀ reference ∈ parameter.refs,
    p.Resolves pkt pe parameter.lastIndex parameter.vtype reference

/-- The trees are small enough for the arrays, with the two levels that the depth starts from. -/
def CPUParameter.Shallow (parameter : CPUParameter) : Prop :=
  max (findDepth parameter.leftTree 2) (findDepth parameter.rightTree 2) ≤ maxDepth

/-- Where the two comparisons say the same, for each type of parameter. -/
def CPUParameter.Alike (parameter : CPUParameter) (gp : GPUParameter) (pkt : PubPktPtr)
    (pe : PartialEvent) : Prop :=
  match parameter.vtype with
  | .int =>
    let left := computeIntValueForParameters pkt pe parameter.lastIndex .state parameter.leftTree
    let right := computeIntValueForParameters pkt pe parameter.lastIndex .state parameter.rightTree
    let leftOnDevice := GPUProcessor.intOnDevice pkt pe parameter.lastIndex parameter.leftTree
    let rightOnDevice := GPUProcessor.intOnDevice pkt pe parameter.lastIndex parameter.rightTree
    match parameter.operation with
    | .eq | .ne => leftOnDevice = rightOnDevice ↔ left = right
    | .lt => leftOnDevice < rightOnDevice ↔ left < right
    | .gt => rightOnDevice < leftOnDevice ↔ right < left
    | .le => right < left
    | .ge => left < right
    | .in_ => True
  | .float =>
    let left := computeFloatValueForParameters pkt pe parameter.lastIndex .state parameter.leftTree
    let right :=
      computeFloatValueForParameters pkt pe parameter.lastIndex .state parameter.rightTree
    (parameter.operation = .le → left.le right = false) ∧
      (parameter.operation = .ge → right.le left = false)
  | .bool =>
    let left := computeBoolValueForParameters pkt pe parameter.lastIndex .state parameter.leftTree
    let right := computeBoolValueForParameters pkt pe parameter.lastIndex .state parameter.rightTree
    let leftLeaf := GPUProcessor.leafOnDevice pkt pe parameter.lastIndex [] Value.asBool false
      parameter.leftTree.asExpr.lastLeaf
    let rightLeaf := GPUProcessor.leafOnDevice pkt pe parameter.lastIndex [] Value.asBool false
      parameter.rightTree.asExpr.lastLeaf
    (parameter.operation = .eq → (leftLeaf = rightLeaf ↔ left ∧ right)) ∧
      (parameter.operation = .ne → (leftLeaf ≠ rightLeaf ↔ left ∨ right))
  | .string =>
    let left := computeStringValueForParameters pkt pe parameter.lastIndex .state parameter.leftTree
    let right :=
      computeStringValueForParameters pkt pe parameter.lastIndex .state parameter.rightTree
    let leftLeaf := GPUProcessor.leafOnDevice pkt pe parameter.lastIndex (gp.leftTree 0).rest
      Value.stringVal [] parameter.leftTree.asExpr.lastLeaf
    let rightLeaf := GPUProcessor.leafOnDevice pkt pe parameter.lastIndex (gp.rightTree 0).rest
      Value.stringVal [] parameter.rightTree.asExpr.lastLeaf
    (parameter.operation = .eq ∨ parameter.operation = .ne → (leftLeaf = rightLeaf ↔ left = right))

/-- Where no `FLOAT` is too large for an `int`, only the two comparisons that the device lacks can
tell integers apart. -/
theorem CPUParameter.alike_of_fitsInt {parameter : CPUParameter} {gp : GPUParameter}
    {pkt : PubPktPtr} {pe : PartialEvent} (int : parameter.vtype = .int)
    (typedLeft : parameter.leftTree.Typed .int) (typedRight : parameter.rightTree.Typed .int)
    (fitsLeft : parameter.leftTree.FitsInt pkt pe parameter.lastIndex)
    (fitsRight : parameter.rightTree.FitsInt pkt pe parameter.lastIndex) :
    parameter.Alike gp pkt pe ↔
      let left := computeIntValueForParameters pkt pe parameter.lastIndex .state parameter.leftTree
      let right := computeIntValueForParameters pkt pe parameter.lastIndex .state
        parameter.rightTree
      (parameter.operation = .le → right < left) ∧ (parameter.operation = .ge → left < right) := by
  simp only [CPUParameter.Alike, int, GPUProcessor.intOnDevice_eq typedLeft fitsLeft,
    GPUProcessor.intOnDevice_eq typedRight fitsRight]
  cases parameter.operation <;> simp

section Checked

variable {p : GPUProcessor} {pkt : PubPktPtr} {pe : PartialEvent} {current : EventInfo}
  {ev : EventInfoSet} {gp host : GPUParameter} {parameter : CPUParameter}

namespace GPUProcessor

theorem checkOnDevice_deep (deep : ¬ parameter.Shallow) :
    p.checkOnDevice gp host current ev parameter = none := by
  have deeper : treeSize < 2 ^ max (findDepth parameter.leftTree 2)
      (findDepth parameter.rightTree 2) - 1 := by
    have more : maxDepth + 1 ≤ max (findDepth parameter.leftTree 2)
      (findDepth parameter.rightTree 2) := Nat.lt_of_not_le deep
    have large := Nat.pow_le_pow_right Nat.two_pos more
    simp only [treeSize, maxDepth] at large ⊢
    omega
  simp only [checkOnDevice, RulePkt.gpuParameter, serializeTrees, if_pos deeper]
  rfl

/-- A parameter as the kernels find it. -/
def onDevice (p : GPUProcessor) (gp host : GPUParameter) (parameter : CPUParameter) :
    GPUParameter :=
  let depth := max (findDepth parameter.leftTree 2) (findDepth parameter.rightTree 2)
  { operation := parameter.operation
    sType := .state
    vType := parameter.vtype
    leftTree := p.arrayOf depth gp.leftTree host.leftTree parameter.leftTree
    lSize := parameter.leftTree.asExpr.size
    rSize := parameter.rightTree.asExpr.size
    rightTree := p.arrayOf depth gp.rightTree host.rightTree parameter.rightTree
    lastIndex := (p.sequenceLen : Int) - parameter.lastIndex - 1
    depth }

/-- A tree fits into arrays of its own depth, so into those of the deeper of two trees. -/
theorem size_le_of_findDepth_le {tree : OpTree} {depth : Nat} (le : findDepth tree 2 ≤ depth) :
    tree.asExpr.size ≤ 2 ^ depth - 1 := by
  have small := tree.asExpr.size_lt
  have height := findDepth_eq tree 2
  have room := Nat.pow_le_pow_right Nat.two_pos (show tree.asExpr.height + 1 ≤ depth by omega)
  omega

theorem fits_left : parameter.leftTree.asExpr.size ≤
    2 ^ max (findDepth parameter.leftTree 2) (findDepth parameter.rightTree 2) - 1 :=
  size_le_of_findDepth_le (le_max_left _ _)

theorem fits_right : parameter.rightTree.asExpr.size ≤
    2 ^ max (findDepth parameter.leftTree 2) (findDepth parameter.rightTree 2) - 1 :=
  size_le_of_findDepth_le (le_max_right _ _)

theorem checkOnDevice_shallow (shallow : parameter.Shallow)
    (checkable : parameter.Checkable p pkt pe) (assigned : p.Assigned pkt pe current ev) :
    p.checkOnDevice gp host current ev parameter =
      d_checkComplexParameter current ev ((p.sequenceLen : Int) - parameter.lastIndex - 1)
        (p.onDevice gp host parameter) := by
  have located : ∀ reference ∈ parameter.refs, p.Located reference :=
    fun reference mem => (checkable.resolves reference mem).located assigned
  have within : ¬ treeSize < 2 ^ max (findDepth parameter.leftTree 2)
      (findDepth parameter.rightTree 2) - 1 := by
    have le := Nat.pow_le_pow_right Nat.two_pos shallow
    simp only [treeSize]
    omega
  let depth := max (findDepth parameter.leftTree 2) (findDepth parameter.rightTree 2)
  have left : p.setTree depth (serializeNode p.sequenceLen parameter.leftTree
      (0, clearTree depth gp.leftTree)).2 host.leftTree =
        some (p.arrayOf depth gp.leftTree host.leftTree parameter.leftTree) :=
    setTree_eq (fun reference mem => located reference (List.mem_append_left _ mem)) fits_left
  have right : p.setTree depth (serializeNode p.sequenceLen parameter.rightTree
      (0, clearTree depth gp.rightTree)).2 host.rightTree =
        some (p.arrayOf depth gp.rightTree host.rightTree parameter.rightTree) :=
    setTree_eq (fun reference mem => located reference (List.mem_append_right _ mem)) fits_right
  have length : p.rulePkt.predicates.length = p.sequenceLen := rfl
  simp only [checkOnDevice, RulePkt.gpuParameter, serializeTrees, if_neg within, length,
    Option.bind_eq_bind, Option.bind_some, setParameter, ← checkable.last, serializeNode_fst]
  simp only [depth] at left right
  rw [left, Option.bind_some, right, Option.bind_some]
  simp only [Option.pure_def, Option.bind_some, onDevice, Nat.zero_add]

theorem leafCount_le_stackSize {tree : OpTree} (shallow : findDepth tree 2 ≤ maxDepth) :
    tree.asExpr.leafCount ≤ stackSize := by
  have count := tree.asExpr.leafCount_le
  have depth := findDepth_eq tree 2
  have le := Nat.pow_le_pow_right Nat.two_pos (show tree.asExpr.height ≤ maxDepth - 1 by omega)
  exact Nat.le_trans count le

end GPUProcessor

end Checked

/-! ### A bound that may be reached -/

def readings : RulePkt :=
  ((RulePkt.new true 0).1.addRootPredicate 1 []).bind
    (fun pkt => pkt.addPredicate 2 [] 0 10 .eachWithin) |>.getD (RulePkt.new true 0).1

/-- A reading of one attribute. -/
def measure : PubPktPtr := ⟨0, PubPkt.new 2 [⟨['v'], .int 1⟩] 5⟩

/-- `1 <= v` for the second event. -/
def atLeastOne : CPUParameter :=
  RulePkt.cpuParameter .le .int (.leaf (.static (.int 1)) .int)
    (.leaf (.rulePkt 1 .state (some ['v'])) .int)

/-- A processor that has seen a reading for each state. -/
def afterReadings : GPUProcessor :=
  { rulePkt := readings
    mm := MemoryManager.new 1 (fun _ => ⟨[], 0⟩) (fun _ => ⟨[], 0⟩)
    mmToken := 0
    lowIndexes := fun _ _ => 0
    highIndexes := fun _ _ => 0
    timestamps := fun _ _ _ => 0
    samples := fun _ _ => some measure.pkt }

def unsetNode : Node :=
  ⟨.add, .inner, .state, 0, 0, false, false, [], .int, .int 0, []⟩

def unsetParameter : GPUParameter :=
  ⟨.eq, .state, .int, fun _ => unsetNode, 0, 0, fun _ => unsetNode, 0, 0⟩

theorem atLeastOne_checkable : atLeastOne.Checkable afterReadings measure .empty where
  last := rfl
  left := ⟨fun op mem => absurd mem List.not_mem_nil, fun value mem => by
    cases List.mem_singleton.mp mem
    exact .inl rfl⟩
  right := ⟨fun op mem => absurd mem List.not_mem_nil, fun value mem => by
    cases List.mem_singleton.mp mem⟩
  resolves := by
    intro reference mem
    rcases List.mem_cons.mp mem with rfl | mem
    · trivial
    · cases List.mem_singleton.mp mem
      exact ⟨rfl, by decide, by decide, ['v'], measure, 0, .int, rfl, rfl, by decide,
        fun string => ValType.noConfusion string, by decide⟩

theorem measure_assigned :
    afterReadings.Assigned measure .empty ⟨measure.pkt.attributes, 5⟩ fun _ => ⟨[], 0⟩ where
  current := by decide
  states := by
    intro i q _ assigned
    cases assigned

end TRex
