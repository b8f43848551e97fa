import TRex.Lib.Guarded
import TRex.ParameterKernels

/-!
# Trees without a bound

`serializeNode` writes a tree in prefix order, and `d_computeIntValue` goes over the array from its
end, with a stack. `flattened_computes` says that the value of the tree is left on the stack, for
trees of any size and an array and a stack without an end, as long as no divisor is 0; and that for
an array of `TREE_SIZE` nodes a stack of `STACK_SIZE` numbers is enough.
-/

namespace TRex

open StackMachine

/-! ## The recursion and the stack -/

/-- What an operator makes of two `int`s. There is no quotient by 0. -/
def intResult (op : OpTreeOperation) (a b : Int) : Option Int :=
  match op with
  | .add => some (wrap32 (a + b))
  | .sub => some (wrap32 (a - b))
  | .mul => some (wrap32 (a * b))
  | .div => if b = 0 then none else some (wrap32 (a.tdiv b))
  | .and | .or => some 0

/-- The number that a leaf stands for on the device, given those of the packets' attributes. -/
def leafInt (numberOf : OpValueReference → Int) : OpValueReference → Int
  | .static value => value.asIntOnDevice
  | reference => numberOf reference

/-- The value of a tree, computed recursively. -/
def OpTree.intValue (numberOf : OpValueReference → Int) : OpTree → Option Int
  | .leaf reference _ => some (leafInt numberOf reference)
  | .inner left right op _ => do
    let leftValue ← left.intValue numberOf
    let rightValue ← right.intValue numberOf
    intResult op leftValue rightValue

/-- One turn of the loop in `d_computeIntValue`, on a stack without an end. The operand that is
popped first is the left one; fewer than two operands are none. -/
def intTurn (read : Node → Option Int) (stack : List Int) (node : Node) : Option (List Int) :=
  match node.type with
  | .leaf => (read node).map (· :: stack)
  | .inner =>
    if node.operation = .and ∨ node.operation = .or then some stack
    else match stack with
      | a :: b :: stack => (intResult node.operation a b).map (· :: stack)
      | _ => none

/-- The stack after a number of turns, from the end of the array on. -/
def intTurns (read : Node → Option Int) (tree : Nat → Node) (size turns : Nat) :
    Option (List Int) :=
  (((List.range size).map tree).reverse.take turns).foldlM (intTurn read) []

/-! ### The kernel's operators -/

/-- The operators as total functions. -/
def intApply : OpTreeOperation → Int → Int → Int :=
  combine (fun a b => wrap32 (a + b)) (fun a b => wrap32 (a - b)) (fun a b => wrap32 (a * b))
    (fun a b => wrap32 (a.tdiv b)) 0

/-- The turn on a stack of `STACK_SIZE` numbers. -/
def kernelTurn (read : Node → Option Int) : List Int → Node → Option (List Int) :=
  computeStep read (arithmetic (fun a b => wrap32 (a + b)) (fun a b => wrap32 (a - b))
    (fun a b => wrap32 (a * b)) (fun a b => wrap32 (a.tdiv b)))

theorem intApply_of_intResult {op : OpTreeOperation} {a b c : Int}
    (applied : intResult op a b = some c) : intApply op a b = c := by
  cases op with
  | div =>
      rw [intResult] at applied
      split at applied
      · cases applied
      · exact Option.some.inj applied
  | add | sub | mul | and | or => exact Option.some.inj applied

theorem d_computeIntValue_eq (current : EventInfo) (ev : EventInfoSet) (stateIndex : Int)
    (tree : Nat → Node) (size : Nat) :
    d_computeIntValue current ev stateIndex tree size =
      (((List.range size).map tree).reverse.foldlM
        (kernelTurn (d_readIntValue current ev stateIndex)) []).bind List.getLast? := rfl

namespace GPUProcessor

variable (p : GPUProcessor)

/-- What `setParameters` leaves of a node. -/
def setAttribute (node : Node) : Node := (p.setNode node).getD node

/-- The array of a tree: `serializeNode` writes it, and `setParameters` looks up the attributes. -/
def flattened (memory : Nat → Node) (tree : OpTree) (i : Nat) : Node :=
  p.setAttribute ((serializeNode p.sequenceLen tree (0, memory)).2 i)

/-- `serializeTrees` keeps the index that `serializeNode` ends with as the size. -/
def flattenedSize (memory : Nat → Node) (tree : OpTree) : Nat :=
  (serializeNode p.sequenceLen tree (0, memory)).1

/-- The kernel reads the number of a packet's attribute off each node that a reference to it is
written to. -/
def ReadsAttributes (memory : Nat → Node) (tree : OpTree) (read : Node → Option Int)
    (numberOf : OpValueReference → Int) : Prop :=
  ∀ index type name, .rulePkt index type name ∈ tree.refs → ∀ i < p.flattenedSize memory tree,
    read (p.setAttribute (serializeLeaf p.sequenceLen (.rulePkt index type name) (memory i))) =
      some (numberOf (.rulePkt index type name))

variable {p} {memory : Nat → Node} {tree : OpTree}

theorem flattenedSize_eq : p.flattenedSize memory tree = tree.asExpr.size := by
  rw [flattenedSize, serializeNode_fst, Nat.zero_add]

/-- What holds of the leaves and of the operators holds of the array. -/
theorem flattened_encodes {isLeaf : Node → OpValueReference → Prop}
    {isOp : Node → OpTreeOperation → Prop}
    (leaves : ∀ reference ∈ tree.refs, ∀ i < p.flattenedSize memory tree,
      isLeaf (p.setAttribute (serializeLeaf p.sequenceLen reference (memory i))) reference)
    (ops : ∀ op ∈ tree.operations, ∀ node, isOp (serializeInner op node) op) :
    Encodes isLeaf isOp
      ((List.range (p.flattenedSize memory tree)).map (p.flattened memory tree)) tree.asExpr := by
  rw [flattenedSize_eq] at leaves ⊢
  have encodes := serializeNode_encodes (n := p.sequenceLen)
    (fun node reference => isLeaf (p.setAttribute node) reference)
    (fun node op => isOp (p.setAttribute node) op) tree 0 memory
    (fun reference mem j _ lt => leaves reference mem j (by omega))
    (fun op mem j _ _ => by
      rw [setAttribute, setNode_inner, Option.getD_some]
      exact ops op mem _)
  have mapped : Encodes isLeaf isOp (((List.range' 0 tree.asExpr.size).map
      (serializeNode p.sequenceLen tree (0, memory)).2).map p.setAttribute) tree.asExpr :=
    encodes.map (fun _ _ here => here) fun _ _ here => here
  rwa [List.map_map, ← List.range_eq_range'] at mapped

theorem setAttribute_type (node : Node) : (p.setAttribute node).type = node.type := by
  rw [setAttribute, setNode]
  split
  · cases p.getAttributeIndexAndType node.refersTo node.attrName node.sType with
    | none => rfl
    | some found => rfl
  · rfl

/-! ## What the kernel reads -/

variable {current : EventInfo} {ev : EventInfoSet} {stateIndex : Int}
  {numberOf : OpValueReference → Int}

/-- The node of a leaf is a leaf, off which its number is read. -/
theorem read_flattened (typed : tree.Typed .int)
    (reads : p.ReadsAttributes memory tree (d_readIntValue current ev stateIndex) numberOf)
    {reference : OpValueReference} (mem : reference ∈ tree.refs) {i : Nat}
    (inside : i < p.flattenedSize memory tree) :
    (p.setAttribute (serializeLeaf p.sequenceLen reference (memory i))).type = .leaf ∧
      d_readIntValue current ev stateIndex
          (p.setAttribute (serializeLeaf p.sequenceLen reference (memory i))) =
        some (leafInt numberOf reference) := by
  rw [setAttribute_type]
  cases reference with
  | static value =>
      rw [setAttribute, setNode_static, Option.getD_some]
      have literal := typed.literals value mem
      cases value with
      | int v => exact ⟨rfl, rfl⟩
      | float f => exact ⟨rfl, rfl⟩
      | bool b pad => rcases literal with other | other <;> cases other
      | string s => rcases literal with other | other <;> cases other
  | rulePkt index type name => exact ⟨rfl, reads index type name mem i inside⟩

theorem intValue_eq (numberOf : OpValueReference → Int) (tree : OpTree) :
    tree.intValue numberOf = tree.asExpr.evalGuarded (leafInt numberOf) intResult := by
  induction tree with
  | leaf reference valType => rfl
  | inner left right op valType ihLeft ihRight =>
      rw [OpTree.intValue, OpTree.asExpr, Expr.evalGuarded, ihLeft, ihRight]

/-! ## The cells -/

theorem intTurn_leaf {read : Node → Option Int} {node : Node} {v : Int} (isLeaf : node.type = .leaf)
    (isRead : read node = some v) (stack : List Int) :
    intTurn read stack node = some (v :: stack) := by
  simp only [intTurn, isLeaf, isRead, Option.map_some]

theorem intTurn_inner (read : Node → Option Int) {op : OpTreeOperation}
    (numeric : op ≠ .and ∧ op ≠ .or) (node : Node) (stack : List Int) :
    intTurn read stack (serializeInner op node) =
      match stack with
      | a :: b :: stack => (intResult op a b).map (· :: stack)
      | _ => none :=
  if_neg (not_or.mpr numeric)

section Typed

variable (typed : tree.Typed .int)
  (reads : p.ReadsAttributes memory tree (d_readIntValue current ev stateIndex) numberOf)

include typed reads

/-- On a stack without an end, the cells push the numbers of the leaves and apply the operators. -/
theorem flattened_yields (capacity : Nat) :
    Encodes (Encodes.Pushes (intTurn (d_readIntValue current ev stateIndex)) capacity
        (leafInt numberOf))
      (Encodes.Yields (intTurn (d_readIntValue current ev stateIndex)) intResult)
      ((List.range (p.flattenedSize memory tree)).map (p.flattened memory tree)) tree.asExpr := by
  refine flattened_encodes (fun reference mem i inside stack _ => ?_)
    fun op mem node a b stack => ?_
  · obtain ⟨isLeaf, isRead⟩ := read_flattened typed reads mem inside
    exact intTurn_leaf isLeaf isRead stack
  · exact intTurn_inner _ (typed.operators op mem) node (a :: b :: stack)

theorem flattened_grows :
    Encodes (Encodes.Grows (intTurn (d_readIntValue current ev stateIndex)))
      (Encodes.Shrinks (intTurn (d_readIntValue current ev stateIndex)))
      ((List.range (p.flattenedSize memory tree)).map (p.flattened memory tree)) tree.asExpr := by
  refine flattened_encodes (fun reference mem i inside stack stack' turned => ?_)
    fun op mem node stack stack' turned => ?_
  · obtain ⟨isLeaf, isRead⟩ := read_flattened typed reads mem inside
    rw [intTurn_leaf isLeaf isRead] at turned
    cases turned
    rfl
  · rw [intTurn_inner _ (typed.operators op mem)] at turned
    split at turned
    case h_1 a b rest =>
      obtain ⟨c, _, pushed⟩ := Option.map_eq_some_iff.mp turned
      rw [← pushed]
      rfl
    case h_2 => cases turned

/-- The same cells on the kernel's stack. -/
theorem flattened_replaces :
    Encodes (Encodes.Pushes (kernelTurn (d_readIntValue current ev stateIndex)) stackSize
        (leafInt numberOf))
      (Encodes.Replaces (kernelTurn (d_readIntValue current ev stateIndex)) intApply)
      ((List.range (p.flattenedSize memory tree)).map (p.flattened memory tree)) tree.asExpr := by
  refine flattened_encodes (fun reference mem i inside stack room => ?_)
    fun op mem node a b stack => ?_
  · obtain ⟨isLeaf, isRead⟩ := read_flattened typed reads mem inside
    simp only [kernelTurn, computeStep, isLeaf, isRead, Option.bind_some, if_pos room]
  · exact arithmetic_eq 0 (typed.operators op mem) a b stack

/-! ## The value of the tree -/

theorem intTurns_of_intValue {v : Int} (value : tree.intValue numberOf = some v) :
    intTurns (d_readIntValue current ev stateIndex) (p.flattened memory tree)
      (p.flattenedSize memory tree) (p.flattenedSize memory tree) = some [v] := by
  rw [intValue_eq] at value
  rw [intTurns, List.take_of_length_le (by simp)]
  exact (flattened_yields typed reads tree.asExpr.leafCount).run_guarded []
    (by rw [List.length_nil, Nat.zero_add]) value

theorem length_of_intTurns_le {turns : Nat} {stack : List Int}
    (ran : intTurns (d_readIntValue current ev stateIndex) (p.flattened memory tree)
      (p.flattenedSize memory tree) turns = some stack) :
    stack.length ≤ tree.asExpr.leafCount := by
  have low := (flattened_grows typed reads).length_le_of_take turns ran
  rwa [List.length_nil, Nat.zero_add] at low

theorem d_computeIntValue_of_intValue (room : tree.asExpr.leafCount ≤ stackSize) {v : Int}
    (value : tree.intValue numberOf = some v) :
    d_computeIntValue current ev stateIndex (p.flattened memory tree)
      (p.flattenedSize memory tree) = some v := by
  rw [intValue_eq] at value
  have ran := (flattened_replaces typed reads).run [] (by simpa using room)
  rw [Expr.eval_of_evalGuarded (fun _ _ _ _ => intApply_of_intResult) tree.asExpr value] at ran
  rw [d_computeIntValue_eq, ran]
  rfl

/-- If no divisor is 0, the stack machine neither runs below the stack nor leaves anything but the
value of the tree. Of at most `TREE_SIZE` nodes, there are never more than `STACK_SIZE` numbers on
the stack, so that the kernel itself computes the value. -/
theorem flattened_computes :
    (∀ v, tree.intValue numberOf = some v →
      intTurns (d_readIntValue current ev stateIndex) (p.flattened memory tree)
        (p.flattenedSize memory tree) (p.flattenedSize memory tree) = some [v]) ∧
    (p.flattenedSize memory tree ≤ treeSize →
      (∀ turns stack, intTurns (d_readIntValue current ev stateIndex) (p.flattened memory tree)
        (p.flattenedSize memory tree) turns = some stack → stack.length ≤ stackSize) ∧
      ∀ v, tree.intValue numberOf = some v →
        d_computeIntValue current ev stateIndex (p.flattened memory tree)
          (p.flattenedSize memory tree) = some v) := by
  refine ⟨fun v value => intTurns_of_intValue typed reads value, fun few => ?_⟩
  have room : tree.asExpr.leafCount ≤ stackSize := by
    have count := tree.asExpr.size_eq
    rw [flattenedSize_eq, treeSize, maxDepth] at few
    rw [stackSize, maxDepth]
    omega
  exact ⟨fun turns stack ran => (length_of_intTurns_le typed reads ran).trans room,
    fun v value => d_computeIntValue_of_intValue typed reads room value⟩

end Typed

/-! ## The CPU's recursion -/

/-- The kernel reads the attributes that the CPU reads, on cleared memory. -/
theorem readsAttributes_of_resolves {pkt : PubPktPtr} {pe : PartialEvent} {index : Int}
    (assigned : p.Assigned pkt pe current ev)
    (resolves : ∀ reference ∈ tree.refs, p.Resolves pkt pe index .int reference) :
    p.ReadsAttributes (fun i => (memory i).clear) tree
      (d_readIntValue current ev ((p.sequenceLen : Int) - index - 1))
      (leafOnDevice pkt pe index [] Value.asIntOnDevice 0) := by
  intro i type name mem j _
  have resolved := resolves _ mem
  obtain ⟨node', set⟩ := Option.isSome_iff_exists.mp (resolved.located assigned (memory j))
  obtain ⟨-, isRead⟩ := readValue_set resolved assigned (fun _ same => nomatch same) set
  rw [setAttribute, set, Option.getD_some]
  exact isRead

theorem computeIntValueForParameters_of_intValue {pkt : PubPktPtr} {pe : PartialEvent}
    {index : Int} (fits : tree.FitsInt pkt pe index) {v : Int}
    (value : tree.intValue (leafOnDevice pkt pe index [] Value.asIntOnDevice 0) = some v) :
    computeIntValueForParameters pkt pe index .state tree = v := by
  rw [intValue_eq] at value
  rw [computeIntValueForParameters_eq_eval,
    ← Expr.eval_of_evalGuarded (fun _ _ _ _ => intApply_of_intResult) tree.asExpr value]
  refine tree.eval_congr fun reference mem => ?_
  cases reference with
  | static value => exact (Value.asIntOnDevice_eq (fits _ mem value rfl)).symm
  | rulePkt i type name =>
      have literal : ∀ value, OpValueReference.rulePkt i type name = .static value →
          ValType.int.Literal value := nofun
      exact (leafOnDevice_eq literal (fits _ mem)).symm

/-- On a stack without an end, the kernel computes what the CPU does, for trees of any size, as
long as it reads no `FLOAT` that is too large for an `int`. -/
theorem intTurns_parameter (typed : tree.Typed .int) {pkt : PubPktPtr} {pe : PartialEvent}
    {index : Int} (assigned : p.Assigned pkt pe current ev)
    (resolves : ∀ reference ∈ tree.refs, p.Resolves pkt pe index .int reference)
    (fits : tree.FitsInt pkt pe index)
    (divides : (tree.intValue (leafOnDevice pkt pe index [] Value.asIntOnDevice 0)).isSome) :
    let cleared := fun i => (memory i).clear
    intTurns (d_readIntValue current ev ((p.sequenceLen : Int) - index - 1))
        (p.flattened cleared tree) (p.flattenedSize cleared tree) (p.flattenedSize cleared tree) =
      some [computeIntValueForParameters pkt pe index .state tree] := by
  obtain ⟨v, value⟩ := Option.isSome_iff_exists.mp divides
  rw [computeIntValueForParameters_of_intValue fits value]
  exact intTurns_of_intValue typed (readsAttributes_of_resolves assigned resolves) value

end GPUProcessor

/-! ## A tree with a division -/

/-- `(10 - v) / 3` -/
def quotient : OpTree :=
  .inner (.inner (.leaf (.static (.int 10)) .int) (.leaf (.rulePkt 1 .state (some ['v'])) .int)
    .sub .int) (.leaf (.static (.int 3)) .int) .div .int

theorem quotient_typed : quotient.Typed .int where
  operators := by
    intro op mem
    rcases List.mem_cons.mp mem with division | mem
    · rw [division]
      exact ⟨nofun, nofun⟩
    · cases List.mem_singleton.mp mem
      exact ⟨nofun, nofun⟩
  literals := by
    intro value mem
    rcases List.mem_cons.mp mem with ten | mem
    · cases ten
      exact .inl rfl
    rcases List.mem_cons.mp mem with same | mem
    · cases same
    · cases List.mem_singleton.mp mem
      exact .inl rfl

theorem quotient_reads : afterReadings.ReadsAttributes (fun _ => unsetNode) quotient
    (d_readIntValue ⟨measure.pkt.attributes, 5⟩ (fun _ => ⟨[], 0⟩) 0) fun _ => 1 := by
  intro index type name mem i _
  rcases List.mem_cons.mp mem with same | mem
  · cases same
  rcases List.mem_cons.mp mem with same | mem
  · cases same
    rfl
  · cases List.mem_singleton.mp mem

theorem flattened_computes_quotient :
    intTurns (d_readIntValue ⟨measure.pkt.attributes, 5⟩ (fun _ => ⟨[], 0⟩) 0)
        (afterReadings.flattened (fun _ => unsetNode) quotient)
        (afterReadings.flattenedSize (fun _ => unsetNode) quotient)
        (afterReadings.flattenedSize (fun _ => unsetNode) quotient) = some [3] :=
  (GPUProcessor.flattened_computes quotient_typed quotient_reads).1 3 (by decide)

end TRex
