import TRex.ParameterKernels

/-!
# Where the trees of a parameter are written

Each of the three builder calls for complex parameters writes the trees into two arrays of
`TREE_SIZE` nodes, whatever engine the rule is for. Here the positions that are written are
recorded: all nodes below a power of two of the depth are cleared, and then one is filled for each
node of a tree. -/

namespace TRex

open StackMachine

/-! ## Recorded writes -/

/-- An array with the positions that have been written. -/
structure Recorded where
  nodes : Nat → Node
  positions : List Nat

def Recorded.write (array : Recorded) (i : Nat) (f : Node → Node) : Recorded where
  nodes := Function.update array.nodes i (f (array.nodes i))
  positions := array.positions ++ [i]

/-- `(1 << depth) - 1`. From 31 on the shift is undefined, and no node is counted as cleared. -/
def clearedNodes (depth : Nat) : Nat := if depth < 31 then 2 ^ depth - 1 else 0

/-- The loop that clears an array. -/
def Recorded.clear (depth : Nat) (array : Recorded) : Recorded :=
  (List.range (clearedNodes depth)).foldl (fun array i => array.write i Node.clear) array

/-- `serializeNode`. -/
def recordNode (predicatesNum : Nat) : OpTree → Nat × Recorded → Nat × Recorded
  | .leaf reference _, (idx, serialized) =>
    (idx + 1, serialized.write idx (serializeLeaf predicatesNum reference))
  | .inner left right op _, (idx, serialized) =>
    recordNode predicatesNum right (recordNode predicatesNum left
      (idx + 1, serialized.write idx (serializeInner op)))

/-- `ComplexGPUParameterConstraints` with the index of the negation or the aggregate. -/
structure ComplexGPUParameter extends GPUParameter where
  negIndex : Int
  aggIndex : Int

/-- `serializeTrees`: the parameter, and the positions written in its left and its right tree. -/
def recordTrees (predicatesNum : Nat) (ltree rtree : OpTree) (depth : Nat)
    (gp : ComplexGPUParameter) : ComplexGPUParameter × List Nat × List Nat :=
  let left := recordNode predicatesNum ltree (0, Recorded.clear depth ⟨gp.leftTree, []⟩)
  let right := recordNode predicatesNum rtree (0, Recorded.clear depth ⟨gp.rightTree, []⟩)
  ({ gp with
      leftTree := left.2.nodes
      lSize := left.1
      rightTree := right.2.nodes
      rSize := right.1 }, left.2.positions, right.2.positions)

/-! ## The builder calls -/

/-- A rule under construction, with the parameters for the device. -/
structure RuleParts where
  rule : RulePkt
  complexGPUParameters : List ComplexGPUParameter

/-- What a call returns and leaves behind, with the positions that it wrote. -/
structure RecordedCall where
  returned : Bool
  parts : RuleParts
  leftWrites : List Nat
  rightWrites : List Nat

namespace RuleParts

variable (parts : RuleParts) (gp : ComplexGPUParameter)

/-- The three calls differ in the index that they look for and in what they set in the parameter for
the device, which lies in memory that was not set before. -/
def addComplexParameterWith (find : OpTree → Int) (sType : StateType)
    (mark : Int → ComplexGPUParameter → ComplexGPUParameter) (pOperation : Op) (type : ValType)
    (leftTree rightTree : OpTree) : RecordedCall :=
  let lIndex := max (find leftTree) (find rightTree)
  if lIndex < 0 then ⟨false, parts, [], []⟩
  else
    let rule := { parts.rule with complexParameters := parts.rule.complexParameters ++
      [{ operation := pOperation, type := sType, vtype := type, leftTree, rightTree
         lastIndex := lIndex }] }
    let depth := max (findDepth leftTree 2) (findDepth rightTree 2)
    let gp := { mark lIndex gp with depth, sType, vType := type, operation := pOperation }
    let (gp, leftWrites, rightWrites) :=
      recordTrees parts.rule.predicates.length leftTree rightTree depth gp
    ⟨true, ⟨rule, parts.complexGPUParameters ++ [gp]⟩, leftWrites, rightWrites⟩

def addComplexParameter :=
  parts.addComplexParameterWith gp RulePkt.findLastState .state fun lIndex gp =>
    { gp with lastIndex := (parts.rule.predicates.length : Int) - lIndex - 1 }

def addComplexParameterForNegation (pOperation : Op) (type : ValType)
    (leftTree rightTree : OpTree) :=
  parts.addComplexParameterWith gp RulePkt.findNegation .neg (fun lIndex gp =>
    { gp with
      negIndex := lIndex
      lastIndex := (parts.rule.predicates.length : Int) -
        max (RulePkt.findLastState leftTree) (RulePkt.findLastState rightTree) - 1 })
    pOperation type leftTree rightTree

def addComplexParameterForAggregate :=
  parts.addComplexParameterWith gp RulePkt.findAggregate .agg fun lIndex gp =>
    { gp with aggIndex := lIndex, lastIndex := -1 }

/-- The call for a kind of parameters. -/
def addComplexParameterFor : StateType → Op → ValType → OpTree → OpTree → RecordedCall
  | .state => parts.addComplexParameter gp
  | .neg => parts.addComplexParameterForNegation gp
  | .agg => parts.addComplexParameterForAggregate gp

end RuleParts

/-- The index that a parameter of a kind is stored under. -/
def RulePkt.findFor : StateType → OpTree → Int
  | .state => findLastState
  | .neg => findNegation
  | .agg => findAggregate

/-- All writes are to positions of the arrays, or the call returns false and leaves the rule
alone. -/
def RecordedCall.InBounds (call : RecordedCall) (before : RuleParts) : Prop :=
  ((∀ i ∈ call.leftWrites, i < treeSize) ∧ ∀ i ∈ call.rightWrites, i < treeSize) ∨
    (call.returned = false ∧ call.parts = before)

/-! ## What is written -/

theorem positions_clear (depth : Nat) (array : Recorded) :
    (array.clear depth).positions = array.positions ++ List.range (clearedNodes depth) := by
  have loop : ∀ (is : List Nat) (array : Recorded),
      (is.foldl (fun array i => array.write i Node.clear) array).positions =
        array.positions ++ is := by
    intro is
    induction is with
    | nil => exact fun array => (List.append_nil _).symm
    | cons i rest ih =>
        intro array
        rw [List.foldl_cons, ih, Recorded.write, List.append_assoc]
        rfl
  exact loop _ _

/-- The nodes of a tree are written one after the other. -/
theorem recordNode_eq (predicatesNum : Nat) (tree : OpTree) (idx : Nat) (array : Recorded) :
    (recordNode predicatesNum tree (idx, array)).1 = idx + tree.asExpr.size ∧
      (recordNode predicatesNum tree (idx, array)).2.positions =
        array.positions ++ List.range' idx tree.asExpr.size := by
  induction tree generalizing idx array with
  | leaf reference valType => exact ⟨rfl, rfl⟩
  | inner left right op valType ihLeft ihRight =>
      obtain ⟨nextLeft, positionsLeft⟩ :=
        ihLeft (idx + 1) (array.write idx (serializeInner op))
      obtain ⟨nextRight, positionsRight⟩ := ihRight
        (recordNode predicatesNum left (idx + 1, array.write idx (serializeInner op))).1
        (recordNode predicatesNum left (idx + 1, array.write idx (serializeInner op))).2
      constructor
      · show (recordNode predicatesNum right (recordNode predicatesNum left _)).1 = _
        rw [nextRight, nextLeft, OpTree.asExpr, Expr.size]
        omega
      · show (recordNode predicatesNum right (recordNode predicatesNum left _)).2.positions = _
        rw [positionsRight, nextLeft, positionsLeft, Recorded.write, List.append_assoc,
          List.append_assoc, List.range'_append_1, OpTree.asExpr, Expr.size, Nat.add_assoc,
          Nat.add_comm 1]
        rfl

/-! ## Bounds -/

/-- Clearing to a depth and filling with a tree stay in the array. -/
theorem writes_lt_iff (predicatesNum : Nat) (tree : OpTree) (depth : Nat) (nodes : Nat → Node) :
    (∀ i ∈ (recordNode predicatesNum tree (0, Recorded.clear depth ⟨nodes, []⟩)).2.positions,
      i < treeSize) ↔ clearedNodes depth ≤ treeSize ∧ tree.asExpr.size ≤ treeSize := by
  rw [(recordNode_eq predicatesNum tree 0 _).2, positions_clear, List.nil_append,
    List.forall_mem_append, ← List.range_eq_range']
  have below : ∀ n, (∀ i ∈ List.range n, i < treeSize) ↔ n ≤ treeSize := by
    intro n
    constructor
    · intro all
      by_contra more
      exact absurd (all treeSize (List.mem_range.mpr (by omega))) (lt_irrefl _)
    · intro le i mem
      exact (List.mem_range.mp mem).trans_le le
  rw [below, below]

theorem fits_iff (ltree rtree : OpTree) :
    (clearedNodes (max (findDepth ltree 2) (findDepth rtree 2)) ≤ treeSize ∧
      ltree.asExpr.size ≤ treeSize ∧ rtree.asExpr.size ≤ treeSize) ↔
        ltree.asExpr.height ≤ 3 ∧ rtree.asExpr.height ≤ 3 := by
  rw [findDepth_eq, findDepth_eq]
  constructor
  · rintro ⟨cleared, left, right⟩
    have leftNodes := ltree.asExpr.height_lt_size
    have rightNodes := rtree.asExpr.height_lt_size
    rw [show treeSize = 31 from rfl] at *
    -- a tree that is too deep for the shift has more nodes than the array
    have shallow : max (2 + ltree.asExpr.height) (2 + rtree.asExpr.height) < 31 := by omega
    rw [clearedNodes, if_pos shallow] at cleared
    by_contra deep
    have power : 2 ^ 6 ≤ 2 ^ max (2 + ltree.asExpr.height) (2 + rtree.asExpr.height) :=
      Nat.pow_le_pow_right Nat.two_pos (by omega)
    omega
  · rintro ⟨left, right⟩
    have size : ∀ tree : OpTree, tree.asExpr.height ≤ 3 → tree.asExpr.size ≤ treeSize := by
      intro tree low
      have bound := tree.asExpr.size_lt
      have power : 2 ^ (tree.asExpr.height + 1) ≤ 2 ^ 4 :=
        Nat.pow_le_pow_right Nat.two_pos (by omega)
      rw [show treeSize = 31 from rfl]
      omega
    refine ⟨?_, size ltree left, size rtree right⟩
    have power : 2 ^ max (2 + ltree.asExpr.height) (2 + rtree.asExpr.height) ≤ 2 ^ 5 :=
      Nat.pow_le_pow_right Nat.two_pos (by omega)
    rw [clearedNodes, if_pos (by omega), show treeSize = 31 from rfl]
    omega

theorem returned_addComplexParameterWith (parts : RuleParts) (gp : ComplexGPUParameter)
    (find : OpTree → Int) (sType : StateType)
    (mark : Int → ComplexGPUParameter → ComplexGPUParameter) (pOperation : Op) (type : ValType)
    (leftTree rightTree : OpTree) :
    (parts.addComplexParameterWith gp find sType mark pOperation type leftTree rightTree).returned =
        true ↔ ¬ max (find leftTree) (find rightTree) < 0 := by
  rw [RuleParts.addComplexParameterWith]
  split
  case isTrue refused => exact iff_of_false Bool.false_ne_true (not_not_intro refused)
  case isFalse accepted => exact iff_of_true rfl accepted

theorem inBounds_addComplexParameterWith (parts : RuleParts) (gp : ComplexGPUParameter)
    (find : OpTree → Int) (sType : StateType)
    (mark : Int → ComplexGPUParameter → ComplexGPUParameter) (pOperation : Op) (type : ValType)
    (leftTree rightTree : OpTree) :
    (parts.addComplexParameterWith gp find sType mark pOperation type leftTree rightTree).InBounds
        parts ↔
      max (find leftTree) (find rightTree) < 0 ∨
        (leftTree.asExpr.height ≤ 3 ∧ rightTree.asExpr.height ≤ 3) := by
  by_cases refused : max (find leftTree) (find rightTree) < 0
  · rw [RuleParts.addComplexParameterWith, if_pos refused]
    exact iff_of_true (.inr ⟨rfl, rfl⟩) (.inl refused)
  · rw [RuleParts.addComplexParameterWith, if_neg refused, or_iff_right refused, ← fits_iff]
    have returned : ∀ P : Prop, ((true = false ∧ P) ↔ False) := by simp
    rw [RecordedCall.InBounds, returned, or_false]
    have left := writes_lt_iff parts.rule.predicates.length leftTree
    have right := writes_lt_iff parts.rule.predicates.length rightTree
    simp only [recordTrees, left, right]
    exact and_and_and_comm.trans (by simp only [and_self])

/-- A builder call writes to the arrays only, or is refused, exactly if no leaf of the trees has an
index that it looks for or no tree has more than three operators one below the other. -/
theorem serialization_inBounds_iff (kind : StateType) (parts : RuleParts) (gp : ComplexGPUParameter)
    (pOperation : Op) (type : ValType) (leftTree rightTree : OpTree) :
    (parts.addComplexParameterFor gp kind pOperation type leftTree rightTree).InBounds parts ↔
      max (RulePkt.findFor kind leftTree) (RulePkt.findFor kind rightTree) < 0 ∨
        (leftTree.asExpr.height ≤ 3 ∧ rightTree.asExpr.height ≤ 3) := by
  cases kind with
  | state => exact inBounds_addComplexParameterWith ..
  | neg => exact inBounds_addComplexParameterWith ..
  | agg => exact inBounds_addComplexParameterWith ..

/-- An expression with constants added to it, so many times. -/
def addedTo (tree : OpTree) : Nat → OpTree
  | 0 => tree
  | n + 1 => .inner (addedTo tree n) (.leaf (.static (.int 1)) .int) .add .int

/-- Memory that holds zeros. -/
def zeroNode : Node where
  operation := .add
  type := .leaf
  sType := .state
  refersTo := 0
  attrNum := 0
  empty := false
  isStatic := false
  attrName := []
  valueType := .int
  value := .int 0
  rest := []

def zeroParameter : ComplexGPUParameter where
  operation := .eq
  sType := .state
  vType := .int
  leftTree := fun _ => zeroNode
  lSize := 0
  rSize := 0
  rightTree := fun _ => zeroNode
  lastIndex := 0
  depth := 0
  negIndex := 0
  aggIndex := 0

/-- With four additions nested, the arrays are cleared up to the position 62. -/
theorem fourAdditions_not_inBounds :
    ¬ ∀ rule ∈ (RulePkt.new true 0).1.addRootPredicate 1 [],
      (RuleParts.addComplexParameter ⟨rule, []⟩ zeroParameter .eq .int
        (addedTo (.leaf (.rulePkt 0 .state (some ['a'])) .int) 4)
        (.leaf (.static (.int 5)) .int)).InBounds ⟨rule, []⟩ := by
  intro all
  have bounds := (inBounds_addComplexParameterWith ..).mp (all _ rfl)
  revert bounds
  decide

end TRex
