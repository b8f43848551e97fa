import TRex.CompositeEventGenerator
import TRex.Lib.Guarded
import TRex.Marshaller
import TRex.ParameterKernels

/-!
# Divisions of integers

`computeIntValue` and `computeIntValueForParameters` divide `int` by `int`, without a look at the
divisor: a divisor of 0, and -1 under the smallest integer, stop the program. An attribute that an
event lacks counts as 0. Here the two functions are run with a watch on their divisions.
-/

namespace TRex

open StackMachine

/-! ## The two functions with their divisions watched -/

/-- There is no quotient, or it is no `int`. -/
def Traps (leftValue rightValue : Int) : Prop :=
  rightValue = 0 ∨ (leftValue = -2 ^ 31 ∧ rightValue = -1)

instance (leftValue rightValue : Int) : Decidable (Traps leftValue rightValue) :=
  inferInstanceAs (Decidable (_ ∨ _))

/-- What both functions do with the values of the subtrees. -/
def resultInt (op : OpTreeOperation) (leftValue rightValue : Int) : Option Int :=
  match op with
  | .add => some (wrap32 (leftValue + rightValue))
  | .sub => some (wrap32 (leftValue - rightValue))
  | .mul => some (wrap32 (leftValue * rightValue))
  | .div => if Traps leftValue rightValue then none else some (wrap32 (leftValue.tdiv rightValue))
  | .and | .or => some 0

/-- The functions differ at the leaves only. -/
def watchedInt (leaf : OpValueReference → Int) : OpTree → Option Int
  | .leaf reference _ => some (leaf reference)
  | .inner left right op _ => do
    let leftValue ← watchedInt leaf left
    let rightValue ← watchedInt leaf right
    resultInt op leftValue rightValue

/-- The arguments of `computeIntValue`, and those of `computeIntValueForParameters`. -/
inductive IntEvaluation
  | template (a : Aggregates) (pe : PartialEvent)
  | parameter (pkt : PubPktPtr) (pe : PartialEvent) (index : Int) (sType : StateType)

namespace IntEvaluation

variable (e : IntEvaluation)

def compute : OpTree → Int :=
  match e with
  | template a pe => computeIntValue a pe
  | parameter pkt pe index sType => computeIntValueForParameters pkt pe index sType

/-- What a leaf is read as, whatever type it is declared with. -/
def leaf (reference : OpValueReference) : Int := e.compute (.leaf reference .int)

def watched : OpTree → Option Int := watchedInt e.leaf

/-- The functions return: no division is evaluated that has no result. -/
def NeverTraps (tree : OpTree) : Prop := (e.watched tree).isSome = true

end IntEvaluation

/-! ## Trees modulo 2 to the power of 32 -/

/-- The operators on the integers modulo 2 to the power of 32. A quotient is rounded towards
zero. -/
def applyBits : OpTreeOperation → BitVec 32 → BitVec 32 → BitVec 32
  | .add, a, b => a + b
  | .sub, a, b => a - b
  | .mul, a, b => a * b
  | .div, a, b => a.sdiv b
  | .and, _, _ | .or, _, _ => 0

/-- What an expression stands for where its leaves have the values. -/
def bits (value : OpValueReference → BitVec 32) (e : Expr OpValueReference OpTreeOperation) :
    BitVec 32 :=
  e.eval value applyBits

/-- No divisor is 0, and none is -1 under the smallest integer. -/
def OpTree.Divides (value : OpValueReference → BitVec 32) (tree : OpTree) : Prop :=
  ∀ op left right, (op, left, right) ∈ tree.asExpr.operators → op = .div →
    bits value right ≠ 0 ∧ ¬ (bits value left = BitVec.intMin 32 ∧ bits value right = -1)

/-! ## The watch and the expressions -/

/-- The number that a leaf is read as, modulo 2 to the power of 32. -/
def IntEvaluation.leafBits (e : IntEvaluation) (reference : OpValueReference) : BitVec 32 :=
  BitVec.ofInt 32 (e.leaf reference)

theorem watchedInt_eq (leaf : OpValueReference → Int) (tree : OpTree) :
    watchedInt leaf tree = tree.asExpr.evalGuarded leaf resultInt := by
  induction tree with
  | leaf reference valType => rfl
  | inner left right op valType ihLeft ihRight =>
      rw [watchedInt, OpTree.asExpr, Expr.evalGuarded, ihLeft, ihRight]

theorem leaves_asExpr (tree : OpTree) : tree.asExpr.leaves = tree.refs := by
  induction tree with
  | leaf reference valType => rfl
  | inner left right op valType ihLeft ihRight =>
      rw [OpTree.asExpr, Expr.leaves, OpTree.refs, ihLeft, ihRight]

theorem toInt_ofInt_of_isInt {v : Int} (int : IsInt v) : (BitVec.ofInt 32 v).toInt = v := by
  rw [BitVec.toInt_ofInt]
  exact Int.bmod_eq_of_le (by have := int.1; omega) (by have := int.2; omega)

/-- A division traps for what two numbers modulo 2 to the power of 32 are read as. -/
theorem traps_toInt_iff (a b : BitVec 32) :
    Traps a.toInt b.toInt ↔ b = 0 ∨ (a = BitVec.intMin 32 ∧ b = -1) := by
  have zero : (0 : BitVec 32).toInt = 0 := rfl
  have smallest : (BitVec.intMin 32).toInt = -2 ^ 31 := rfl
  have minusOne : (-1 : BitVec 32).toInt = -1 := rfl
  rw [Traps, ← BitVec.toInt_inj (y := 0), ← BitVec.toInt_inj (y := BitVec.intMin 32),
    ← BitVec.toInt_inj (y := -1), zero, smallest, minusOne]

/-- The result of a node is read off the result modulo 2 to the power of 32. -/
theorem resultInt_stands : Expr.Stands (fun (v : Int) (b : BitVec 32) => v = b.toInt) resultInt
    applyBits fun op a b => op = .div ∧ (b = 0 ∨ (a = BitVec.intMin 32 ∧ b = -1)) := by
  rintro op - - a b rfl rfl
  cases op with
  | add => exact .inr ⟨(nomatch ·.1), _, rfl, (BitVec.toInt_add a b).symm⟩
  | sub => exact .inr ⟨(nomatch ·.1), _, rfl, BitVec.toInt_sub.symm⟩
  | mul => exact .inr ⟨(nomatch ·.1), _, rfl, (BitVec.toInt_mul a b).symm⟩
  | and | or => exact .inr ⟨(nomatch ·.1), 0, rfl, rfl⟩
  | div =>
      by_cases traps : Traps a.toInt b.toInt
      · exact .inl ⟨⟨rfl, (traps_toInt_iff a b).mp traps⟩, if_pos traps⟩
      · exact .inr ⟨fun undefined => traps ((traps_toInt_iff a b).mpr undefined.2), _,
          if_neg traps, (BitVec.toInt_sdiv a b).symm⟩

/-- The operators as the two functions apply them. -/
def applyInt : OpTreeOperation → Int → Int → Int
  | .add, a, b => wrap32 (a + b)
  | .sub, a, b => wrap32 (a - b)
  | .mul, a, b => wrap32 (a * b)
  | .div, a, b => wrap32 (a.tdiv b)
  | .and, _, _ | .or, _, _ => 0

theorem resultInt_stands_applyInt :
    Expr.Stands Eq resultInt applyInt fun op a b => op = .div ∧ Traps a b := by
  rintro op a b - - rfl rfl
  cases op with
  | add | sub | mul | and | or => exact .inr ⟨(nomatch ·.1), _, rfl, rfl⟩
  | div =>
      by_cases traps : Traps a b
      · exact .inl ⟨⟨rfl, traps⟩, if_pos traps⟩
      · exact .inr ⟨fun undefined => traps undefined.2, _, if_neg traps, rfl⟩

theorem compute_eq_eval (e : IntEvaluation) (tree : OpTree) :
    e.compute tree = tree.asExpr.eval e.leaf applyInt := by
  induction tree with
  | leaf reference valType => cases e <;> cases reference <;> rfl
  | inner left right op valType ihLeft ihRight =>
      rw [OpTree.asExpr, Expr.eval, ← ihLeft, ← ihRight]
      cases e <;> cases op <;> rfl

/-- A watched function that returns has computed what the function computes. -/
theorem watched_eq {e : IntEvaluation} {tree : OpTree} (fine : e.NeverTraps tree) :
    e.watched tree = some (e.compute tree) := by
  rw [IntEvaluation.NeverTraps, IntEvaluation.watched, watchedInt_eq] at fine
  rw [IntEvaluation.watched, watchedInt_eq, compute_eq_eval]
  rcases Expr.evalGuarded_stands resultInt_stands_applyInt tree.asExpr (fun _ _ => rfl) with
    ⟨stopped, -⟩ | ⟨⟨v, got, rfl⟩, -⟩
  · rw [stopped] at fine
    cases fine
  · exact got

/-! ## When no division traps -/

theorem leaf_stands {e : IntEvaluation} {tree : OpTree}
    (ints : ∀ reference ∈ tree.refs, IsInt (e.leaf reference)) :
    ∀ reference ∈ tree.asExpr.leaves, e.leaf reference = (e.leafBits reference).toInt := by
  intro reference mem
  rw [leaves_asExpr] at mem
  exact (toInt_ofInt_of_isInt (ints reference mem)).symm

/-- Neither function ever evaluates a division that has no result exactly if, with the numbers that
the leaves are read as, the tree has no divisor that is 0, or -1 under the smallest integer. -/
theorem neverTraps_iff (e : IntEvaluation) {tree : OpTree}
    (ints : ∀ reference ∈ tree.refs, IsInt (e.leaf reference)) :
    e.NeverTraps tree ↔ tree.Divides e.leafBits := by
  rw [IntEvaluation.NeverTraps, IntEvaluation.watched, watchedInt_eq,
    Expr.isSome_evalGuarded_iff resultInt_stands _ (leaf_stands ints)]
  constructor
  · intro fine op left right mem isDiv
    have defined := fine (op, left, right) mem
    exact not_or.mp fun trap => defined ⟨isDiv, trap⟩
  · intro divides n mem undefined
    have fine := divides n.1 n.2.1 n.2.2 mem undefined.1
    exact not_or.mpr fine undefined.2

/-! ## Six by an attribute -/

def sixByA : OpTree :=
  .inner (.leaf (.static (.int 6)) .int) (.leaf (.rulePkt 0 .state (some ['a'])) .int) .div .int

def withA (attributes : List Attribute) : PubPktPtr := ⟨0, PubPkt.new 1 attributes 0⟩

def forParameter (attributes : List Attribute) : IntEvaluation :=
  .parameter (withA attributes) .empty 0 .state

def forTemplate (attributes : List Attribute) : IntEvaluation :=
  .template ⟨[], fun _ => 0, fun _ => [], fun _ => []⟩ (PartialEvent.empty.set 0 (withA attributes))

theorem sixByA_neverTraps : (forParameter [⟨['a'], .int 3⟩]).NeverTraps sixByA := by
  have ints : ∀ reference ∈ sixByA.refs,
      IsInt ((forParameter [⟨['a'], .int 3⟩]).leaf reference) := by
    unfold IsInt
    decide
  refine (neverTraps_iff _ ints).mpr fun op left right mem _ => ?_
  cases List.mem_singleton.mp mem
  decide

/-- An event without the attribute stops both functions. -/
theorem sixByA_traps :
    ¬ (forParameter []).NeverTraps sixByA ∧ ¬ (forTemplate []).NeverTraps sixByA := by
  unfold IntEvaluation.NeverTraps
  decide

end TRex
