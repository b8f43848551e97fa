import TRex.Marshaller
import TRex.Parameters

/-!
# What a complex parameter means

A complex parameter compares the values of two expressions of its type: integers over `ADD`, `SUB`
and `MUL`, Booleans over `AND` and `OR`, single strings. `OpTree.value` is that value, where the
leaves resolve to attributes or constants of the type. On integers and strings
`checkComplexParameter` is the comparison that the operator names. On Booleans it tests for `EQ`
whether both sides are true and for `NE` whether one of them is, and an attribute also counts as
true when the bytes behind it in its union are not zero (`checkComplexParameter_iff`).
-/

namespace TRex

/-! ## Values of expressions -/

/-- The value of an expression, if its leaves have one and its operators apply. -/
def OpTree.denote {α : Type} (leaf : OpValueReference → Option α)
    (operation : OpTreeOperation → Option (α → α → α)) : OpTree → Option α
  | .leaf reference _ => leaf reference
  | .inner left right op _ =>
    match operation op, left.denote leaf operation, right.denote leaf operation with
    | some f, some x, some y => some (f x y)
    | _, _, _ => none

theorem OpTree.denote_inner_eq_some {α : Type} {leaf : OpValueReference → Option α}
    {operation : OpTreeOperation → Option (α → α → α)} {left right : OpTree}
    {op : OpTreeOperation} {valType : ValType} {z : α}
    (value : (OpTree.inner left right op valType).denote leaf operation = some z) :
    ∃ f x y, operation op = some f ∧ left.denote leaf operation = some x ∧
      right.denote leaf operation = some y ∧ f x y = z := by
  rw [denote] at value
  split at value
  case h_1 f x y isF isX isY => exact ⟨f, x, y, isF, isX, isY, Option.some.inj value⟩
  case h_2 => cases value

/-- The value of a parameter's expression. -/
inductive Operand
  | int (v : Int)
  | bool (b : Bool)
  | string (s : CString)
  deriving DecidableEq

/-- The two values stand in the relation that the operator names. -/
def Op.Stands : Op → Operand → Operand → Prop
  | .eq, x, y => x = y
  | .ne, x, y => x ≠ y
  | .lt, .int v, .int w => v < w
  | .gt, .int v, .int w => v > w
  | .le, .int v, .int w => v ≤ w
  | .ge, .int v, .int w => v ≥ w
  | _, _, _ => False

/-- The operators of a type: all six comparisons for integers, `EQ` and `NE` for the others. -/
def Op.Compares : Op → ValType → Prop
  | .in_, _ => False
  | .eq, _ | .ne, _ => True
  | _, type => type = .int

section Values

variable (pkt : PubPktPtr) (pe : PartialEvent) (index : Int) (sType : StateType)

/-- The constant, or the attribute of the packet that the reference is to. -/
def OpValueReference.resolve (reference : OpValueReference) : Option Value :=
  match reference with
  | .static value => some value
  | .rulePkt _ _ name => attributeIn (reference.source pkt pe index sType) name

def intLeaf (reference : OpValueReference) : Option Int :=
  match reference.resolve pkt pe index sType with
  | some (.int v) => some v
  | _ => none

def boolLeaf (reference : OpValueReference) : Option Bool :=
  match reference.resolve pkt pe index sType with
  | some (.bool b _) => some b
  | _ => none

/-- A Boolean attribute as it is stored: the bytes behind it count. -/
def storedBoolLeaf (reference : OpValueReference) : Option Bool :=
  match reference with
  | .static (.bool b _) => some b
  | .static _ => none
  | .rulePkt _ _ name =>
    match attributeIn (reference.source pkt pe index sType) name with
    | some (.bool b pad) => some ((Value.bool b pad).intVal != 0)
    | _ => none

def stringLeaf (reference : OpValueReference) : Option CString :=
  match reference.resolve pkt pe index sType with
  | some (.string s) => if s.length < stringValLen then some s else none
  | _ => none

def intOperation : OpTreeOperation → Option (Int → Int → Int)
  | .add => some fun v w => wrap32 (v + w)
  | .sub => some fun v w => wrap32 (v - w)
  | .mul => some fun v w => wrap32 (v * w)
  | _ => none

def boolOperation : OpTreeOperation → Option (Bool → Bool → Bool)
  | .and => some (· && ·)
  | .or => some (· || ·)
  | _ => none

/-- The value of an expression of the given type. -/
def OpTree.value (type : ValType) (tree : OpTree) : Option Operand :=
  match type with
  | .int => (tree.denote (intLeaf pkt pe index sType) intOperation).map .int
  | .bool => (tree.denote (boolLeaf pkt pe index sType) boolOperation).map .bool
  | .string => (tree.denote (stringLeaf pkt pe index sType) fun _ => none).map .string
  | .float => none

/-- The Boolean expression is true of the attributes as they are stored. -/
def OpTree.ReadsTrue (tree : OpTree) : Prop :=
  tree.denote (storedBoolLeaf pkt pe index sType) boolOperation = some true

/-- Two Booleans on which the engine's tests are the comparisons: equal ones must both be read as
true, different ones not, for `EQ`; equal ones must both be read as false for `NE`. -/
def CPUParameter.ReadAsMeant (parameter : CPUParameter) (x y : Operand) : Prop :=
  let left := parameter.leftTree.ReadsTrue pkt pe index sType
  let right := parameter.rightTree.ReadsTrue pkt pe index sType
  match parameter.vtype, parameter.operation with
  | .bool, .eq => (x = y → left ∧ right) ∧ (x ≠ y → ¬ (left ∧ right))
  | .bool, _ => x = y → ¬ left ∧ ¬ right
  | _, _ => True

end Values

/-! ## The evaluators -/

section Evaluators

variable {pkt : PubPktPtr} {pe : PartialEvent} {index : Int} {sType : StateType} {tree : OpTree}

theorem computeIntValueForParameters_eq {v : Int}
    (value : tree.denote (intLeaf pkt pe index sType) intOperation = some v) :
    computeIntValueForParameters pkt pe index sType tree = v := by
  induction tree generalizing v with
  | leaf reference valType =>
      simp only [OpTree.denote, intLeaf] at value
      split at value
      case h_2 => cases value
      case h_1 w resolved =>
        cases value
        cases reference with
        | static value =>
            cases resolved
            rfl
        | rulePkt i type name =>
            simp only [OpValueReference.resolve] at resolved
            simp only [computeIntValueForParameters, resolved]
            rfl
  | inner left right op valType ihLeft ihRight =>
      obtain ⟨f, x, y, isF, isX, isY, rfl⟩ := OpTree.denote_inner_eq_some value
      simp only [computeIntValueForParameters, ihLeft isX, ihRight isY]
      cases op <;> cases isF <;> rfl

theorem computeBoolValueForParameters_eq {b : Bool}
    (value : tree.denote (storedBoolLeaf pkt pe index sType) boolOperation = some b) :
    computeBoolValueForParameters pkt pe index sType tree = b := by
  induction tree generalizing b with
  | leaf reference valType =>
      cases reference with
      | static constant =>
          cases constant <;> cases value
          rfl
      | rulePkt i type name =>
          simp only [OpTree.denote, storedBoolLeaf] at value
          split at value
          case h_1 resolved =>
            have stored := Option.some.inj value
            simp only [computeBoolValueForParameters, resolved]
            exact stored
          case h_2 => cases value
  | inner left right op valType ihLeft ihRight =>
      obtain ⟨f, x, y, isF, isX, isY, rfl⟩ := OpTree.denote_inner_eq_some value
      simp only [computeBoolValueForParameters, ihLeft isX, ihRight isY]
      cases op <;> cases isF <;> rfl

theorem computeStringValueForParameters_eq {s : CString}
    (value : tree.denote (stringLeaf pkt pe index sType) (fun _ => none) = some s) :
    computeStringValueForParameters pkt pe index sType tree = some s := by
  cases tree with
  | leaf reference valType =>
      simp only [OpTree.denote, stringLeaf] at value
      split at value
      case h_2 => cases value
      case h_1 w resolved =>
        split at value
        case isFalse => cases value
        cases value
        cases reference with
        | static value =>
            cases resolved
            rfl
        | rulePkt i type name =>
            simp only [OpValueReference.resolve] at resolved
            simp only [computeStringValueForParameters, resolved]
  | inner left right op valType => cases value

theorem even_of_wrap32_eq_zero {v : Int} (zero : wrap32 v = 0) : 2 ∣ v := by
  have divides : ((2 ^ 32 : Nat) : Int) ∣ v := Int.dvd_of_bmod_eq_zero zero
  rw [Nat.cast_pow] at divides
  exact (dvd_pow_self (2 : Int) (Nat.succ_ne_zero 31)).trans divides

/-- The first byte of a true Boolean is 1, whatever is behind it. -/
theorem intVal_true_ne_zero (pad : Nat) : (Value.bool true pad).intVal ≠ 0 := by
  intro zero
  have even := even_of_wrap32_eq_zero zero
  have bytes : (Value.bool true pad).raw.take 4 = 1 :: (littleEndian4 pad).take 3 := rfl
  rw [bytes, ofLittleEndian] at even
  omega

/-- A Boolean expression keeps its value as it is stored, or a false one turns true. -/
theorem denote_storedBoolLeaf {b : Bool}
    (value : tree.denote (boolLeaf pkt pe index sType) boolOperation = some b) :
    ∃ stored, tree.denote (storedBoolLeaf pkt pe index sType) boolOperation = some stored ∧
      (b = true → stored = true) := by
  induction tree generalizing b with
  | leaf reference valType =>
      cases reference with
      | static constant =>
          cases constant <;> cases value
          exact ⟨b, rfl, id⟩
      | rulePkt i type name =>
          simp only [OpTree.denote, boolLeaf, OpValueReference.resolve] at value
          simp only [OpTree.denote, storedBoolLeaf]
          split at value
          case h_2 => cases value
          case h_1 b' pad resolved =>
            cases value
            refine ⟨_, rfl, ?_⟩
            rintro rfl
            exact bne_iff_ne.mpr (intVal_true_ne_zero pad)
  | inner left right op valType ihLeft ihRight =>
      obtain ⟨f, x, y, isF, isX, isY, rfl⟩ := OpTree.denote_inner_eq_some value
      obtain ⟨x', isX', xTrue⟩ := ihLeft isX
      obtain ⟨y', isY', yTrue⟩ := ihRight isY
      refine ⟨f x' y', by simp only [OpTree.denote, isF, isX', isY'], ?_⟩
      cases op with
      | and =>
          cases isF
          simp only [Bool.and_eq_true]
          exact And.imp xTrue yTrue
      | or =>
          cases isF
          simp only [Bool.or_eq_true]
          exact Or.imp xTrue yTrue
      | _ => cases isF

/-! ## The comparison -/

variable {parameter : CPUParameter} {x y : Operand}

theorem checkComplexParameter_int_iff (isInt : parameter.vtype = .int)
    (left : parameter.leftTree.value pkt pe index sType .int = some x)
    (right : parameter.rightTree.value pkt pe index sType .int = some y)
    (compares : parameter.operation.Compares .int) :
    checkComplexParameter pkt pe index sType parameter = true ↔ parameter.operation.Stands x y := by
  obtain ⟨v, isV, rfl⟩ := Option.map_eq_some_iff.mp left
  obtain ⟨w, isW, rfl⟩ := Option.map_eq_some_iff.mp right
  simp only [checkComplexParameter, isInt, computeIntValueForParameters_eq isV,
    computeIntValueForParameters_eq isW]
  cases operation : parameter.operation with
  | in_ => exact absurd compares (by rw [operation]; exact id)
  | _ => simp [Op.Stands]

theorem checkComplexParameter_string_iff (isString : parameter.vtype = .string)
    (left : parameter.leftTree.value pkt pe index sType .string = some x)
    (right : parameter.rightTree.value pkt pe index sType .string = some y)
    (compares : parameter.operation.Compares .string) :
    checkComplexParameter pkt pe index sType parameter = true ↔ parameter.operation.Stands x y := by
  obtain ⟨s, isS, rfl⟩ := Option.map_eq_some_iff.mp left
  obtain ⟨t, isT, rfl⟩ := Option.map_eq_some_iff.mp right
  simp only [checkComplexParameter, isString, computeStringValueForParameters_eq isS,
    computeStringValueForParameters_eq isT]
  cases operation : parameter.operation with
  | eq => simp [Op.Stands]
  | ne => simp [Op.Stands]
  | _ =>
      rw [operation] at compares
      cases compares

/-- On Booleans the engine tests whether both sides are true, for `EQ`, or one of them, for `NE`. -/
theorem checkComplexParameter_bool_iff (isBool : parameter.vtype = .bool)
    (left : parameter.leftTree.value pkt pe index sType .bool = some x)
    (right : parameter.rightTree.value pkt pe index sType .bool = some y)
    (compares : parameter.operation.Compares .bool) :
    (checkComplexParameter pkt pe index sType parameter = true ↔
      parameter.operation.Stands x y) ↔ parameter.ReadAsMeant pkt pe index sType x y := by
  obtain ⟨b, isB, rfl⟩ := Option.map_eq_some_iff.mp left
  obtain ⟨c, isC, rfl⟩ := Option.map_eq_some_iff.mp right
  obtain ⟨b', storedB, bTrue⟩ := denote_storedBoolLeaf isB
  obtain ⟨c', storedC, cTrue⟩ := denote_storedBoolLeaf isC
  simp only [checkComplexParameter, isBool, computeBoolValueForParameters_eq storedB,
    computeBoolValueForParameters_eq storedC, CPUParameter.ReadAsMeant, OpTree.ReadsTrue, storedB,
    storedC, Option.some.injEq]
  cases operation : parameter.operation with
  | eq =>
      simp only [Op.Stands, Operand.bool.injEq]
      cases b <;> cases c <;> cases b' <;> cases c' <;> simp_all
  | ne =>
      simp only [Op.Stands, ne_eq, Operand.bool.injEq]
      cases b <;> cases c <;> cases b' <;> cases c' <;> simp_all
  | _ =>
      rw [operation] at compares
      cases compares

end Evaluators

/-- For every parameter of integers, Booleans or strings whose two expressions have a value, the
check is the comparison that the operator names, exactly if Booleans are read as meant. -/
theorem checkComplexParameter_iff (pkt : PubPktPtr) (pe : PartialEvent) (index : Int)
    (sType : StateType) (parameter : CPUParameter) (x y : Operand)
    (left : parameter.leftTree.value pkt pe index sType parameter.vtype = some x)
    (right : parameter.rightTree.value pkt pe index sType parameter.vtype = some y)
    (compares : parameter.operation.Compares parameter.vtype) :
    (checkComplexParameter pkt pe index sType parameter = true ↔
      parameter.operation.Stands x y) ↔ parameter.ReadAsMeant pkt pe index sType x y := by
  cases type : parameter.vtype with
  | int =>
      rw [type] at left right compares
      simp only [checkComplexParameter_int_iff type left right compares, CPUParameter.ReadAsMeant,
        type]
  | bool =>
      rw [type] at left right compares
      exact checkComplexParameter_bool_iff type left right compares
  | string =>
      rw [type] at left right compares
      simp only [checkComplexParameter_string_iff type left right compares,
        CPUParameter.ReadAsMeant, type]
  | float =>
      rw [type] at left
      cases left

/-- Two false Booleans, compared for equality. -/
def falseEqualsFalse : CPUParameter :=
  { operation := .eq, type := .state, vtype := .bool, lastIndex := 0
    leftTree := .leaf (.static (.bool false 0)) .bool
    rightTree := .leaf (.rulePkt 0 .state (some ['b'])) .bool }

/-- A packet with one Boolean attribute that is false. -/
def switchedOff : PubPktPtr := ⟨1, PubPkt.new 1 [⟨['b'], .bool false 0⟩] 10⟩

theorem falseEqualsFalse_checked :
    (checkComplexParameter switchedOff .empty 0 .state falseEqualsFalse = true ↔
      Op.Stands .eq (.bool false) (.bool false)) ↔
        falseEqualsFalse.ReadAsMeant switchedOff .empty 0 .state (.bool false) (.bool false) :=
  checkComplexParameter_iff _ _ _ _ _ _ _ rfl rfl trivial

/-- The comparison of two false Booleans fails. -/
theorem boolEquality_not_comparison :
    ¬ ∀ (pkt : PubPktPtr) (pe : PartialEvent) (index : Int) (sType : StateType)
      (parameter : CPUParameter) (x y : Operand),
      parameter.leftTree.value pkt pe index sType parameter.vtype = some x →
        parameter.rightTree.value pkt pe index sType parameter.vtype = some y →
          parameter.operation.Compares parameter.vtype →
            (checkComplexParameter pkt pe index sType parameter = true ↔
              parameter.operation.Stands x y) := by
  intro all
  have holds := all switchedOff .empty 0 .state falseEqualsFalse (.bool false) (.bool false) rfl rfl
    trivial
  exact absurd (holds.mpr rfl) (by decide)

end TRex
