import TRex.Lib.Stateful
import TRex.RuleParser

/-!
# What becomes of expressions

The rule parser builds an operation tree by walking an expression with the tree made so far in its
hand. The operands to the right find a tree there that is not theirs: `keeps_iff` says for which
expressions the tree has the value of the expression whatever integers its leaves stand for.

The integers are written into the leaves themselves, and the tree keeps for each of its leaves the
leaf that it was made for.
-/

namespace TRex.Tesla

open Stateful

/-! ## Values -/

/-- Division truncates and has no value for 0; the logical operators give 0 for integers, as in the
engine. -/
def apply : OpTreeOperation → Int → Int → Option Int
  | .add, v, w => some (v + w)
  | .sub, v, w => some (v - w)
  | .mul, v, w => some (v * w)
  | .div, v, w => if w = 0 then none else some (v.tdiv w)
  | .and, _, _ => some 0
  | .or, _, _ => some 0

/-- The value of two operands that may have none. -/
def applyOpt (op : OpTreeOperation) (v w : Option Int) : Option Int :=
  v.bind fun v => w.bind (apply op v)

def Binop.isMul : Binop → Bool
  | .times => true
  | .divide => true
  | .plus => false
  | .minus => false

namespace ExprContext

variable {α β : Type}

def map (f : α → β) : ExprContext α → ExprContext β
  | .atom leaf => .atom (f leaf)
  | .paren expr => .paren (map f expr)
  | .binop left op right => .binop (map f left) op (map f right)

/-- From left to right. -/
def leaves : ExprContext α → List α
  | .atom leaf => [leaf]
  | .paren expr => leaves expr
  | .binop left _ right => leaves left ++ leaves right

/-- The value of an expression whose leaves are integers. -/
def eval : ExprContext Int → Option Int
  | .atom v => some v
  | .paren expr => eval expr
  | .binop left op right => applyOpt (getBinOp op) (eval left) (eval right)

/-- `'(' expr ')'` or a leaf. -/
def IsPrimary : ExprContext α → Prop
  | .binop _ _ _ => False
  | _ => True

/-- No sum. -/
def IsProduct : ExprContext α → Prop
  | .binop _ op _ => op.isMul
  | _ => True

/-- The trees that ANTLR makes: `BINOP_MUL` comes first in the grammar, and the operators of both
kinds associate to the left. -/
def Parsed : ExprContext α → Prop
  | .atom _ => True
  | .paren expr => Parsed expr
  | .binop left op right => Parsed left ∧ Parsed right ∧
      if op.isMul then IsProduct left ∧ IsPrimary right else IsProduct right

end ExprContext

namespace OpTree

variable {α : Type}

def eval (value : α → Int) : OpTree α → Option Int
  | .leaf source _ _ => some (value source)
  | .inner left right (some op) _ => applyOpt op (eval value left) (eval value right)
  | .inner _ _ none _ => none

/-- Every inner node has an operator and two subtrees. -/
def Whole : OpTree α → Prop
  | .leaf _ _ _ => True
  | .inner left right op _ => op.isSome ∧ Whole left ∧ Whole right

end OpTree

/-- What the tree of an expression is to be, when each leaf carries an integer. -/
structure Means (valType : Option ValType) (expr : ExprContext (Int × Atom))
    (tree : OpTree (Int × Atom)) : Prop where
  whole : tree.Whole
  value : tree.eval Prod.fst = (expr.map Prod.fst).eval
  type : tree.getValType = valType

/-- Whatever integers the leaves stand for, a tree is built, and it means the expression. -/
def Keeps (s : Parser) (valType : Option ValType) (expr : Expr) : Prop :=
  ∀ valued : ExprContext (Int × Atom), valued.map Prod.snd = expr →
    ∃ tree s', buildOpTree valType Prod.snd valued s = some (tree, s') ∧ Means valType valued tree

/-! ## The condition -/

/-- The operands to the right of operators are leaves, outside of parentheses that begin the
expression or its first operand. -/
def ExprContext.LeftNested {α : Type} : ExprContext α → Prop
  | .atom _ => True
  | .paren expr => LeftNested expr
  | .binop left _ right => LeftNested left ∧ ∃ leaf, right = .atom leaf

/-- The two atoms ask for the same function of the same attribute of the same event type. -/
structure SameAggregate (names : Names) (ctx ctx' : Aggregate) : Prop where
  fun_ : getAggregateFun ctx.aggr_fun = getAggregateFun ctx'.aggr_fun
  eventType : names.predicates_map ctx.evt_name = names.predicates_map ctx'.evt_name
  attr_name : ctx.attr_name = ctx'.attr_name

/-- The aggregate has the function, the event type and the attribute of an atom. -/
structure TAggregate.IsFor (agg : TAggregate) (names : Names) (ctx : Aggregate) : Prop where
  fun_ : agg.fun_ = getAggregateFun ctx.aggr_fun
  eventType : names.predicates_map ctx.evt_name = some agg.eventType
  name : agg.name = ctx.attr_name

def Window.Fits : Window → Prop
  | .within int_val _ => int_val < 2 ^ 31
  | .between _ _ => True

/-- A leaf can be read behind others: a literal is a value of its type, a parameter and the event of
an aggregate are known, and the time of an aggregate that is new is an `int`. -/
def Atom.Readable (s : Parser) (earlier : List Atom) : Atom → Prop
  | .static ref => ref.value.isSome
  | .param param_name => (s.parameters_map param_name).isSome
  | .packet _ _ => True
  | .aggregate ctx => (s.names.predicates_map ctx.evt_name).isSome ∧
      (ctx.window.Fits ∨ (∃ agg ∈ s.rule_aggregates, agg.IsFor s.names ctx) ∨
        ∃ ctx', .aggregate ctx' ∈ earlier ∧ SameAggregate s.names ctx' ctx)

/-- All leaves can be read, one after the other. -/
def Readable (s : Parser) : List Atom → List Atom → Prop
  | _, [] => True
  | earlier, leaf :: rest => leaf.Readable s earlier ∧ Readable s (earlier ++ [leaf]) rest

/-- The declared type is the one that the root gets: that of a literal, or `INT` for an operator. -/
def ExprContext.Typed (valType : Option ValType) : Expr → Prop
  | .atom (.static ref) => ref.value.map Value.type = valType
  | .atom _ => True
  | .paren expr => Typed valType expr
  | .binop _ _ _ => valType = some .int

/-! ## Leaves and shape -/

section Shape

variable {α β γ : Type}

namespace ExprContext

def traverse (f : α → Listener β) : ExprContext α → Listener (ExprContext β)
  | .atom leaf => do return .atom (← f leaf)
  | .paren expr => do return .paren (← traverse f expr)
  | .binop left op right => do
    let left ← traverse f left
    return .binop left op (← traverse f right)

end ExprContext

/-- A leaf of an expression with the reference and the type of its leaf in the tree. -/
abbrev Leaf (α : Type) := α × Java.OpValueReference × Option ValType

def readLeaf (valType : Option ValType) (atomOf : α → Atom) (leaf : α) : Listener (Leaf α) := do
  return (leaf, ← reference valType (atomOf leaf))

def join (tree : Option (OpTree α)) (op : Option OpTreeOperation) (ex : OpTree α) : OpTree α :=
  match tree with
  | some tree => .inner tree ex op (some .int)
  | none => ex

/-- The tree that is built from leaves that have been read. -/
def ExprContext.assemble : ExprContext (Leaf α) → Option (OpTree α) → OpTree α
  | .atom leaf, _ => .leaf leaf.1 leaf.2.1 leaf.2.2
  | .paren ex, tree => join tree none (assemble ex tree)
  | .binop left op right, tree =>
    let tree := join tree (some (getBinOp op)) (assemble left tree)
    .inner tree (assemble right (some tree)) (some (getBinOp op)) (some .int)

theorem joinTree_map (tree : Option (OpTree α)) (op : Option OpTreeOperation) (m : Listener β)
    (f : β → OpTree α) :
    joinTree tree op (do return f (← m)) = do return join tree op (f (← m)) := by
  cases tree <;> simp [joinTree, join]

/-- The leaves are read from left to right, and the tree is assembled from them. -/
theorem recursivelyNavigateExpression_eq (valType : Option ValType) (atomOf : α → Atom)
    (expr : ExprContext α) (tree : Option (OpTree α)) :
    recursivelyNavigateExpression valType atomOf expr tree =
      do return (← expr.traverse (readLeaf valType atomOf)).assemble tree := by
  induction expr generalizing tree with
  | atom leaf =>
      simp [recursivelyNavigateExpression, ExprContext.traverse, readLeaf, ExprContext.assemble]
  | paren ex ih =>
      rw [recursivelyNavigateExpression, ih, joinTree_map]
      simp [ExprContext.traverse, ExprContext.assemble]
  | binop left op right ihLeft ihRight =>
      simp only [recursivelyNavigateExpression, ihLeft, ihRight, joinTree_map]
      simp [ExprContext.traverse, ExprContext.assemble, join]

/-! ## Trees that are whole -/

namespace ExprContext

/-- No parentheses. -/
def Bare : ExprContext α → Prop
  | .atom _ => True
  | .paren _ => False
  | .binop left _ right => Bare left ∧ Bare right

/-- Parentheses only where no tree has been made. -/
def WholeBuilt : ExprContext α → Prop
  | .atom _ => True
  | .paren expr => WholeBuilt expr
  | .binop left _ right => WholeBuilt left ∧ Bare right

theorem whole_assemble_some (expr : ExprContext (Leaf α)) (tree : OpTree α) :
    (expr.assemble (some tree)).Whole → expr.Bare := by
  induction expr generalizing tree with
  | atom leaf => exact fun _ => trivial
  | paren ex ih => exact fun whole => absurd whole.1 (by decide)
  | binop left op right ihLeft ihRight =>
      rintro ⟨-, ⟨-, -, left⟩, right⟩
      exact ⟨ihLeft _ left, ihRight _ right⟩

theorem whole_of_bare {expr : ExprContext (Leaf α)} (bare : expr.Bare) {tree : OpTree α}
    (whole : tree.Whole) : (expr.assemble (some tree)).Whole := by
  induction expr generalizing tree with
  | atom leaf => trivial
  | paren ex ih => exact bare.elim
  | binop left op right ihLeft ihRight =>
      have first : (join (some tree) (some (getBinOp op)) (left.assemble (some tree))).Whole :=
        ⟨rfl, whole, ihLeft bare.1 whole⟩
      exact ⟨rfl, first, ihRight bare.2 first⟩

theorem whole_assemble (expr : ExprContext (Leaf α)) :
    (expr.assemble none).Whole ↔ expr.WholeBuilt := by
  induction expr with
  | atom leaf => exact Iff.rfl
  | paren ex ih => exact ih
  | binop left op right ihLeft ihRight =>
      constructor
      · rintro ⟨-, left, right⟩
        exact ⟨ihLeft.mp left, whole_assemble_some _ _ right⟩
      · rintro ⟨left, right⟩
        exact ⟨rfl, ihLeft.mpr left, whole_of_bare right (ihLeft.mpr left)⟩

/-! ## The value of the tree -/

/-- The value of what joins a tree whose value is given. -/
def joinValue (tree : Option (Option Int)) (op : OpTreeOperation) (ex : Option Int) : Option Int :=
  match tree with
  | some value => applyOpt op value ex
  | none => ex

/-- The value of the tree that is built behind a tree whose value is given. -/
def builtValue : ExprContext Int → Option (Option Int) → Option Int
  | .atom v, _ => some v
  | .paren _, some _ => none
  | .paren ex, none => builtValue ex none
  | .binop left op right, tree =>
    let value := joinValue tree (getBinOp op) (builtValue left tree)
    applyOpt (getBinOp op) value (builtValue right (some value))

theorem eval_join (value : α → Int) (tree : Option (OpTree α)) (op : OpTreeOperation)
    (ex : OpTree α) : (join tree (some op) ex).eval value =
      joinValue (tree.map (OpTree.eval value)) op (ex.eval value) := by
  cases tree <;> rfl

theorem eval_assemble (value : α → Int) (expr : ExprContext (Leaf α)) (tree : Option (OpTree α)) :
    (expr.assemble tree).eval value =
      (expr.map fun leaf => value leaf.1).builtValue (tree.map (OpTree.eval value)) := by
  induction expr generalizing tree with
  | atom leaf => rfl
  | paren ex ih =>
      cases tree with
      | some tree => rfl
      | none => exact ih none
  | binop left op right ihLeft ihRight =>
      show applyOpt (getBinOp op) ((join tree (some (getBinOp op)) (left.assemble tree)).eval value)
        _ = _
      rw [ihRight, Option.map_some, eval_join, ihLeft]
      rfl

theorem builtValue_of_leftNested {expr : ExprContext Int} (nested : expr.LeftNested) :
    expr.builtValue none = expr.eval := by
  induction expr with
  | atom v => rfl
  | paren ex ih => exact ih nested
  | binop left op right ihLeft ihRight =>
      obtain ⟨nested, v, rfl⟩ := nested
      rw [builtValue, joinValue, ihLeft nested]
      rfl

theorem wholeBuilt_of_leftNested {expr : ExprContext α} (nested : expr.LeftNested) :
    expr.WholeBuilt := by
  induction expr with
  | atom leaf => trivial
  | paren ex ih => exact ih nested
  | binop left op right ihLeft ihRight =>
      obtain ⟨nested, leaf, rfl⟩ := nested
      exact ⟨ihLeft nested, trivial⟩

/-! ## Values that tell trees apart -/

/-- The expression without its leaves. -/
def shape (expr : ExprContext α) : ExprContext Unit := expr.map fun _ => ()

/-- The number that an operator leaves alone. -/
def neutral (op : Binop) : Int := if op.isMul then 1 else 0

theorem applyOpt_neutral (op : Binop) (v : Option Int) :
    applyOpt (getBinOp op) v (some (neutral op)) = v := by
  cases v with
  | none => rfl
  | some v => cases op <;> simp [applyOpt, apply, getBinOp, neutral, Binop.isMul]

/-- Leaves can be chosen so that an expression has a given value. -/
theorem exists_eval (expr : ExprContext α) (v : Int) :
    ∃ valued : ExprContext Int, valued.shape = expr.shape ∧ valued.eval = some v := by
  induction expr generalizing v with
  | atom leaf => exact ⟨.atom v, rfl, rfl⟩
  | paren ex ih =>
      obtain ⟨valued, same, value⟩ := ih v
      exact ⟨.paren valued, congrArg paren same, value⟩
  | binop left op right ihLeft ihRight =>
      obtain ⟨first, sameLeft, valueLeft⟩ := ihLeft v
      obtain ⟨second, sameRight, valueRight⟩ := ihRight (neutral op)
      refine ⟨.binop first op second, ?_, ?_⟩
      · exact congr (congrArg (binop · op) sameLeft) sameRight
      · rw [eval, valueRight, applyOpt_neutral, valueLeft]

/-- The first leaf is given and the others are 1. -/
def leading (v : Int) : ExprContext α → ExprContext Int
  | .atom _ => .atom v
  | .paren ex => .paren (leading v ex)
  | .binop left op right => .binop (leading v left) op (right.map fun _ => 1)

theorem shape_leading (v : Int) (expr : ExprContext α) : (expr.leading v).shape = expr.shape := by
  induction expr with
  | atom leaf => rfl
  | paren ex ih => exact congrArg paren ih
  | binop left op right ihLeft ihRight =>
      have second : (right.map fun _ => (1 : Int)).shape = right.shape := by
        clear ihLeft ihRight
        induction right with
        | atom leaf => rfl
        | paren ex ih => exact congrArg paren ih
        | binop first op second ihFirst ihSecond =>
            exact congr (congrArg (binop · op) ihFirst) ihSecond
      exact congr (congrArg (binop · op) ihLeft) second

/-- Products and quotients of leaves. -/
inductive IsChain : ExprContext α → Prop
  | atom (leaf : α) : IsChain (.atom leaf)
  | binop {left : ExprContext α} {op : Binop} (mul : op.isMul) (leaf : α) (chain : IsChain left) :
      IsChain (.binop left op (.atom leaf))

theorem isChain_of_bare {expr : ExprContext α} (parsed : expr.Parsed) (product : expr.IsProduct)
    (bare : expr.Bare) : expr.IsChain := by
  induction expr with
  | atom leaf => exact .atom leaf
  | paren ex ih => exact bare.elim
  | binop left op right ihLeft ihRight =>
      obtain ⟨parsedLeft, -, levels⟩ := parsed
      have mul : op.isMul := product
      rw [if_pos mul] at levels
      have chain := ihLeft parsedLeft levels.1 bare.1
      cases right with
      | atom leaf => exact .binop mul leaf chain
      | paren ex => exact bare.2.elim
      | binop first op' second => exact levels.2.elim

theorem eval_leading {expr : ExprContext α} (chain : expr.IsChain) (v : Int) :
    (expr.leading v).eval = some v := by
  induction chain with
  | atom leaf => rfl
  | @binop left op mul leaf chain ih =>
      have one : neutral op = 1 := if_pos mul
      show applyOpt (getBinOp op) (left.leading v).eval (some 1) = some v
      rw [← one, applyOpt_neutral, ih]

/-- Behind a tree, the tree of a chain joins that tree once more at each operator. -/
theorem builtValue_leading_binop {left : ExprContext α} {op : Binop} (mul : op.isMul) (leaf : α)
    (v : Int) (tree : Option Int) :
    (leading v (.binop left op (.atom leaf))).builtValue (some tree) =
      applyOpt (getBinOp op) tree ((left.leading v).builtValue (some tree)) := by
  have one : neutral op = 1 := if_pos mul
  show applyOpt (getBinOp op) (joinValue (some tree) (getBinOp op) _) (some 1) = _
  rw [← one, applyOpt_neutral]
  rfl

/-- Led by 0, the tree of a chain is 0 if it has a value. -/
theorem builtValue_leading_zero {expr : ExprContext α} (chain : expr.IsChain) (v : Int) :
    (expr.leading 0).builtValue (some (some v)) = none ∨
      (expr.leading 0).builtValue (some (some v)) = some 0 := by
  induction chain with
  | atom leaf => exact .inr rfl
  | @binop left op mul leaf chain ih =>
      rw [builtValue_leading_binop mul]
      rcases ih with undefined | zero
      · rw [undefined]
        exact .inl rfl
      · rw [zero]
        cases op with
        | times => exact .inr (congrArg some (Int.mul_zero v))
        | divide => exact .inl rfl
        | plus => cases mul
        | minus => cases mul

/-- If it has a value then there are products only, so that led by 1 it is a power of the tree. -/
theorem builtValue_leading_one {expr : ExprContext α} (chain : expr.IsChain) (v : Int)
    (zero : (expr.leading 0).builtValue (some (some v)) = some 0) :
    ∃ k, (expr.leading 1).builtValue (some (some v)) = some (v ^ k) ∧
      ((∃ leaf, expr = .atom leaf) ∨ 0 < k) := by
  induction chain with
  | atom leaf => exact ⟨0, congrArg some (Int.pow_zero v).symm, .inl ⟨leaf, rfl⟩⟩
  | @binop left op mul leaf chain ih =>
      rw [builtValue_leading_binop mul] at zero ⊢
      rcases builtValue_leading_zero chain v with undefined | isZero
      · rw [undefined] at zero
        cases zero
      · obtain ⟨k, power, -⟩ := ih isZero
        rw [isZero] at zero
        rw [power]
        cases op with
        | times => exact ⟨k + 1, congrArg some (Int.pow_succ' v k).symm, .inr k.succ_pos⟩
        | divide => cases zero
        | plus => cases mul
        | minus => cases mul

theorem apply_sum {op : Binop} (sum : ¬ op.isMul) :
    ∃ sign : Int, sign ≠ 0 ∧ ∀ v w, apply (getBinOp op) v w = some (v + sign * w) := by
  cases op with
  | times => exact absurd rfl sum
  | divide => exact absurd rfl sum
  | plus => exact ⟨1, by decide, fun v w => congrArg (fun w => some (v + w)) (Int.one_mul w).symm⟩
  | minus =>
      refine ⟨-1, by decide, fun v w => congrArg some ?_⟩
      omega

/-- The right operand of a sum is a leaf if the tree has the value of the sum, whatever its
leaves. -/
theorem right_of_sum {left right : ExprContext α} {op : Binop} (sum : ¬ op.isMul)
    (chain : right.IsChain)
    (same : ∀ valued : ExprContext Int, valued.shape = (binop left op right).shape →
      valued.builtValue none = valued.eval) : ∃ leaf, right = .atom leaf := by
  obtain ⟨first, sameLeft, two⟩ := exists_eval left 2
  obtain ⟨sign, nonzero, isSum⟩ := apply_sum sum
  have values : ∀ w, applyOpt (getBinOp op) (first.builtValue none)
      ((right.leading w).builtValue (some (first.builtValue none))) = some (2 + sign * w) := by
    intro w
    have shapes : (binop first op (right.leading w)).shape = (binop left op right).shape :=
      congr (congrArg (binop · op) sameLeft) (shape_leading w right)
    have value := same _ shapes
    rw [eval, two, eval_leading chain] at value
    exact value.trans (isSum 2 w)
  have atZero := values 0
  have atOne := values 1
  cases built : first.builtValue none with
  | none =>
      rw [built] at atZero
      cases atZero
  | some v =>
      rw [built] at atZero atOne
      rcases builtValue_leading_zero chain v with undefined | zero
      · rw [undefined] at atZero
        cases atZero
      · obtain ⟨k, power, isLeaf⟩ := builtValue_leading_one chain v zero
        rw [zero] at atZero
        rw [power] at atOne
        have isTwo : v + sign * 0 = 2 + sign * 0 :=
          Option.some.inj ((isSum v 0).symm.trans atZero)
        have isOne : v + sign * v ^ k = 2 + sign * 1 :=
          Option.some.inj ((isSum v (v ^ k)).symm.trans atOne)
        rw [add_right_cancel isTwo] at isOne
        have power : (2 : Int) ^ k = 1 := mul_left_cancel₀ nonzero (add_left_cancel isOne)
        rcases isLeaf with leaf | positive
        · exact leaf
        · have even : (2 : Int) ∣ 2 ^ k := dvd_pow_self 2 (by omega)
          rw [power] at even
          exact absurd even (by decide)

theorem leftNested_of_values {expr : ExprContext α} (parsed : expr.Parsed)
    (whole : expr.WholeBuilt)
    (same : ∀ valued : ExprContext Int, valued.shape = expr.shape →
      valued.builtValue none = valued.eval) : expr.LeftNested := by
  induction expr with
  | atom leaf => trivial
  | paren ex ih =>
      exact ih parsed whole fun valued shapes => same (.paren valued) (congrArg paren shapes)
  | binop left op right ihLeft ihRight =>
      obtain ⟨parsedLeft, parsedRight, levels⟩ := parsed
      have isLeaf : ∃ leaf, right = .atom leaf := by
        by_cases mul : op.isMul
        · rw [if_pos mul] at levels
          cases right with
          | atom leaf => exact ⟨leaf, rfl⟩
          | paren ex => exact whole.2.elim
          | binop first op' second => exact levels.2.elim
        · rw [if_neg mul] at levels
          exact right_of_sum mul (isChain_of_bare parsedRight levels whole.2) same
      refine ⟨ihLeft parsedLeft whole.1 fun valued shapes => ?_, isLeaf⟩
      -- A right operand that the operator ignores shows the left one.
      obtain ⟨leaf, rfl⟩ := isLeaf
      have value := same (.binop valued op (.atom (neutral op)))
        (congrArg (fun first => binop first op (.atom ())) shapes)
      rw [builtValue, eval] at value
      exact ((applyOpt_neutral op _).symm.trans value).trans (applyOpt_neutral op _)

end ExprContext

end Shape

/-! ## Reading leaves -/

/-- With the event type known, the first aggregate for the atom is found. -/
theorem getAggregate_eq {names : Names} {ctx : Aggregate} {eventType : Int}
    (known : names.predicates_map ctx.evt_name = some eventType) (aggregates : List TAggregate) :
    getAggregate names.predicates_map ctx.evt_name ctx.attr_name (getAggregateFun ctx.aggr_fun)
        aggregates =
      some (aggregates.findIdx? fun agg => agg.name = ctx.attr_name ∧ agg.eventType = eventType ∧
        agg.fun_ = getAggregateFun ctx.aggr_fun) := by
  induction aggregates with
  | nil => rfl
  | cons agg rest ih =>
      rw [getAggregate, ih, known, List.findIdx?_cons]
      by_cases isName : agg.name = ctx.attr_name
      · by_cases isRest : agg.eventType = eventType ∧ agg.fun_ = getAggregateFun ctx.aggr_fun
        · simp [isName, isRest]
        · simp [isName, isRest]
      · simp [isName]

theorem getAggregate_unknown {names : Names} {ctx : Aggregate}
    (unknown : names.predicates_map ctx.evt_name = none) (aggregates : List TAggregate) (i : Nat) :
    getAggregate names.predicates_map ctx.evt_name ctx.attr_name (getAggregateFun ctx.aggr_fun)
      aggregates ≠ some (some i) := by
  induction aggregates generalizing i with
  | nil => exact fun found => by cases found
  | cons agg rest ih =>
      intro found
      rw [getAggregate, unknown] at found
      by_cases isName : agg.name = ctx.attr_name
      · simp [isName] at found
      · cases later : getAggregate names.predicates_map ctx.evt_name ctx.attr_name
            (getAggregateFun ctx.aggr_fun) rest with
        | none => simp [isName, later] at found
        | some aggr =>
            cases aggr with
            | none => simp [isName, later] at found
            | some j => exact ih j later

theorem isSome_findIdx?_iff {names : Names} {ctx : Aggregate} {eventType : Int}
    (known : names.predicates_map ctx.evt_name = some eventType) (aggregates : List TAggregate) :
    (aggregates.findIdx? fun agg => agg.name = ctx.attr_name ∧ agg.eventType = eventType ∧
        agg.fun_ = getAggregateFun ctx.aggr_fun).isSome ↔
      ∃ agg ∈ aggregates, agg.IsFor names ctx := by
  rw [List.findIdx?_isSome, List.any_eq_true]
  constructor
  · rintro ⟨agg, mem, isFor⟩
    obtain ⟨name, type, fun_⟩ := of_decide_eq_true isFor
    exact ⟨agg, mem, fun_, known.trans (congrArg some type.symm), name⟩
  · rintro ⟨agg, mem, fun_, type, name⟩
    refine ⟨agg, mem, decide_eq_true ⟨name, ?_, fun_⟩⟩
    exact (Option.some.inj (known.symm.trans type)).symm

theorem Window.bounds_isSome (window : Window) (names : List CString) :
    (window.bounds parseInt names).isSome ↔ window.Fits := by
  cases window with
  | within int_val evt_name =>
      by_cases fits : int_val < 2 ^ 31
      · have parsed : parseInt int_val = some (int_val : Int) := if_pos fits
        rw [bounds, parsed]
        exact iff_of_true rfl fits
      · have unparsed : parseInt int_val = none := if_neg fits
        rw [bounds, unparsed]
        exact iff_of_false (fun isSome => by cases isSome) fits
  | between lower upper => exact iff_of_true rfl trivial

/-- The aggregate that is made for an atom. -/
theorem newAggregate_eq_some {names : Names} {ctx : Aggregate} {agg : TAggregate}
    (made : newAggregate names ctx = some agg) : agg.IsFor names ctx ∧ agg.constraints = [] ∧
      ctx.window.bounds parseInt names.rule_predicates_names =
        some (agg.lowerId, agg.lowerTime, agg.upperId) := by
  simp only [newAggregate, Option.bind_eq_bind, Option.bind_eq_some_iff] at made
  obtain ⟨eventType, known, bounds, isBounds, made⟩ := made
  cases made
  exact ⟨⟨rfl, known, rfl⟩, rfl, isBounds⟩

theorem newAggregate_isSome (names : Names) (ctx : Aggregate) : (newAggregate names ctx).isSome ↔
    (names.predicates_map ctx.evt_name).isSome ∧ ctx.window.Fits := by
  rw [← ctx.window.bounds_isSome names.rule_predicates_names, newAggregate]
  cases names.predicates_map ctx.evt_name with
  | none => simp
  | some eventType =>
      cases ctx.window.bounds parseInt names.rule_predicates_names with
      | none => simp
      | some bounds => simp

/-- The state behind a reference, with the aggregates of the rule. -/
def Parser.refer (s : Parser) (ctx : Aggregate) (aggregates : List TAggregate) :
    Java.OpValueReference × Parser :=
  (.rulePkt (aggregates.length - 1) .agg [],
    { s with
      rule_aggregates := aggregates
      compiled := s.compiled ++ [Compiled.mk s.names ctx (aggregates.length - 1)] })

theorem referToAggregate_eq (s : Parser) (ctx : Aggregate) : referToAggregate ctx s =
    (getAggregate s.names.predicates_map ctx.evt_name ctx.attr_name
      (getAggregateFun ctx.aggr_fun) s.rule_aggregates).bind fun aggr =>
        (match aggr with
          | some _ => some s.rule_aggregates
          | none => (newAggregate s.names ctx).map fun agg => s.rule_aggregates ++ [agg]).map
            (s.refer ctx) := by
  unfold referToAggregate
  rw [get_bind, lift_bind]
  cases getAggregate s.names.predicates_map ctx.evt_name ctx.attr_name
      (getAggregateFun ctx.aggr_fun) s.rule_aggregates with
  | none => rfl
  | some aggr =>
      cases aggr with
      | some i => rfl
      | none =>
          cases newAggregate s.names ctx with
          | none => rfl
          | some agg => rfl

/-- The aggregates that an atom leaves behind. -/
inductive Refers (s : Parser) (ctx : Aggregate) : List TAggregate → Prop
  | found {agg : TAggregate} (mem : agg ∈ s.rule_aggregates) (isFor : agg.IsFor s.names ctx) :
      Refers s ctx s.rule_aggregates
  | made {agg : TAggregate} (new : ∀ agg ∈ s.rule_aggregates, ¬ agg.IsFor s.names ctx)
      (made : newAggregate s.names ctx = some agg) : Refers s ctx (s.rule_aggregates ++ [agg])

theorem referToAggregate_eq_some {s : Parser} {ctx : Aggregate}
    {x : Java.OpValueReference × Parser} : referToAggregate ctx s = some x ↔
      ∃ aggregates, Refers s ctx aggregates ∧ s.refer ctx aggregates = x := by
  rw [referToAggregate_eq]
  cases known : s.names.predicates_map ctx.evt_name with
  | none =>
      have noNew : newAggregate s.names ctx = none := by
        rw [newAggregate, known]
        rfl
      constructor
      · intro refers
        obtain ⟨aggr, isAggr, refers⟩ := Option.bind_eq_some_iff.mp refers
        cases aggr with
        | none =>
            rw [noNew] at refers
            cases refers
        | some i => exact absurd isAggr (getAggregate_unknown known s.rule_aggregates i)
      · rintro ⟨aggregates, refers, -⟩
        cases refers with
        | found mem isFor => cases known.symm.trans isFor.eventType
        | made new made => cases noNew.symm.trans made
  | some eventType =>
      have found := isSome_findIdx?_iff known s.rule_aggregates
      rw [getAggregate_eq known, Option.bind_some]
      cases isFound : s.rule_aggregates.findIdx? fun agg => agg.name = ctx.attr_name ∧
          agg.eventType = eventType ∧ agg.fun_ = getAggregateFun ctx.aggr_fun with
      | some i =>
          rw [isFound] at found
          obtain ⟨agg, mem, isFor⟩ := found.mp rfl
          constructor
          · intro refers
            exact ⟨_, .found mem isFor, Option.some.inj refers⟩
          · rintro ⟨aggregates, refers, rfl⟩
            cases refers with
            | found mem isFor => rfl
            | made new made => exact absurd isFor (new agg mem)
      | none =>
          rw [isFound] at found
          have new : ∀ agg ∈ s.rule_aggregates, ¬ agg.IsFor s.names ctx := by
            intro agg mem isFor
            cases found.mpr ⟨agg, mem, isFor⟩
          constructor
          · intro refers
            obtain ⟨aggregates, isMade, rfl⟩ := Option.map_eq_some_iff.mp refers
            obtain ⟨agg, made, rfl⟩ := Option.map_eq_some_iff.mp isMade
            exact ⟨_, .made new made, rfl⟩
          · rintro ⟨aggregates, refers, rfl⟩
            cases refers with
            | found mem isFor => exact absurd isFor (new _ mem)
            | made new made =>
                rw [made]
                rfl

/-! ## Reading in order -/

/-- The state behind some leaves, as far as the leaves that follow depend on it. -/
structure Follows (s : Parser) (earlier : List Atom) (s' : Parser) : Prop where
  names : s'.names = s.names
  parameters_map : s'.parameters_map = s.parameters_map
  aggregates : ∀ ctx, (∃ agg ∈ s'.rule_aggregates, agg.IsFor s.names ctx) ↔
    (∃ agg ∈ s.rule_aggregates, agg.IsFor s.names ctx) ∨
      ∃ ctx', Atom.aggregate ctx' ∈ earlier ∧ SameAggregate s.names ctx' ctx

theorem Follows.refl (s : Parser) : Follows s [] s where
  names := rfl
  parameters_map := rfl
  aggregates ctx := by
    constructor
    · exact .inl
    · rintro (found | ⟨ctx', mem, -⟩)
      · exact found
      · exact (List.not_mem_nil mem).elim

/-- A leaf that makes no aggregate. -/
theorem Follows.same {s s' : Parser} {earlier : List Atom} (follows : Follows s earlier s')
    {leaf : Atom} (noAggregate : ∀ ctx, leaf ≠ .aggregate ctx) :
    Follows s (earlier ++ [leaf]) s' where
  names := follows.names
  parameters_map := follows.parameters_map
  aggregates ctx := by
    rw [follows.aggregates ctx]
    constructor
    · rintro (found | ⟨ctx', mem, same⟩)
      · exact .inl found
      · exact .inr ⟨ctx', List.mem_append_left _ mem, same⟩
    · rintro (found | ⟨ctx', mem, same⟩)
      · exact .inl found
      · rcases List.mem_append.mp mem with before | last
        · exact .inr ⟨ctx', before, same⟩
        · exact absurd (List.mem_singleton.mp last).symm (noAggregate ctx')

/-- The aggregate of an atom is the aggregate of the atoms that ask for the same. -/
theorem TAggregate.IsFor.iff_same {agg : TAggregate} {names : Names} {ctx ctx' : Aggregate}
    (isFor : agg.IsFor names ctx) : agg.IsFor names ctx' ↔ SameAggregate names ctx ctx' := by
  constructor
  · intro isFor'
    exact ⟨isFor.fun_.symm.trans isFor'.fun_, isFor.eventType.trans isFor'.eventType.symm,
      isFor.name.symm.trans isFor'.name⟩
  · intro same
    exact ⟨isFor.fun_.trans same.fun_, same.eventType.symm.trans isFor.eventType,
      isFor.name.trans same.attr_name⟩

theorem Follows.refer {s s' : Parser} {earlier : List Atom} (follows : Follows s earlier s')
    {ctx : Aggregate} {aggregates : List TAggregate} (refers : Refers s' ctx aggregates) :
    Follows s (earlier ++ [.aggregate ctx]) (s'.refer ctx aggregates).2 where
  names := follows.names
  parameters_map := follows.parameters_map
  aggregates other := by
    have before := follows.aggregates other
    have names := follows.names
    constructor
    · rintro ⟨agg, mem, isFor⟩
      cases refers with
      | found _ _ =>
          rcases before.mp ⟨agg, mem, isFor⟩ with found | ⟨ctx', mem, same⟩
          · exact .inl found
          · exact .inr ⟨ctx', List.mem_append_left _ mem, same⟩
      | made new made =>
          rcases List.mem_append.mp mem with old | last
          · rcases before.mp ⟨agg, old, isFor⟩ with found | ⟨ctx', mem, same⟩
            · exact .inl found
            · exact .inr ⟨ctx', List.mem_append_left _ mem, same⟩
          · rw [names] at made
            rw [List.mem_singleton.mp last] at isFor
            exact .inr ⟨ctx, List.mem_append_right _ List.mem_cons_self,
              (newAggregate_eq_some made).1.iff_same.mp isFor⟩
    · have older : (∃ agg ∈ s'.rule_aggregates, agg.IsFor s.names other) →
          ∃ agg ∈ aggregates, agg.IsFor s.names other := by
        rintro ⟨agg, mem, isFor⟩
        cases refers with
        | found _ _ => exact ⟨agg, mem, isFor⟩
        | made new made => exact ⟨agg, List.mem_append_left _ mem, isFor⟩
      rintro (found | ⟨ctx', mem, same⟩)
      · exact older (before.mpr (.inl found))
      · rcases List.mem_append.mp mem with inEarlier | last
        · exact older (before.mpr (.inr ⟨ctx', inEarlier, same⟩))
        · cases List.mem_singleton.mp last
          cases refers with
          | found mem isFor =>
              rw [names] at isFor
              exact ⟨_, mem, isFor.iff_same.mpr same⟩
          | made new made =>
              rw [names] at made
              exact ⟨_, List.mem_append_right _ List.mem_cons_self,
                (newAggregate_eq_some made).1.iff_same.mpr same⟩

/-- A leaf is read if and only if it can be. -/
theorem Follows.reference {s s' : Parser} {earlier : List Atom} (follows : Follows s earlier s')
    (valType : Option ValType) (leaf : Atom) :
    (∀ x, reference valType leaf s' = some x →
      leaf.Readable s earlier ∧ Follows s (earlier ++ [leaf]) x.2) ∧
    (leaf.Readable s earlier → ∃ x, reference valType leaf s' = some x) := by
  cases leaf with
  | static ref =>
      have run : Tesla.reference valType (.static ref) s' = ref.value.map fun value =>
          ((.static value, some value.type), s') := by
        rw [Tesla.reference, lift_bind]
        exact Option.map_eq_bind.symm
      rw [run]
      constructor
      · intro x read
        obtain ⟨value, isValue, rfl⟩ := Option.map_eq_some_iff.mp read
        exact ⟨Option.isSome_of_eq_some isValue, follows.same fun ctx same => by cases same⟩
      · intro readable
        obtain ⟨value, isValue⟩ := Option.isSome_iff_exists.mp readable
        exact ⟨_, Option.map_eq_some_iff.mpr ⟨value, isValue, rfl⟩⟩
  | param param_name =>
      have run : Tesla.reference valType (.param param_name) s' =
          (s'.parameters_map param_name).map fun pmap =>
            ((.rulePkt pmap.indexInSequence .state pmap.attribute_name, valType), s') := by
        rw [Tesla.reference, get_bind, lift_bind]
        exact Option.map_eq_bind.symm
      rw [run, follows.parameters_map]
      constructor
      · intro x read
        obtain ⟨pmap, mapped, rfl⟩ := Option.map_eq_some_iff.mp read
        exact ⟨Option.isSome_of_eq_some mapped, follows.same fun ctx same => by cases same⟩
      · intro readable
        obtain ⟨pmap, mapped⟩ := Option.isSome_iff_exists.mp readable
        exact ⟨_, Option.map_eq_some_iff.mpr ⟨pmap, mapped, rfl⟩⟩
  | packet evt_name attr_name =>
      constructor
      · intro x read
        cases read
        exact ⟨trivial, follows.same fun ctx same => by cases same⟩
      · exact fun _ => ⟨_, rfl⟩
  | aggregate ctx =>
      have run : Tesla.reference valType (.aggregate ctx) s' =
          (referToAggregate ctx s').map fun x => ((x.1, valType), x.2) :=
        map_run (referToAggregate ctx) (fun ref => (ref, valType)) s'
      rw [run]
      constructor
      · intro x read
        obtain ⟨y, refer, rfl⟩ := Option.map_eq_some_iff.mp read
        obtain ⟨aggregates, refers, rfl⟩ := referToAggregate_eq_some.mp refer
        refine ⟨?_, follows.refer refers⟩
        have names := follows.names
        cases refers with
        | @found agg mem isFor =>
            rw [names] at isFor
            exact ⟨Option.isSome_of_eq_some isFor.eventType,
              .inr ((follows.aggregates ctx).mp ⟨agg, mem, isFor⟩)⟩
        | made new made =>
            rw [names] at made
            have known := (newAggregate_isSome s.names ctx).mp (Option.isSome_of_eq_some made)
            exact ⟨known.1, .inl known.2⟩
      · rintro ⟨known, fits⟩
        by_cases found : ∃ agg ∈ s'.rule_aggregates, agg.IsFor s'.names ctx
        · obtain ⟨agg, mem, isFor⟩ := found
          have refer := referToAggregate_eq_some.mpr ⟨_, .found mem isFor, rfl⟩
          exact ⟨_, Option.map_eq_some_iff.mpr ⟨_, refer, rfl⟩⟩
        · have unknown : ¬ ∃ agg ∈ s'.rule_aggregates, agg.IsFor s.names ctx := by
            rw [← follows.names]
            exact found
          have window := fits.resolve_right fun known =>
            unknown ((follows.aggregates ctx).mpr known)
          obtain ⟨agg, made⟩ := Option.isSome_iff_exists.mp
            ((newAggregate_isSome s.names ctx).mpr ⟨known, window⟩)
          have new : ∀ agg ∈ s'.rule_aggregates, ¬ agg.IsFor s'.names ctx :=
            fun agg mem isFor => found ⟨agg, mem, isFor⟩
          rw [← follows.names] at made
          have refer := referToAggregate_eq_some.mpr ⟨_, .made new made, rfl⟩
          exact ⟨_, Option.map_eq_some_iff.mpr ⟨_, refer, rfl⟩⟩

theorem readable_append (s : Parser) (earlier xs ys : List Atom) :
    Readable s earlier (xs ++ ys) ↔ Readable s earlier xs ∧ Readable s (earlier ++ xs) ys := by
  induction xs generalizing earlier with
  | nil => rw [List.nil_append, List.append_nil, Readable, true_and]
  | cons x xs ih =>
      rw [List.cons_append, Readable, Readable, ih, List.append_assoc, List.singleton_append,
        and_assoc]

section Reading

variable {α : Type} (valType : Option ValType) (atomOf : α → Atom)

theorem readLeaf_run (leaf : α) (s : Parser) : readLeaf valType atomOf leaf s =
    (reference valType (atomOf leaf) s).map fun x => ((leaf, x.1), x.2) :=
  map_run (reference valType (atomOf leaf)) (fun x => (leaf, x)) s

/-- The leaves of an expression are read if and only if they can be, one after the other. -/
theorem Follows.traverse {s s' : Parser} {earlier : List Atom} (follows : Follows s earlier s')
    (expr : ExprContext α) :
    (∀ x, expr.traverse (readLeaf valType atomOf) s' = some x →
      Readable s earlier (expr.leaves.map atomOf) ∧
        Follows s (earlier ++ expr.leaves.map atomOf) x.2 ∧ x.1.map Prod.fst = expr) ∧
    (Readable s earlier (expr.leaves.map atomOf) →
      ∃ x, expr.traverse (readLeaf valType atomOf) s' = some x) := by
  induction expr generalizing earlier s' with
  | atom leaf =>
      have run : (ExprContext.atom leaf).traverse (readLeaf valType atomOf) s' =
          (Tesla.reference valType (atomOf leaf) s').map fun x => (.atom (leaf, x.1), x.2) := by
        rw [ExprContext.traverse, map_run, readLeaf_run, Option.map_map]
        rfl
      have read := follows.reference valType (atomOf leaf)
      rw [run]
      constructor
      · intro x isRead
        obtain ⟨y, isReference, rfl⟩ := Option.map_eq_some_iff.mp isRead
        obtain ⟨readable, behind⟩ := read.1 y isReference
        exact ⟨⟨readable, trivial⟩, behind, rfl⟩
      · rintro ⟨readable, -⟩
        obtain ⟨y, isReference⟩ := read.2 readable
        exact ⟨_, Option.map_eq_some_iff.mpr ⟨y, isReference, rfl⟩⟩
  | paren ex ih =>
      have run : (ExprContext.paren ex).traverse (readLeaf valType atomOf) s' =
          (ex.traverse (readLeaf valType atomOf) s').map fun x => (.paren x.1, x.2) :=
        map_run _ _ _
      obtain ⟨sound, complete⟩ := ih follows
      rw [run]
      constructor
      · intro x isRead
        obtain ⟨y, inner, rfl⟩ := Option.map_eq_some_iff.mp isRead
        obtain ⟨readable, behind, same⟩ := sound y inner
        exact ⟨readable, behind, congrArg ExprContext.paren same⟩
      · intro readable
        obtain ⟨y, inner⟩ := complete readable
        exact ⟨_, Option.map_eq_some_iff.mpr ⟨y, inner, rfl⟩⟩
  | binop left op right ihLeft ihRight =>
      obtain ⟨soundLeft, completeLeft⟩ := ihLeft follows
      have run : ∀ x, (ExprContext.binop left op right).traverse (readLeaf valType atomOf) s' =
          some x ↔ ∃ y z, left.traverse (readLeaf valType atomOf) s' = some y ∧
            right.traverse (readLeaf valType atomOf) y.2 = some z ∧
              (.binop y.1 op z.1, z.2) = x := by
        intro x
        rw [ExprContext.traverse, bind_eq_some]
        constructor
        · rintro ⟨l, mid, first, second⟩
          rw [map_run] at second
          obtain ⟨z, isSecond, rfl⟩ := Option.map_eq_some_iff.mp second
          exact ⟨(l, mid), z, first, isSecond, rfl⟩
        · rintro ⟨y, z, first, second, rfl⟩
          refine ⟨y.1, y.2, first, ?_⟩
          rw [map_run, second]
          rfl
      rw [ExprContext.leaves, List.map_append, readable_append, ← List.append_assoc]
      constructor
      · intro x isRead
        obtain ⟨y, z, first, second, rfl⟩ := (run x).mp isRead
        obtain ⟨readableLeft, mid, sameLeft⟩ := soundLeft y first
        obtain ⟨readableRight, behind, sameRight⟩ := (ihRight mid).1 z second
        refine ⟨⟨readableLeft, readableRight⟩, behind, ?_⟩
        show ExprContext.binop (y.1.map Prod.fst) op (z.1.map Prod.fst) = _
        rw [sameLeft, sameRight]
      · rintro ⟨readableLeft, readableRight⟩
        obtain ⟨y, first⟩ := completeLeft readableLeft
        obtain ⟨z, second⟩ := (ihRight (soundLeft y first).2.1).2 readableRight
        exact ⟨_, (run _).mpr ⟨y, z, first, second, rfl⟩⟩

theorem buildOpTree_run (expr : ExprContext α) (s : Parser) :
    buildOpTree valType atomOf expr s = (expr.traverse (readLeaf valType atomOf) s).map fun x =>
      (x.1.assemble none, x.2) := by
  rw [buildOpTree, recursivelyNavigateExpression_eq, map_run]

/-! ## The type of the root -/

/-- The type of a leaf: that of a literal, or the declared one. -/
theorem reference_type {atom : Atom} {s : Parser}
    {x : (Java.OpValueReference × Option ValType) × Parser}
    (read : reference valType atom s = some x) :
    x.1.2 = valType ↔ ExprContext.Typed valType (.atom atom) := by
  cases atom with
  | static ref =>
      rw [reference, lift_bind] at read
      obtain ⟨value, isValue, read⟩ := Option.bind_eq_some_iff.mp read
      cases read
      rw [ExprContext.Typed, isValue]
      rfl
  | param param_name =>
      rw [reference, get_bind, lift_bind] at read
      obtain ⟨pmap, mapped, read⟩ := Option.bind_eq_some_iff.mp read
      cases read
      exact iff_of_true rfl trivial
  | packet evt_name attr_name =>
      cases read
      exact iff_of_true rfl trivial
  | aggregate ctx =>
      have run : reference valType (.aggregate ctx) s =
          (referToAggregate ctx s).map fun x => ((x.1, valType), x.2) := map_run _ _ _
      rw [run] at read
      obtain ⟨y, refer, rfl⟩ := Option.map_eq_some_iff.mp read
      exact iff_of_true rfl trivial

theorem traverse_type {expr : ExprContext α} {s : Parser} {x : ExprContext (Leaf α) × Parser}
    (read : expr.traverse (readLeaf valType atomOf) s = some x) :
    (x.1.assemble none).getValType = valType ↔ (expr.map atomOf).Typed valType := by
  induction expr generalizing s x with
  | atom leaf =>
      rw [ExprContext.traverse, map_run, readLeaf_run, Option.map_map] at read
      obtain ⟨y, isReference, rfl⟩ := Option.map_eq_some_iff.mp read
      exact reference_type valType isReference
  | paren ex ih =>
      rw [ExprContext.traverse, map_run] at read
      obtain ⟨y, inner, rfl⟩ := Option.map_eq_some_iff.mp read
      have typed := ih inner
      exact typed
  | binop left op right ihLeft ihRight =>
      obtain ⟨l, mid, first, second⟩ := bind_eq_some.mp read
      rw [map_run] at second
      obtain ⟨z, isSecond, rfl⟩ := Option.map_eq_some_iff.mp second
      exact eq_comm

end Reading

/-! ## Expressions that keep their meaning -/

namespace ExprContext

variable {α β : Type} (f : α → β)

theorem leaves_map (expr : ExprContext α) : (expr.map f).leaves = expr.leaves.map f := by
  induction expr with
  | atom leaf => rfl
  | paren ex ih => exact ih
  | binop left op right ihLeft ihRight => rw [map, leaves, leaves, ihLeft, ihRight, List.map_append]

theorem map_map {γ : Type} (g : β → γ) (expr : ExprContext α) :
    (expr.map f).map g = expr.map (g ∘ f) := by
  induction expr with
  | atom leaf => rfl
  | paren ex ih => exact congrArg paren ih
  | binop left op right ihLeft ihRight => exact congr (congrArg (binop · op) ihLeft) ihRight

theorem bare_map (expr : ExprContext α) : (expr.map f).Bare ↔ expr.Bare := by
  induction expr with
  | atom leaf => exact Iff.rfl
  | paren ex ih => exact Iff.rfl
  | binop left op right ihLeft ihRight => exact and_congr ihLeft ihRight

theorem wholeBuilt_map (expr : ExprContext α) : (expr.map f).WholeBuilt ↔ expr.WholeBuilt := by
  induction expr with
  | atom leaf => exact Iff.rfl
  | paren ex ih => exact ih
  | binop left op right ihLeft ihRight => exact and_congr ihLeft (bare_map f right)

theorem leftNested_map (expr : ExprContext α) : (expr.map f).LeftNested ↔ expr.LeftNested := by
  induction expr with
  | atom leaf => exact Iff.rfl
  | paren ex ih => exact ih
  | binop left op right ihLeft ihRight =>
      apply and_congr ihLeft
      cases right with
      | atom leaf => exact iff_of_true ⟨f leaf, rfl⟩ ⟨leaf, rfl⟩
      | paren ex => exact iff_of_false (by rintro ⟨leaf, ⟨⟩⟩) (by rintro ⟨leaf, ⟨⟩⟩)
      | binop l op r => exact iff_of_false (by rintro ⟨leaf, ⟨⟩⟩) (by rintro ⟨leaf, ⟨⟩⟩)

/-- Integers for the leaves of an expression, written into it. -/
theorem exists_zip {valued : ExprContext α} {expr : ExprContext β}
    (same : valued.shape = expr.shape) :
    ∃ both : ExprContext (α × β), both.map Prod.fst = valued ∧ both.map Prod.snd = expr := by
  induction expr generalizing valued with
  | atom leaf =>
      cases valued with
      | atom v => exact ⟨.atom (v, leaf), rfl, rfl⟩
      | paren ex => cases same
      | binop l op r => cases same
  | paren ex ih =>
      cases valued with
      | atom v => cases same
      | paren v =>
          obtain ⟨both, first, second⟩ := ih (paren.inj same)
          exact ⟨.paren both, congrArg paren first, congrArg paren second⟩
      | binop l op r => cases same
  | binop left op right ihLeft ihRight =>
      cases valued with
      | atom v => cases same
      | paren v => cases same
      | binop l op' r =>
          obtain ⟨sameLeft, rfl, sameRight⟩ := binop.inj same
          obtain ⟨first, firstLeft, secondLeft⟩ := ihLeft sameLeft
          obtain ⟨second, firstRight, secondRight⟩ := ihRight sameRight
          refine ⟨.binop first op' second, ?_, ?_⟩
          · exact congr (congrArg (binop · op') firstLeft) firstRight
          · exact congr (congrArg (binop · op') secondLeft) secondRight

end ExprContext

/-- What the tree of a valued expression is like. -/
theorem means_iff {valType : Option ValType} {valued : ExprContext (Int × Atom)} {s s' : Parser}
    {tree : OpTree (Int × Atom)}
    (built : buildOpTree valType Prod.snd valued s = some (tree, s')) :
    Means valType valued tree ↔ (valued.map Prod.snd).WholeBuilt ∧
      (valued.map Prod.fst).builtValue none = (valued.map Prod.fst).eval ∧
        (valued.map Prod.snd).Typed valType := by
  rw [buildOpTree_run] at built
  obtain ⟨x, read, made⟩ := Option.map_eq_some_iff.mp built
  cases made
  have same := (((Follows.refl s).traverse valType Prod.snd valued).1 x read).2.2
  have type := traverse_type valType Prod.snd read
  have whole : (x.1.assemble none).Whole ↔ (valued.map Prod.snd).WholeBuilt := by
    rw [ExprContext.whole_assemble, ← ExprContext.wholeBuilt_map Prod.fst, same,
      ExprContext.wholeBuilt_map]
  have value : (x.1.assemble none).eval Prod.fst = (valued.map Prod.fst).builtValue none := by
    have values := ExprContext.eval_assemble Prod.fst x.1 none
    have leaves : (x.1.map fun leaf => leaf.1.1) = valued.map Prod.fst := by
      rw [← same, ExprContext.map_map]
      rfl
    rw [values, leaves]
    rfl
  constructor
  · intro means
    exact ⟨whole.mp means.whole, value.symm.trans means.value, type.mp means.type⟩
  · rintro ⟨isWhole, isValue, isTyped⟩
    exact ⟨whole.mpr isWhole, value.trans isValue, type.mpr isTyped⟩

/-! ## Meaning -/

/-- The tree of an expression is built and means the expression, whatever integers its leaves stand
for, if and only if the leaves can be read, the operands to the right are leaves, and the declared
type is that of the root. -/
theorem keeps_iff (s : Parser) (valType : Option ValType) {expr : Expr} (parsed : expr.Parsed) :
    Keeps s valType expr ↔
      Readable s [] expr.leaves ∧ expr.LeftNested ∧ expr.Typed valType := by
  constructor
  · intro keeps
    obtain ⟨zeros, isZeros, rfl⟩ : ∃ zeros : ExprContext (Int × Atom),
        zeros.map Prod.fst = (expr.map fun _ => (0 : Int)) ∧ zeros.map Prod.snd = expr :=
      ExprContext.exists_zip (ExprContext.map_map _ _ expr)
    obtain ⟨tree, s', built, means⟩ := keeps zeros rfl
    have facts := (means_iff built).mp means
    rw [buildOpTree_run] at built
    obtain ⟨x, read, made⟩ := Option.map_eq_some_iff.mp built
    have readable := (((Follows.refl s).traverse valType Prod.snd zeros).1 x read).1
    refine ⟨?_, ?_, facts.2.2⟩
    · rw [ExprContext.leaves_map]
      exact readable
    · apply ExprContext.leftNested_of_values parsed facts.1
      intro valued shapes
      obtain ⟨both, rfl, same⟩ := ExprContext.exists_zip shapes
      obtain ⟨tree, s', built, means⟩ := keeps both same
      exact ((means_iff built).mp means).2.1
  · rintro ⟨readable, nested, typed⟩ valued rfl
    rw [ExprContext.leaves_map] at readable
    obtain ⟨x, read⟩ := ((Follows.refl s).traverse valType Prod.snd valued).2 readable
    have built : buildOpTree valType Prod.snd valued s = some (x.1.assemble none, x.2) := by
      rw [buildOpTree_run, read]
      rfl
    refine ⟨_, _, built, (means_iff built).mpr ⟨?_, ?_, typed⟩⟩
    · exact ExprContext.wholeBuilt_of_leftNested nested
    · apply ExprContext.builtValue_of_leftNested
      rw [ExprContext.leftNested_map] at nested ⊢
      exact nested

/-- An integer as a leaf. -/
def literal (val : Nat) : Expr := .atom (.static (.int_val val))

theorem sum_kept : Keeps Parser.new (some .int) (.binop (literal 2) .plus (literal 3)) := by
  have parsed : (ExprContext.binop (literal 2) .plus (literal 3)).Parsed :=
    ⟨trivial, trivial, trivial⟩
  exact (keeps_iff Parser.new (some .int) parsed).mpr
    ⟨⟨rfl, rfl, trivial⟩, ⟨trivial, _, rfl⟩, rfl⟩

/-- For `2+3*4` the tree of `2+2*3*4` is built. -/
theorem sumOfProduct_not_kept : ¬ Keeps Parser.new (some .int)
    (.binop (literal 2) .plus (.binop (literal 3) .times (literal 4))) := by
  intro keeps
  obtain ⟨tree, s', built, means⟩ := keeps (.binop (.atom (2, .static (.int_val 2))) .plus
    (.binop (.atom (3, .static (.int_val 3))) .times (.atom (4, .static (.int_val 4))))) rfl
  have value := ((means_iff built).mp means).2.1
  exact absurd value (by decide)

end TRex.Tesla
