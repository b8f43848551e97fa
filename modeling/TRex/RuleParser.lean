import Mathlib.Logic.Function.Basic
import TRex.JavaClient

/-!
# The rule parser

`polimi.trex.ruleparser.TRexRuleParser`, the listener that makes a packet of a rule while it walks
the parse tree. A context of the tree has the members that the listener asks for; a token whose
text stands for one of finitely many constants is an enumeration, and digits are the number that
they spell. `none` stands for an exception of the listener.

What a list of the listener contains is named by its position: two aggregates that are the same
object have the same position.
-/

namespace TRex.Tesla

/-! ## Parse trees -/

/-- The number of an `INT_VAL` may be too large for the type that it is parsed for; a `FLOAT_VAL`
has the value that is nearest to its text. -/
inductive Static_reference
  | int_val (val : Nat)
  | float_val (val : CFloat)
  | bool_val (val : Bool)
  | string_val (text : CString)

/-- `valtype`. -/
inductive Valtype | string | int | float | bool

/-- `sel_policy`. -/
inductive Sel_policy | each | last | first

/-- `aggr_fun`. -/
inductive Aggr_fun | avg | sum | max | min | count

/-- `operator`. The last two are in the grammar and mean nothing to the listener. -/
inductive Operator | eq | gt | lt | ge | le | ne | and | or

/-- `BINOP_MUL` or `BINOP_ADD`. -/
inductive Binop | times | divide | plus | minus

/-- `expr`, with leaves of the type `α`. -/
inductive ExprContext (α : Type)
  | atom (leaf : α)
  | paren (expr : ExprContext α)
  | binop (left : ExprContext α) (op : Binop) (right : ExprContext α)

/-- `agg_one_reference` or `agg_between`, and the same for negations. -/
inductive Window
  | within (int_val : Nat) (evt_name : CString)
  | between (lower upper : CString)

/-- `attr_constraint`: an attribute compared with a literal. -/
structure Attr_constraint where
  attr_name : CString
  operator : Operator
  static_reference : Static_reference

/-- `attr_parameter`: an attribute compared with an expression of the type `ε`. -/
structure Attr_parameter (ε : Type) where
  valtype : Valtype
  attr_name : CString
  operator : Operator
  expr : ε

/-- `aggregate_atom`: an aggregate over the events of a window. -/
structure Aggregate_atom (ε : Type) where
  aggr_fun : Aggr_fun
  evt_name : CString
  attr_name : CString
  attr_constraint : List Attr_constraint
  attr_parameter : List (Attr_parameter ε)
  window : Window

/-- `param_atom` or `aggregate_atom`. -/
inductive Atom
  | static (ref : Static_reference)
  | param (param_name : CString)
  | packet (evt_name attr_name : CString)
  | aggregate (ctx : Aggregate_atom (ExprContext Atom))

/-- `expr` as the grammar has it. -/
abbrev Expr := ExprContext Atom

/-- A parameter with such an expression. -/
abbrev Parameter := Attr_parameter Expr

/-- An aggregate whose parameters have such expressions. -/
abbrev Aggregate := Aggregate_atom Expr

/-- What stands between the parentheses of a predicate. -/
inductive PredicateItem
  | param_mapping (attr_name param_name : CString)
  | attr_constraint (ctx : Attr_constraint)
  | attr_parameter (ctx : Parameter)

/-- `predicate`: the event, what is asked of it and the name it may have. -/
structure Predicate where
  evt_name : CString
  items : List PredicateItem
  event_alias : Option CString

/-- The constraint that the item is, if it is one. -/
def PredicateItem.constraint? : PredicateItem → Option Attr_constraint
  | .attr_constraint ctx => some ctx
  | _ => none

/-- The parameter that the item is, if it is one. -/
def PredicateItem.parameter? : PredicateItem → Option Parameter
  | .attr_parameter ctx => some ctx
  | _ => none

namespace Predicate

variable (ctx : Predicate)

/-- The constraints, in the order of the text. -/
def attr_constraint : List Attr_constraint := ctx.items.filterMap PredicateItem.constraint?

/-- The parameters, in the order of the text. -/
def attr_parameter : List Parameter := ctx.items.filterMap PredicateItem.parameter?

/-- The alias if there is one, and else the name of the event. -/
def name : CString := ctx.event_alias.getD ctx.evt_name

end Predicate

/-- `positive_predicate` or `negative_predicate`. -/
inductive Pattern_predicate
  | positive (sel_policy : Sel_policy) (predicate : Predicate) (int_val : Nat) (evt_name : CString)
  | negative (predicate : Predicate) (window : Window)

/-- `staticAttr_definition` or `attr_definition`. -/
inductive Definition
  | static (attr_name : CString) (static_reference : Static_reference)
  | attr (attr_name : CString) (expr : Expr)

/-- `trex_rule`. A rule without `definitions` or `consuming` has empty lists of them. -/
structure Trex_rule where
  event_declarations : List (Nat × CString)
  ce_definition : CString × List (CString × Valtype)
  terminator : Predicate
  pattern_predicates : List Pattern_predicate
  definitions : List Definition
  consuming : List CString

/-! ## Rules -/

/-- A node of an operation tree; what Java may leave `null` is an `Option`. `source` is the leaf of
the expression that a leaf was made for, which the tree does not keep. -/
inductive OpTree (α : Type)
  | leaf (source : α) (valueRef : Java.OpValueReference) (valType : Option ValType)
  | inner (leftTree rightTree : OpTree α) (op : Option OpTreeOperation) (valType : Option ValType)

/-- The type of the root. -/
def OpTree.getValType {α : Type} : OpTree α → Option ValType
  | .leaf _ _ valType => valType
  | .inner _ _ _ valType => valType

/-- The operator is `null` where `getConstrOp` has none. -/
structure Constraint where
  name : CString
  op : Option Op
  value : Value

/-- One state of the rule, as `Java.EventPredicate`. -/
structure EventPredicate where
  eventType : Int
  constraints : List Constraint
  refersTo : Int
  win : Int
  kind : CompKind

/-- The left tree is a leaf that was made for the parameter itself. -/
structure ComplexParameter where
  operation : Option Op
  sType : StateType
  type : Option ValType
  leftTree : OpTree Parameter
  rightTree : OpTree Atom

/-- As `Java.Negation`. -/
structure Negation where
  eventType : Int
  constraints : List Constraint
  lowerId : Int
  lowerTime : Int
  upperId : Int

/-- As `Java.TAggregate`. Constraints are added while the atom is entered. -/
structure TAggregate where
  eventType : Int
  constraints : List Constraint
  lowerId : Int
  lowerTime : Int
  upperId : Int
  fun_ : AggregateFun
  name : CString

/-- A static attribute may be `null`. -/
structure EventTemplate where
  eventType : Int
  attributes : List (CString × OpTree Atom)
  staticAttributes : List (Option Attribute)

/-- The packet that the listener makes. -/
structure RulePkt where
  predicates : List EventPredicate
  parameters : List ComplexParameter
  negations : List Negation
  aggregates : List TAggregate
  consuming : List Int
  eventTemplate : EventTemplate

/-- What a parameter's name stands for: an attribute of one of the events. -/
structure ParametersMap where
  eventId : Int
  indexInSequence : Int
  attribute_name : CString

/-! ## The state of the listener -/

/-- What the names of events stand for. -/
structure Names where
  predicates_map : CString → Option Int
  rule_predicates : List EventPredicate
  rule_predicates_names : List CString

/-- A reference to an aggregate, with the atom it was made for and the names known then. -/
structure Compiled where
  names : Names
  atom : Aggregate
  reference : Int

/-- `compiled` lists the references to aggregates in the order in which they were made; nothing
reads it. -/
structure Parser where
  names : Names
  parameters_map : CString → Option ParametersMap
  eventTemplateAttrTypes : CString → Option ValType
  rule_parameters : List ComplexParameter
  rule_template : Option EventTemplate
  rule_aggregates : List TAggregate
  rule_negations : List Negation
  rule_consuming : List Int
  rule : Option RulePkt
  compiled : List Compiled

/-- The members before the walk. -/
def Parser.new : Parser where
  names := ⟨fun _ => none, [], []⟩
  parameters_map _ := none
  eventTemplateAttrTypes _ := none
  rule_parameters := []
  rule_template := none
  rule_aggregates := []
  rule_negations := []
  rule_consuming := []
  rule := none
  compiled := []

/-- A callback: the members before and after it, unless it throws. -/
abbrev Listener := StateT Parser Option

/-! ## Constants and literals -/

/-- `Integer.parseInt`. -/
def parseInt (digits : Nat) : Option Int := if digits < 2 ^ 31 then some digits else none

/-- `Long.parseLong`. -/
def parseLong (digits : Nat) : Option Int := if digits < 2 ^ 63 then some digits else none

/-- `indexOf` of a list of names. -/
def indexOf (names : List CString) (name : CString) : Int :=
  match names.findIdx? (· == name) with
  | some i => i
  | none => -1

/-- `null` for an operator that no constraint can have. -/
def getConstrOp : Operator → Option Op
  | .eq => some .eq
  | .gt => some .gt
  | .lt => some .lt
  | .le => some .le
  | .ge => some .ge
  | .ne => some .ne
  | _ => none

/-- The type that the word stands for. -/
def getValType : Valtype → ValType
  | .int => .int
  | .float => .float
  | .bool => .bool
  | .string => .string

/-- The selection that the word stands for. -/
def getCompKind : Sel_policy → CompKind
  | .each => .eachWithin
  | .last => .lastWithin
  | .first => .firstWithin

/-- The operation that the sign stands for. -/
def getBinOp : Binop → OpTreeOperation
  | .plus => .add
  | .minus => .sub
  | .divide => .div
  | .times => .mul

/-- The function that the word stands for. -/
def getAggregateFun : Aggr_fun → AggregateFun
  | .avg => .avg
  | .sum => .sum
  | .count => .count
  | .min => .min
  | .max => .max

/-- `val.substring(1, val.length()-1)`. -/
def unquote (val : CString) : Option CString :=
  if 2 ≤ val.length then some (val.drop 1).dropLast else none

/-- The text of a string is taken whole, unlike in an expression. -/
def getConstraint (cons : Attr_constraint) : Option Constraint := do
  let op := getConstrOp cons.operator
  match cons.static_reference with
  | .int_val val => return ⟨cons.attr_name, op, .int (← parseInt val)⟩
  | .float_val val => return ⟨cons.attr_name, op, .float val⟩
  | .bool_val val => return ⟨cons.attr_name, op, .bool val 0⟩
  | .string_val val => return ⟨cons.attr_name, op, .string val⟩

/-- All constraints, or an exception if one of the integers is too large. -/
def Predicate.constraints (ctx : Predicate) : Option (List Constraint) :=
  ctx.attr_constraint.mapM getConstraint

/-! ## Aggregates -/

/-- `Constraint.equals`: the comparisons of the other types belong to the `if` for integers. -/
def Constraint.equals (c other : Constraint) : Bool :=
  c.value.type == other.value.type && c.name == other.name && c.op == other.op &&
    match c.value, other.value with
    | .int v, .int w => v == w
    | _, _ => true

/-- Parameters are kept elsewhere and do not count. -/
def TAggregate.equals (a other : TAggregate) : Bool :=
  a.constraints.length == other.constraints.length &&
    other.constraints.all (fun c => a.constraints.any c.equals) &&
    a.eventType == other.eventType && a.fun_ == other.fun_ && a.lowerId == other.lowerId &&
    a.lowerTime == other.lowerTime && a.name == other.name && a.upperId == other.upperId

/-- Behind the constraints that are already there. -/
def TAggregate.addConstraint (a : TAggregate) (c : Constraint) : TAggregate :=
  { a with constraints := a.constraints ++ [c] }

/-- The position of the first aggregate with the name, the event type and the function. The event
type is looked up for an aggregate that has the name. -/
def getAggregate (predicates_map : CString → Option Int) (predName attrName : CString)
    (aggrFun : AggregateFun) : List TAggregate → Option (Option Nat)
  | [] => some none
  | agg :: rest => do
    if agg.name = attrName then
      if agg.eventType = (← predicates_map predName) ∧ agg.fun_ = aggrFun then return some 0
    return (← getAggregate predicates_map predName attrName aggrFun rest).map (· + 1)

/-- `rule_aggregates.indexOf(aggr)`. -/
def indexOfAggregate (aggregates : List TAggregate) (aggr : Option Nat) : Int :=
  match aggr.bind (aggregates[·]?) with
  | none => -1
  | some aggr =>
    match aggregates.findIdx? aggr.equals with
    | some i => i
    | none => -1

/-- Lower bound, lower time and upper bound of a window. -/
def Window.bounds (parse : Nat → Option Int) (names : List CString) :
    Window → Option (Int × Int × Int)
  | .within int_val evt_name => do return (-1, ← parse int_val, indexOf names evt_name)
  | .between lower upper => some (indexOf names lower, 0, indexOf names upper)

/-- The aggregate that is made for an atom. -/
def newAggregate (names : Names) (ctx : Aggregate) : Option TAggregate := do
  let eventType ← names.predicates_map ctx.evt_name
  let (lowerId, lowerTime, upperId) ← ctx.window.bounds parseInt names.rule_predicates_names
  return { eventType, constraints := [], lowerId, lowerTime, upperId
           fun_ := getAggregateFun ctx.aggr_fun, name := ctx.attr_name }

/-! ## Expressions -/

section Expressions

variable (valType : Option ValType)

/-- The literal of an expression. A string loses two characters, though the lexer removed the
quotes. -/
def Static_reference.value : Static_reference → Option Value
  | .int_val val => do return .int (← parseInt val)
  | .float_val val => some (.float val)
  | .bool_val val => some (.bool val 0)
  | .string_val val => do return .string (← unquote val)

/-- The aggregate of an atom is looked up, and made if there is none; the reference is to the
last. -/
def referToAggregate (ctx : Aggregate) : Listener Java.OpValueReference := do
  let s ← get
  let aggr ← getAggregate s.names.predicates_map ctx.evt_name ctx.attr_name
    (getAggregateFun ctx.aggr_fun) s.rule_aggregates
  let aggregates ← match aggr with
    | some _ => pure s.rule_aggregates
    | none => do pure (s.rule_aggregates ++ [← newAggregate s.names ctx])
  let index : Int := aggregates.length - 1
  set { s with
        rule_aggregates := aggregates
        compiled := s.compiled ++ [Compiled.mk s.names ctx index] }
  return .rulePkt index .agg []

/-- What the leaf for an atom refers to, and its type: a literal has its own. -/
def reference : Atom → Listener (Java.OpValueReference × Option ValType)
  | .static ref => do
    let value ← ref.value
    return (.static value, some value.type)
  | .param param_name => do
    let pmap ← (← get).parameters_map param_name
    return (.rulePkt pmap.indexInSequence .state pmap.attribute_name, valType)
  | .packet evt_name attr_name => do
    let names := (← get).names.rule_predicates_names
    return (.rulePkt (indexOf names evt_name) .state attr_name, valType)
  | .aggregate ctx => do return (← referToAggregate ctx, valType)

variable {α : Type} (atomOf : α → Atom)

/-- One turn of the loop over subexpressions: what is made of the next one joins the tree. -/
def joinTree (tree : Option (OpTree α)) (operation : Option OpTreeOperation)
    (subExpression : Listener (OpTree α)) : Listener (OpTree α) := do
  let ex ← subExpression
  match tree with
  | some tree => return .inner tree ex operation (some .int)
  | none => return ex

/-- The tree made so far is handed down to the subexpressions. -/
def recursivelyNavigateExpression : ExprContext α → Option (OpTree α) → Listener (OpTree α)
  | .atom leaf, _ => do
    let (valueRef, type) ← reference valType (atomOf leaf)
    return .leaf leaf valueRef type
  | .paren ex, tree => joinTree tree none (recursivelyNavigateExpression ex tree)
  | .binop left op right, tree => do
    let tree ← joinTree tree (some (getBinOp op)) (recursivelyNavigateExpression left tree)
    joinTree (some tree) (some (getBinOp op)) (recursivelyNavigateExpression right (some tree))

/-- The tree of an expression starts with none. -/
def buildOpTree (expr : ExprContext α) : Listener (OpTree α) :=
  recursivelyNavigateExpression valType atomOf expr none

end Expressions

/-! ## Callbacks -/

/-- The constraints of two predicates are in hash sets and have no hash codes of their own, so that
none of one predicate is found in the set of another. -/
def EventPredicate.equals (p other : EventPredicate) : Bool :=
  p.constraints.isEmpty && other.constraints.isEmpty && p.eventType == other.eventType &&
    p.kind == other.kind && p.refersTo == other.refersTo && p.win == other.win

/-- A predicate that equals an earlier one is not added, nor is its name. -/
def Names.addPredicate (names : Names) (ep : EventPredicate) (name : CString) : Names :=
  if names.rule_predicates.any ep.equals then names
  else { names with
         rule_predicates := names.rule_predicates ++ [ep]
         rule_predicates_names := names.rule_predicates_names ++ [name] }

/-- An alias stands for the event type. -/
def Names.addAlias (names : Names) (event_alias : Option CString) (eventId : Int) : Names :=
  match event_alias with
  | some evt_alias =>
    { names with predicates_map := Function.update names.predicates_map evt_alias (some eventId) }
  | none => names

/-- The type of the tree, not the declared one, is the type of the parameter. -/
def addParameter (par : Parameter) (index : Int) (type : StateType) : Listener Unit := do
  let valType := some (getValType par.valtype)
  let rightTree ← buildOpTree valType id par.expr
  let leftTree : OpTree Parameter := .leaf par (.rulePkt index type par.attr_name) valType
  let compPar : ComplexParameter :=
    ⟨getConstrOp par.operator, type, rightTree.getValType, leftTree, rightTree⟩
  modify fun s => { s with rule_parameters := s.rule_parameters ++ [compPar] }

/-- The names when the predicate of a pattern has been added: the root, or one that refers to
another within a time. -/
def Names.enter (names : Names) (ctx : Predicate) (refersTo : Option (Sel_policy × Nat × CString)) :
    Option Names := do
  let eventId ← names.predicates_map ctx.evt_name
  let constraints ← ctx.constraints
  let ep : EventPredicate ← match refersTo with
    | none => pure ⟨eventId, constraints, -1, 0, .eachWithin⟩
    | some (sel_policy, int_val, evt_name) => do
      pure ⟨eventId, constraints, indexOf names.rule_predicates_names evt_name, ← parseInt int_val,
        getCompKind sel_policy⟩
  return (names.addAlias ctx.event_alias eventId).addPredicate ep ctx.name

/-- `enterTerminator` and `enterPositive_predicate`. -/
def enterPredicate (ctx : Predicate) (refersTo : Option (Sel_policy × Nat × CString)) :
    Listener Unit := do
  let names ← (← get).names.enter ctx refersTo
  modify fun s => { s with names }
  ctx.attr_parameter.forM fun par => do
    addParameter par (indexOf (← get).names.rule_predicates_names ctx.name) .state

/-- The root of the pattern. -/
def enterTerminator (ctx : Predicate) : Listener Unit := enterPredicate ctx none

/-- A state that refers to an earlier one. -/
def enterPositive_predicate (sel_policy : Sel_policy) (ctx : Predicate) (int_val : Nat)
    (evt_name : CString) : Listener Unit :=
  enterPredicate ctx (some (sel_policy, int_val, evt_name))

/-- The negation goes to the end of the list, and its parameters refer to the last one there. -/
def enterNegative_predicate (ctx : Predicate) (window : Window) : Listener Unit := do
  let s ← get
  let eventType ← s.names.predicates_map ctx.evt_name
  let (lowerId, lowerTime, upperId) ← window.bounds parseLong s.names.rule_predicates_names
  let constraints ← ctx.constraints
  let neg : Negation := { eventType, constraints, lowerId, lowerTime, upperId }
  set { s with rule_negations := s.rule_negations ++ [neg] }
  ctx.attr_parameter.forM fun par => do
    addParameter par ((← get).rule_negations.length - 1) .neg

/-- The first mapping of a name is the one that stays. -/
def enterParam_mapping (predCtx : Predicate) (attr_name param_name : CString) : Listener Unit := do
  let s ← get
  let eventId ← s.names.predicates_map predCtx.name
  let pmap : ParametersMap :=
    ⟨eventId, indexOf s.names.rule_predicates_names predCtx.name, attr_name⟩
  if (s.parameters_map param_name).isNone then
    set { s with parameters_map := Function.update s.parameters_map param_name (some pmap) }

/-- The constraint goes to the aggregate at a position. -/
def addAggregateConstraint (aggr : Option Nat) (cons : Attr_constraint) : Listener Unit := do
  let position ← aggr
  let c ← getConstraint cons
  modify fun s => { s with
    rule_aggregates := s.rule_aggregates.modify position fun a => a.addConstraint c }

/-- The aggregate is looked up by name, event type and function, as for the reference to it. -/
def enterAggregate_atom (ctx : Aggregate) : Listener Unit := do
  let s ← get
  let aggr ← getAggregate s.names.predicates_map ctx.evt_name ctx.attr_name
    (getAggregateFun ctx.aggr_fun) s.rule_aggregates
  ctx.attr_constraint.forM (addAggregateConstraint aggr)
  ctx.attr_parameter.forM fun par => do
    addParameter par (indexOfAggregate (← get).rule_aggregates aggr) .agg

/-- A later declaration of a name replaces an earlier one. -/
def enterEvent_declaration (ctx : Nat × CString) : Listener Unit := do
  let id ← parseInt ctx.1
  modify fun s => { s with
    names := { s.names with
      predicates_map := Function.update s.names.predicates_map ctx.2 (some id) } }

/-- The template is made without attributes; their types are noted. -/
def enterCe_definition (ctx : CString × List (CString × Valtype)) : Listener Unit := do
  let eventType ← (← get).names.predicates_map ctx.1
  modify fun s => { s with
    rule_template := some ⟨eventType, [], []⟩
    eventTemplateAttrTypes := ctx.2.foldl (fun types attr =>
      Function.update types attr.1 (some (getValType attr.2))) s.eventTemplateAttrTypes }

/-- The literal of a static attribute must be one of the declared type; an attribute without one is
`null`. -/
def staticAttribute (vtype : Option ValType) (attr_name : CString) (ref : Static_reference) :
    Option (Option Attribute) := do
  match vtype with
  | none => return none
  | some vtype => do
    let value ← ref.value
    if value.type = vtype then return some ⟨attr_name, value⟩ else none

/-- The attribute goes to the template, also when it is `null`. -/
def addStaticAttribute (attr_name : CString) (ref : Static_reference) : Listener Unit := do
  let s ← get
  let sattr ← staticAttribute (s.eventTemplateAttrTypes attr_name) attr_name ref
  let template ← s.rule_template
  set { s with rule_template := some { template with
    staticAttributes := template.staticAttributes ++ [sattr] } }

/-- The tree is built with the declared type of the attribute. -/
def addAttribute (attr_name : CString) (expr : Expr) : Listener Unit := do
  let tree ← buildOpTree ((← get).eventTemplateAttrTypes attr_name) id expr
  let s ← get
  let template ← s.rule_template
  set { s with rule_template := some { template with
    attributes := template.attributes ++ [(attr_name, tree)] } }

/-- The static attribute that is defined, if it is one. -/
def Definition.static? : Definition → Option (CString × Static_reference)
  | .static attr_name ref => some (attr_name, ref)
  | .attr _ _ => none

/-- The computed attribute that is defined, if it is one. -/
def Definition.attr? : Definition → Option (CString × Expr)
  | .attr attr_name expr => some (attr_name, expr)
  | .static _ _ => none

/-- Static attributes come first. -/
def enterDefinitions (ctx : List Definition) : Listener Unit := do
  (ctx.filterMap Definition.static?).forM fun sdef => addStaticAttribute sdef.1 sdef.2
  (ctx.filterMap Definition.attr?).forM fun attr_ctx => addAttribute attr_ctx.1 attr_ctx.2

/-- A name that is not known is -1. -/
def enterConsuming (ctx : List CString) : Listener Unit :=
  modify fun s => { s with
    rule_consuming := s.rule_consuming ++ ctx.map (indexOf s.names.rule_predicates_names) }

/-- The packet is made of the members. -/
def enterEnding_rule : Listener Unit := do
  let s ← get
  let eventTemplate ← s.rule_template
  set { s with rule := some {
    predicates := s.names.rule_predicates
    parameters := s.rule_parameters
    negations := s.rule_negations
    aggregates := s.rule_aggregates
    consuming := s.rule_consuming
    eventTemplate } }

/-! ## The walk -/

mutual

/-- `ParseTreeWalker.walk` below an expression. -/
def walkExpr : ExprContext Atom → Listener Unit
  | .atom leaf => walkAtom leaf
  | .paren expr => walkExpr expr
  | .binop left _ right => do
    walkExpr left
    walkExpr right

/-- An aggregate is entered before what is below it. -/
def walkAtom : Atom → Listener Unit
  | .aggregate ctx => do
    enterAggregate_atom ctx
    walkParameters ctx.attr_parameter
  | _ => pure ()

/-- The expressions of the parameters, in their order. -/
def walkParameters : List (Attr_parameter (ExprContext Atom)) → Listener Unit
  | [] => pure ()
  | par :: rest => do
    walkExpr par.expr
    walkParameters rest

end

/-- A constraint has no callback and nothing below it. -/
def walkItem (predCtx : Predicate) : PredicateItem → Listener Unit
  | .param_mapping attr_name param_name => enterParam_mapping predCtx attr_name param_name
  | .attr_constraint _ => pure ()
  | .attr_parameter ctx => walkExpr ctx.expr

/-- What stands between the parentheses, in the order of the text. -/
def walkPredicate (ctx : Predicate) : Listener Unit := ctx.items.forM (walkItem ctx)

/-- A predicate of the pattern is entered before its items. -/
def walkPattern : Pattern_predicate → Listener Unit
  | .positive sel_policy predicate int_val evt_name => do
    enterPositive_predicate sel_policy predicate int_val evt_name
    walkPredicate predicate
  | .negative predicate window => do
    enterNegative_predicate predicate window
    walkPredicate predicate

/-- Only expressions have callbacks below them. -/
def walkDefinition : Definition → Listener Unit
  | .static _ _ => pure ()
  | .attr _ expr => walkExpr expr

/-- `ParseTreeWalker.walk` of a whole rule, callback by callback. -/
def walk (t : Trex_rule) : Listener Unit := do
  t.event_declarations.forM enterEvent_declaration
  enterCe_definition t.ce_definition
  enterTerminator t.terminator
  walkPredicate t.terminator
  t.pattern_predicates.forM walkPattern
  enterDefinitions t.definitions
  t.definitions.forM walkDefinition
  enterConsuming t.consuming
  enterEnding_rule

/-- `parse`: the packet of a rule. -/
def parse (t : Trex_rule) : Option RulePkt := do
  let (_, s) ← walk t Parser.new
  s.rule

end TRex.Tesla
