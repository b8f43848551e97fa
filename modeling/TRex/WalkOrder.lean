import TRex.AggregateReferences

/-!
# The walk as a list of operations

The walk enters the terminator and the predicates of the pattern one after the other, each with its
parameters before its parameter mappings and the aggregates in its parameters, and the definitions
after them. `operations` lists what is done, as a function of the rule alone; `walk_eq` says
that the walk does this and nothing else. What one operation does to the state is said once for
all of them, and carried over to the walk by the lemmas about loops.
-/

namespace TRex.Tesla

open Stateful

/-! ## Operations -/

/-- A terminator, or a positive predicate with its policy, its window and the name it refers to. -/
structure State where
  predicate : Predicate
  reference : Option (Sel_policy × Nat × CString)

/-- `parameter` has the name of the state that a parameter belongs to, or none if it belongs to the
last negation. -/
inductive Operation
  | enter (state : State)
  | negate (ctx : Predicate) (window : Window)
  | parameter (owner : Option CString) (par : Parameter)
  | mapping (predCtx : Predicate) (attr_name param_name : CString)
  | atom (ctx : Aggregate)
  | static (attr_name : CString) (ref : Static_reference)
  | attr (attr_name : CString) (expr : Expr)
  | consume (names : List CString)

def enterState (state : State) : Listener Unit := do
  let names ← (← get).names.enter state.predicate state.reference
  modify fun s => { s with names }

def enterNegation (ctx : Predicate) (window : Window) : Listener Unit := do
  let s ← get
  let eventType ← s.names.predicates_map ctx.evt_name
  let (lowerId, lowerTime, upperId) ← window.bounds parseLong s.names.rule_predicates_names
  let constraints ← ctx.constraints
  let neg : Negation := { eventType, constraints, lowerId, lowerTime, upperId }
  set { s with rule_negations := s.rule_negations ++ [neg] }

def Operation.exec : Operation → Listener Unit
  | .enter state => enterState state
  | .negate ctx window => enterNegation ctx window
  | .parameter (some name) par => do
    addParameter par (indexOf (← get).names.rule_predicates_names name) .state
  | .parameter none par => do
    addParameter par ((← get).rule_negations.length - 1) .neg
  | .mapping predCtx attr_name param_name => enterParam_mapping predCtx attr_name param_name
  | .atom ctx => enterAggregate_atom ctx
  | .static attr_name ref => addStaticAttribute attr_name ref
  | .attr attr_name expr => addAttribute attr_name expr
  | .consume names => enterConsuming names

def PredicateItem.operations (predCtx : Predicate) : PredicateItem → List Operation
  | .param_mapping attr_name param_name => [.mapping predCtx attr_name param_name]
  | .attr_constraint _ => []
  | .attr_parameter ctx => (entered ctx.expr).map .atom

def Predicate.operations (ctx : Predicate) (owner : Option CString) : List Operation :=
  ctx.attr_parameter.map (.parameter owner) ++ ctx.items.flatMap (PredicateItem.operations ctx)

/-- What comes with entering a predicate. -/
def Operation.body : Operation → List Operation
  | .enter state => state.predicate.operations (some state.predicate.name)
  | .negate ctx _ => ctx.operations none
  | _ => []

def Pattern_predicate.head : Pattern_predicate → Operation
  | .positive sel_policy predicate int_val evt_name =>
    .enter ⟨predicate, some (sel_policy, int_val, evt_name)⟩
  | .negative predicate window => .negate predicate window

def Definition.operations : Definition → List Operation
  | .static _ _ => []
  | .attr _ expr => (entered expr).map .atom

namespace Trex_rule

variable (t : Trex_rule)

/-- The terminator and the predicates of the pattern. -/
def heads : List Operation :=
  .enter ⟨t.terminator, none⟩ :: t.pattern_predicates.map Pattern_predicate.head

/-- The definitions and the consuming clause. -/
def tail : List Operation :=
  (t.definitions.filterMap Definition.static?).map (fun sdef => .static sdef.1 sdef.2) ++
    (t.definitions.filterMap Definition.attr?).map (fun attr => .attr attr.1 attr.2) ++
    t.definitions.flatMap Definition.operations ++ [.consume t.consuming]

def operations : List Operation := t.heads.flatMap (fun head => head :: head.body) ++ t.tail

end Trex_rule

/-! ## The walk -/

mutual

theorem walkExpr_eq : ∀ expr : Expr, walkExpr expr = (entered expr).forM enterAggregate_atom
  | .atom leaf => walkAtom_eq leaf
  | .paren expr => walkExpr_eq expr
  | .binop left _ right => by
    rw [walkExpr, walkExpr_eq left, walkExpr_eq right, entered]
    exact List.forM_append.symm

theorem walkAtom_eq : ∀ leaf : Atom, walkAtom leaf = (enteredAtom leaf).forM enterAggregate_atom
  | .static _ => rfl
  | .param _ => rfl
  | .packet _ _ => rfl
  | .aggregate ctx => by
    rw [walkAtom, walkParameters_eq ctx.attr_parameter, enteredAtom]
    rfl

theorem walkParameters_eq : ∀ pars : List (Attr_parameter (ExprContext Atom)),
    walkParameters pars = (enteredParameters pars).forM enterAggregate_atom
  | [] => rfl
  | par :: rest => by
    rw [walkParameters, walkExpr_eq par.expr, walkParameters_eq rest, enteredParameters]
    exact List.forM_append.symm

end

/-- A loop over lists of operations is the loop over all of them. -/
theorem forM_flatMap {α : Type} {f : α → Listener Unit} {g : α → List Operation}
    (eq : ∀ x, f x = (g x).forM Operation.exec) (l : List α) :
    l.forM f = (l.flatMap g).forM Operation.exec := by
  induction l with
  | nil => rfl
  | cons x l ih =>
      have turns : (x :: l).forM f = (g x).forM Operation.exec >>= fun _ => l.forM f := by
        rw [← eq]
        rfl
      rw [turns, ih, List.flatMap_cons]
      exact List.forM_append.symm

theorem forM_atoms (ctxs : List Aggregate) :
    ctxs.forM enterAggregate_atom = (ctxs.map Operation.atom).forM Operation.exec :=
  (List.forM_map (g := Operation.atom) (f := Operation.exec)).symm

theorem walkPredicate_eq (ctx : Predicate) : walkPredicate ctx =
    (ctx.items.flatMap (PredicateItem.operations ctx)).forM Operation.exec := by
  refine forM_flatMap (fun item => ?_) ctx.items
  cases item with
  | param_mapping attr_name param_name => exact (bind_pure _).symm
  | attr_constraint cons => rfl
  | attr_parameter par => exact (walkExpr_eq par.expr).trans (forM_atoms _)

/-- The parameters of a predicate and what the walk comes to below it. -/
theorem predicate_eq (ctx : Predicate) (owner : Option CString) :
    ((ctx.attr_parameter.forM fun par => Operation.exec (.parameter owner par)) >>= fun _ =>
        walkPredicate ctx) = (ctx.operations owner).forM Operation.exec := by
  have parameters : (ctx.attr_parameter.forM fun par => Operation.exec (.parameter owner par)) =
      (ctx.attr_parameter.map (Operation.parameter owner)).forM Operation.exec :=
    (List.forM_map (g := Operation.parameter owner) (f := Operation.exec)).symm
  rw [parameters, walkPredicate_eq, Predicate.operations]
  exact List.forM_append.symm

theorem enterPredicate_eq (state : State) :
    (enterPredicate state.predicate state.reference >>= fun _ => walkPredicate state.predicate) =
      (Operation.enter state :: (Operation.enter state).body).forM Operation.exec := by
  have body := predicate_eq state.predicate (some state.predicate.name)
  have turns : (Operation.enter state :: (Operation.enter state).body).forM Operation.exec =
      enterState state >>= fun _ => (state.predicate.operations _).forM Operation.exec := rfl
  rw [turns, ← body, enterPredicate, enterState]
  simp only [bind_assoc]
  rfl

theorem walkPattern_eq (p : Pattern_predicate) :
    walkPattern p = (p.head :: p.head.body).forM Operation.exec := by
  cases p with
  | positive sel_policy ctx int_val evt_name =>
      exact enterPredicate_eq ⟨ctx, some (sel_policy, int_val, evt_name)⟩
  | negative ctx window =>
      have body := predicate_eq ctx none
      have turns : ((Pattern_predicate.negative ctx window).head ::
          (Pattern_predicate.negative ctx window).head.body).forM Operation.exec =
          enterNegation ctx window >>= fun _ => (ctx.operations none).forM Operation.exec := rfl
      rw [turns, ← body, walkPattern, enterNegative_predicate, enterNegation]
      simp only [bind_assoc]
      rfl

theorem definitions_eq (definitions : List Definition) :
    (enterDefinitions definitions >>= fun _ => definitions.forM walkDefinition) =
      ((definitions.filterMap Definition.static?).map
          (fun sdef => Operation.static sdef.1 sdef.2) ++
        (definitions.filterMap Definition.attr?).map (fun attr => Operation.attr attr.1 attr.2) ++
          definitions.flatMap Definition.operations).forM Operation.exec := by
  have walked : definitions.forM walkDefinition =
      (definitions.flatMap Definition.operations).forM Operation.exec := by
    refine forM_flatMap (fun definition => ?_) definitions
    cases definition with
    | static attr_name ref => rfl
    | attr attr_name expr => exact (walkExpr_eq expr).trans (forM_atoms _)
  rw [walked, List.forM_eq_forM, List.forM_append, List.forM_append, List.forM_map, List.forM_map,
    enterDefinitions]
  rfl

/-- The walk executes the operations of the rule between the declarations and the end. -/
theorem walk_eq (t : Trex_rule) : walk t =
    (t.event_declarations.forM enterEvent_declaration >>= fun _ =>
      enterCe_definition t.ce_definition >>= fun _ =>
        t.operations.forM Operation.exec >>= fun _ => enterEnding_rule) := by
  have heads : (t.heads.flatMap fun head => head :: head.body).forM Operation.exec =
      ((enterPredicate t.terminator none >>= fun _ => walkPredicate t.terminator) >>= fun _ =>
        t.pattern_predicates.forM walkPattern) := by
    rw [enterPredicate_eq ⟨t.terminator, none⟩, Trex_rule.heads, List.flatMap_cons,
      forM_flatMap walkPattern_eq, List.forM_eq_forM, List.forM_append, List.flatMap_map]
  have tail : t.tail.forM Operation.exec =
      ((enterDefinitions t.definitions >>= fun _ => t.definitions.forM walkDefinition) >>= fun _ =>
        enterConsuming t.consuming) := by
    rw [definitions_eq, Trex_rule.tail, List.forM_eq_forM, List.forM_append]
    rfl
  have all : t.operations.forM Operation.exec = ((t.heads.flatMap fun head =>
      head :: head.body).forM Operation.exec >>= fun _ => t.tail.forM Operation.exec) :=
    List.forM_append
  rw [all, heads, tail]
  simp only [bind_assoc]
  rfl

/-! ## What is compiled -/

/-- The leaves of a tree, with what they were made for. -/
def OpTree.leaves {α : Type} : OpTree α → List (α × Java.OpValueReference)
  | .leaf source valueRef _ => [(source, valueRef)]
  | .inner left right _ _ => left.leaves ++ right.leaves

/-- What an atom that refers to a state is compiled to. -/
def Atom.Reads (s : Parser) : Atom → Java.OpValueReference → Prop
  | .packet evt_name attr_name, ref =>
    ref = .rulePkt (indexOf s.names.rule_predicates_names evt_name) .state attr_name
  | .param param_name, ref => ∃ pmap, s.parameters_map param_name = some pmap ∧
    ref = .rulePkt pmap.indexInSequence .state pmap.attribute_name
  | _, _ => True

/-- The tree has a leaf for each atom of an expression and no others. -/
structure OpTree.ReadsFrom (tree : OpTree Atom) (s : Parser) (expr : Expr) : Prop where
  sound : ∀ leaf ∈ tree.leaves, leaf.1 ∈ expr.leaves ∧ leaf.1.Reads s leaf.2
  complete : ∀ atom ∈ expr.leaves, ∃ ref, (atom, ref) ∈ tree.leaves

/-- The aggregates and the references to them change, and names are added at the end at most. -/
inductive Grows : Parser → Parser → Prop
  | other {s s' : Parser} (aggregates : s'.rule_aggregates = s.rule_aggregates)
      (compiled : s'.compiled = s.compiled)
      (names : s.names.rule_predicates_names <+: s'.names.rule_predicates_names) : Grows s s'
  | refer {s : Parser} {ctx : Aggregate} {aggregates : List TAggregate}
      (refers : Refers s ctx aggregates) : Grows s (s.refer ctx aggregates).2
  | constraint {s : Parser} (n : Nat) (con : Constraint) : Grows s
      { s with rule_aggregates := s.rule_aggregates.modify n fun a => a.addConstraint con }
  | trans {s mid s' : Parser} (first : Grows s mid) (second : Grows mid s') : Grows s s'

theorem Grows.refl (s : Parser) : Grows s s := .other rfl rfl (List.prefix_refl _)

/-- What is left alone when an expression is compiled. -/
structure Beside (s s' : Parser) : Prop where
  names : s'.names = s.names
  parameters_map : s'.parameters_map = s.parameters_map
  negations : s'.rule_negations = s.rule_negations
  template : s'.rule_template = s.rule_template
  consuming : s'.rule_consuming = s.rule_consuming
  grows : Grows s s'

theorem Beside.refl (s : Parser) : Beside s s := ⟨rfl, rfl, rfl, rfl, rfl, .refl s⟩

theorem Beside.trans {s mid s' : Parser} (first : Beside s mid) (second : Beside mid s') :
    Beside s s' where
  names := second.names.trans first.names
  parameters_map := second.parameters_map.trans first.parameters_map
  negations := second.negations.trans first.negations
  template := second.template.trans first.template
  consuming := second.consuming.trans first.consuming
  grows := first.grows.trans second.grows

theorem Atom.Reads.beside {s mid : Parser} (beside : Beside s mid) {atom : Atom}
    {ref : Java.OpValueReference} (reads : atom.Reads mid ref) : atom.Reads s ref := by
  cases atom with
  | static val => trivial
  | aggregate ctx => trivial
  | packet evt_name attr_name =>
      rw [Atom.Reads, ← beside.names]
      exact reads
  | param param_name =>
      rw [Atom.Reads, ← beside.parameters_map]
      exact reads

/-! ### Expressions -/

section Expressions

variable {s s' : Parser}

theorem reference_reads {valType : Option ValType} {leaf : Atom}
    {x : (Java.OpValueReference × Option ValType) × Parser}
    (run : reference valType leaf s = some x) :
    leaf.Reads s x.1.1 ∧ Beside s x.2 ∧ x.2.rule_parameters = s.rule_parameters := by
  cases leaf with
  | static ref =>
      obtain ⟨value, -, rest⟩ := lift_bind_eq_some.mp run
      cases rest
      exact ⟨trivial, .refl s, rfl⟩
  | param param_name =>
      rw [reference, get_bind] at run
      obtain ⟨pmap, mapped, rest⟩ := lift_bind_eq_some.mp run
      cases rest
      exact ⟨⟨pmap, mapped, rfl⟩, .refl s, rfl⟩
  | packet evt_name attr_name =>
      cases run
      exact ⟨rfl, .refl s, rfl⟩
  | aggregate ctx =>
      have isMap : reference valType (.aggregate ctx) s =
          (referToAggregate ctx s).map fun x => ((x.1, valType), x.2) := map_run _ _ _
      rw [isMap] at run
      obtain ⟨y, refer, made⟩ := Option.map_eq_some_iff.mp run
      obtain ⟨aggregates, refers, same⟩ := referToAggregate_eq_some.mp refer
      rw [← made, ← same]
      exact ⟨trivial, ⟨rfl, rfl, rfl, rfl, rfl, .refer refers⟩, rfl⟩

theorem traverse_reads {valType : Option ValType} {expr : Expr}
    {x : ExprContext (Leaf Atom) × Parser}
    (run : expr.traverse (readLeaf valType id) s = some x) :
    (∀ leaf ∈ x.1.leaves, leaf.1.Reads s leaf.2.1) ∧ x.1.leaves.map Prod.fst = expr.leaves ∧
      Beside s x.2 ∧ x.2.rule_parameters = s.rule_parameters := by
  induction expr generalizing s x with
  | atom leaf =>
      rw [ExprContext.traverse, map_run, readLeaf_run, Option.map_map] at run
      obtain ⟨y, isReference, made⟩ := Option.map_eq_some_iff.mp run
      obtain ⟨reads, beside, parameters⟩ := reference_reads isReference
      rw [← made]
      refine ⟨fun leaf' mem => ?_, rfl, beside, parameters⟩
      rw [List.mem_singleton.mp mem]
      exact reads
  | paren ex ih =>
      rw [ExprContext.traverse, map_run] at run
      obtain ⟨y, inner, made⟩ := Option.map_eq_some_iff.mp run
      have facts := ih inner
      rw [← made]
      exact facts
  | binop left op right ihLeft ihRight =>
      obtain ⟨l, mid, first, second⟩ := bind_eq_some.mp run
      rw [map_run] at second
      obtain ⟨z, isSecond, made⟩ := Option.map_eq_some_iff.mp second
      obtain ⟨readsLeft, leavesLeft, besideLeft, parametersLeft⟩ := ihLeft first
      obtain ⟨readsRight, leavesRight, besideRight, parametersRight⟩ := ihRight isSecond
      rw [← made]
      refine ⟨fun leaf mem => ?_, ?_, besideLeft.trans besideRight,
        parametersRight.trans parametersLeft⟩
      · rcases List.mem_append.mp mem with inLeft | inRight
        · exact readsLeft leaf inLeft
        · exact (readsRight leaf inRight).beside besideLeft
      · show (l.leaves ++ z.1.leaves).map Prod.fst = left.leaves ++ right.leaves
        rw [List.map_append, leavesLeft, leavesRight]

/-- The leaves of a tree that may not be there yet. -/
def leavesOf {α : Type} (tree : Option (OpTree α)) : List (α × Java.OpValueReference) :=
  tree.elim [] OpTree.leaves

theorem leaves_join {α : Type} (tree : Option (OpTree α)) (op : Option OpTreeOperation)
    (ex : OpTree α) : (join tree op ex).leaves = leavesOf tree ++ ex.leaves := by
  cases tree <;> rfl

/-- The tree that is built onto another has the leaves that were read and no others but those of
the other. -/
theorem leaves_assemble {α : Type} (expr : ExprContext (Leaf α)) (tree : Option (OpTree α)) :
    (∀ leaf ∈ (expr.assemble tree).leaves,
      leaf ∈ expr.leaves.map (fun l => (l.1, l.2.1)) ∨ leaf ∈ leavesOf tree) ∧
    ∀ leaf ∈ expr.leaves.map (fun l => (l.1, l.2.1)), leaf ∈ (expr.assemble tree).leaves := by
  induction expr generalizing tree with
  | atom leaf => exact ⟨fun leaf mem => .inl mem, fun leaf mem => mem⟩
  | paren ex ih =>
      obtain ⟨only, all⟩ := ih tree
      rw [ExprContext.assemble, leaves_join]
      refine ⟨fun leaf mem => ?_, fun leaf mem => List.mem_append_right _ (all leaf mem)⟩
      rcases List.mem_append.mp mem with given | read
      · exact .inr given
      · exact only leaf read
  | binop left op right ihLeft ihRight =>
      obtain ⟨onlyLeft, allLeft⟩ := ihLeft tree
      obtain ⟨onlyRight, allRight⟩ := ihRight
        (some (join tree (some (getBinOp op)) (left.assemble tree)))
      have here : leavesOf (some (join tree (some (getBinOp op)) (left.assemble tree))) =
          leavesOf tree ++ (left.assemble tree).leaves := leaves_join tree _ _
      have upToLeft : ∀ leaf ∈ leavesOf tree ++ (left.assemble tree).leaves,
          leaf ∈ (ExprContext.binop left op right).leaves.map (fun l => (l.1, l.2.1)) ∨
            leaf ∈ leavesOf tree := by
        intro leaf mem
        rcases List.mem_append.mp mem with given | read
        · exact .inr given
        · refine (onlyLeft leaf read).imp_left fun inLeft => ?_
          rw [ExprContext.leaves, List.map_append]
          exact List.mem_append_left _ inLeft
      rw [ExprContext.assemble, OpTree.leaves, leaves_join]
      refine ⟨fun leaf mem => ?_, fun leaf mem => ?_⟩
      · rcases List.mem_append.mp mem with before | read
        · exact upToLeft leaf before
        · rcases onlyRight leaf read with inRight | before
          · rw [ExprContext.leaves, List.map_append]
            exact .inl (List.mem_append_right _ inRight)
          · exact upToLeft leaf (here ▸ before)
      · rw [ExprContext.leaves, List.map_append] at mem
        rcases List.mem_append.mp mem with inLeft | inRight
        · exact List.mem_append_left _ (List.mem_append_right _ (allLeft leaf inLeft))
        · exact List.mem_append_right _ (allRight leaf inRight)

theorem buildOpTree_reads {valType : Option ValType} {expr : Expr} {tree : OpTree Atom}
    (run : buildOpTree valType id expr s = some (tree, s')) :
    tree.ReadsFrom s expr ∧ Beside s s' ∧ s'.rule_parameters = s.rule_parameters := by
  rw [buildOpTree_run] at run
  obtain ⟨x, read, made⟩ := Option.map_eq_some_iff.mp run
  cases made
  obtain ⟨reads, leaves, beside, parameters⟩ := traverse_reads read
  obtain ⟨only, all⟩ := leaves_assemble x.1 none
  refine ⟨⟨fun leaf mem => ?_, fun atom mem => ?_⟩, beside, parameters⟩
  · rcases only leaf mem with isRead | none
    · obtain ⟨l, inLeaves, made⟩ := List.mem_map.mp isRead
      rw [← made, ← leaves]
      exact ⟨List.mem_map_of_mem inLeaves, reads l inLeaves⟩
    · exact (List.not_mem_nil none).elim
  · rw [← leaves] at mem
    obtain ⟨l, inLeaves, made⟩ := List.mem_map.mp mem
    rw [← made]
    exact ⟨l.2.1, all _ (List.mem_map.mpr ⟨l, inLeaves, rfl⟩)⟩

end Expressions

/-! ### Parameters -/

/-- A parameter of the rule, for one that stands in a predicate or an aggregate. -/
structure ComplexParameter.MadeFrom (p : ComplexParameter) (s : Parser) (par : Parameter)
    (index : Int) (type : StateType) : Prop where
  sType : p.sType = type
  left : p.leftTree =
    .leaf par (.rulePkt index type par.attr_name) (some (getValType par.valtype))
  right : p.rightTree.ReadsFrom s par.expr

theorem ComplexParameter.MadeFrom.beside {s mid : Parser} (beside : Beside s mid)
    {p : ComplexParameter} {par : Parameter} {index : Int} {type : StateType}
    (made : p.MadeFrom mid par index type) : p.MadeFrom s par index type where
  sType := made.sType
  left := made.left
  right := ⟨fun leaf mem => (made.right.sound leaf mem).imp_right fun reads => reads.beside beside,
    made.right.complete⟩

section Parameters

variable {s s' : Parser}

theorem addParameter_made {par : Parameter} {index : Int} {type : StateType}
    (run : addParameter par index type s = some ((), s')) :
    ∃ p, p.MadeFrom s par index type ∧ s'.rule_parameters = s.rule_parameters ++ [p] ∧
      Beside s s' := by
  obtain ⟨rightTree, mid, built, rest⟩ := bind_eq_some.mp run
  obtain ⟨reads, beside, parameters⟩ := buildOpTree_reads built
  cases rest
  refine ⟨_, ⟨rfl, rfl, reads⟩, congrArg (· ++ _) parameters, beside.trans ?_⟩
  exact ⟨rfl, rfl, rfl, rfl, rfl, .other rfl rfl (List.prefix_refl _)⟩

theorem addParameters_made {index : Parser → Int} {type : StateType} {pars : List Parameter}
    (run : (pars.forM fun par => do addParameter par (index (← get)) type) s = some ((), s')) :
    (∃ new, s'.rule_parameters = s.rule_parameters ++ new ∧
      List.Forall₂ (fun p par => ∃ index, p.MadeFrom s par index type) new pars) ∧
    Beside s s' := by
  refine forM_induct (R := fun s pars s' => (∃ new,
    s'.rule_parameters = s.rule_parameters ++ new ∧
      List.Forall₂ (fun p par => ∃ index, p.MadeFrom s par index type) new pars) ∧ Beside s s')
    ?_ ?_ run
  · intro s
    exact ⟨⟨[], (List.append_nil _).symm, .nil⟩, .refl s⟩
  · intro par pars s mid s' turn ⟨⟨new, added, rest⟩, behind⟩
    rw [get_bind] at turn
    obtain ⟨p, made, first, beside⟩ := addParameter_made turn
    refine ⟨⟨p :: new, ?_, .cons ⟨_, made⟩ ?_⟩, beside.trans behind⟩
    · rw [added, first, List.append_assoc]
      rfl
    · exact rest.imp fun p par made => made.imp fun index made => made.beside beside

theorem addAggregateConstraints_beside {aggr : Option Nat} {cons : List Attr_constraint}
    (run : cons.forM (addAggregateConstraint aggr) s = some ((), s')) :
    Beside s s' ∧ s'.rule_parameters = s.rule_parameters := by
  refine forM_keeps (R := fun s s' => Beside s s' ∧ s'.rule_parameters = s.rule_parameters)
    (fun s => ⟨.refl s, rfl⟩)
    (fun first second => ⟨first.1.trans second.1, second.2.trans first.2⟩) ?_ run
  intro con s s' turn
  obtain ⟨position, -, turn⟩ := lift_bind_eq_some.mp turn
  obtain ⟨c, -, turn⟩ := lift_bind_eq_some.mp turn
  cases turn
  exact ⟨⟨rfl, rfl, rfl, rfl, rfl, .constraint position c⟩, rfl⟩

theorem enterAggregate_atom_made {ctx : Aggregate}
    (run : enterAggregate_atom ctx s = some ((), s')) :
    (∃ new, s'.rule_parameters = s.rule_parameters ++ new ∧
      List.Forall₂ (fun p par => ∃ index, p.MadeFrom s par index .agg) new ctx.attr_parameter) ∧
    Beside s s' := by
  rw [enterAggregate_atom, get_bind] at run
  obtain ⟨aggr, -, run⟩ := lift_bind_eq_some.mp run
  obtain ⟨_, mid, constraints, parameters⟩ := bind_eq_some.mp run
  obtain ⟨beside, same⟩ := addAggregateConstraints_beside constraints
  obtain ⟨⟨new, added, all⟩, behind⟩ := addParameters_made parameters
  refine ⟨⟨new, by rw [added, same], ?_⟩, beside.trans behind⟩
  exact all.imp fun p par made => made.imp fun index made => made.beside beside

end Parameters

/-! ## Entering a state -/

namespace State

variable (state : State)

def policy : CompKind := state.reference.elim .eachWithin fun ref => getCompKind ref.1

def window : Nat := state.reference.elim 0 fun ref => ref.2.1

/-- The index of the state that it refers to, among the states with some names. -/
def refersTo (names : List CString) : Int :=
  state.reference.elim (-1) fun ref => indexOf names ref.2.2

/-- The predicate of a packet that a state is compiled to. -/
structure IsCompiled (names : Names) (ep : EventPredicate) : Prop where
  eventType : names.predicates_map state.predicate.evt_name = some ep.eventType
  constraints : state.predicate.constraints = some ep.constraints
  refersTo : ep.refersTo = state.refersTo names.rule_predicates_names
  win : ep.win = state.window
  kind : ep.kind = state.policy

end State

theorem parseInt_eq_some {digits : Nat} {v : Int} (parsed : parseInt digits = some v) :
    v = digits := by
  rw [parseInt] at parsed
  split at parsed
  · exact (Option.some.inj parsed).symm
  · cases parsed

namespace Names

variable {names names' : Names} {state : State}

def enterState (names : Names) (state : State) : Option Names :=
  names.enter state.predicate state.reference

theorem enterState_eq_some (entered : names.enterState state = some names') :
    ∃ ep, state.IsCompiled names ep ∧ names' =
      (names.addAlias state.predicate.event_alias ep.eventType).addPredicate ep
        state.predicate.name := by
  obtain ⟨ctx, reference⟩ := state
  obtain ⟨eventType, known, entered⟩ := Option.bind_eq_some_iff.mp entered
  obtain ⟨constraints, parsed, entered⟩ := Option.bind_eq_some_iff.mp entered
  cases reference with
  | none =>
      cases entered
      exact ⟨⟨eventType, constraints, -1, 0, .eachWithin⟩, ⟨known, parsed, rfl, rfl, rfl⟩, rfl⟩
  | some ref =>
      obtain ⟨v, isInt, entered⟩ := Option.bind_eq_some_iff.mp entered
      cases entered
      exact ⟨⟨eventType, constraints, indexOf names.rule_predicates_names ref.2.2, v,
        getCompKind ref.1⟩, ⟨known, parsed, rfl, parseInt_eq_some isInt, rfl⟩, rfl⟩

@[simp] theorem addAlias_predicates (evt_alias : Option CString) (eventId : Int) :
    (names.addAlias evt_alias eventId).rule_predicates = names.rule_predicates := by
  cases evt_alias <;> rfl

@[simp] theorem addAlias_names (evt_alias : Option CString) (eventId : Int) :
    (names.addAlias evt_alias eventId).rule_predicates_names = names.rule_predicates_names := by
  cases evt_alias <;> rfl

theorem enterState_prefix (entered : names.enterState state = some names') :
    names.rule_predicates_names <+: names'.rule_predicates_names := by
  obtain ⟨ep, -, made⟩ := enterState_eq_some entered
  rw [made, addPredicate, addAlias_predicates]
  split
  · rw [addAlias_names]
  · rw [addAlias_names]
    exact List.prefix_append _ _

end Names

/-! ## What an operation does -/

namespace Operation

def state? : Operation → Option State
  | .enter state => some state
  | _ => none

def negation? : Operation → Option (Predicate × Window)
  | .negate ctx window => some (ctx, window)
  | _ => none

/-- The parameters that are made. -/
def parameters : Operation → List Parameter
  | .parameter _ par => [par]
  | .atom ctx => ctx.attr_parameter
  | _ => []

def expr? : Operation → Option Expr
  | .attr _ expr => some expr
  | _ => none

def consumed : Operation → List CString
  | .consume names => names
  | _ => []

/-- What the parameters belong to. -/
def Owns (s : Parser) (index : Int) (type : StateType) : Operation → Prop
  | .parameter (some name) _ =>
    type = .state ∧ index = indexOf s.names.rule_predicates_names name
  | .parameter none _ => type = .neg
  | .atom _ => type = .agg
  | _ => False

end Operation

def Parser.attributes (s : Parser) : List (CString × OpTree Atom) :=
  s.rule_template.elim [] EventTemplate.attributes

/-- All that one operation does. -/
structure Effect (op : Operation) (s s' : Parser) : Prop where
  names : op.state?.elim (some s.names) s.names.enterState = some s'.names
  parameters_map : ∀ param_name pmap, s'.parameters_map param_name = some pmap →
    s.parameters_map param_name = some pmap ∨
      ∃ predCtx attr_name, op = .mapping predCtx attr_name param_name ∧
        pmap.indexInSequence = indexOf s.names.rule_predicates_names predCtx.name ∧
        pmap.attribute_name = attr_name
  negations : ∃ new, s'.rule_negations = s.rule_negations ++ new ∧
    List.Forall₂ (fun neg negation =>
      negation.2.bounds parseLong s.names.rule_predicates_names =
        some (neg.lowerId, neg.lowerTime, neg.upperId)) new op.negation?.toList
  parameters : ∃ new, s'.rule_parameters = s.rule_parameters ++ new ∧
    List.Forall₂ (fun p par => ∃ index type, p.MadeFrom s par index type ∧ op.Owns s index type)
      new op.parameters
  attributes : ∃ new, s'.attributes = s.attributes ++ new ∧
    List.Forall₂ (fun attr expr => attr.2.ReadsFrom s expr) new op.expr?.toList
  consuming : s'.rule_consuming =
    s.rule_consuming ++ op.consumed.map (indexOf s.names.rule_predicates_names)
  grows : Grows s s'

section Effects

variable {s s' : Parser} {op : Operation}

theorem nothing_added {α β : Type} {R : α → β → Prop} (l : List α) :
    ∃ new, l = l ++ new ∧ List.Forall₂ R new [] :=
  ⟨[], (List.append_nil l).symm, .nil⟩

/-- An operation that at most compiles expressions. -/
theorem Beside.effect (beside : Beside s s') (noState : op.state? = none)
    (noNegation : op.negation? = none) (noExpr : op.expr? = none) (noConsumed : op.consumed = [])
    (parameters : ∃ new, s'.rule_parameters = s.rule_parameters ++ new ∧ List.Forall₂
      (fun p par => ∃ index type, p.MadeFrom s par index type ∧ op.Owns s index type)
        new op.parameters) : Effect op s s' where
  names := by rw [noState, Option.elim_none, beside.names]
  parameters_map param_name pmap mapped := .inl (beside.parameters_map ▸ mapped)
  negations := ⟨[], by rw [beside.negations, List.append_nil], by rw [noNegation]; exact .nil⟩
  parameters := parameters
  attributes := by
    refine ⟨[], ?_, by rw [noExpr]; exact .nil⟩
    rw [Parser.attributes, Parser.attributes, beside.template, List.append_nil]
  consuming := by rw [noConsumed, beside.consuming, List.map_nil, List.append_nil]
  grows := beside.grows

/-- A state adds its predicate to the names. -/
theorem effect_enter {state : State} (run : Operation.exec (.enter state) s = some ((), s')) :
    Effect (.enter state) s s' := by
  rw [Operation.exec, enterState, get_bind] at run
  obtain ⟨names, entered, rest⟩ := lift_bind_eq_some.mp run
  cases rest
  exact {
    names := entered
    parameters_map := fun _ _ mapped => .inl mapped
    negations := nothing_added _
    parameters := nothing_added _
    attributes := nothing_added _
    consuming := (List.append_nil _).symm
    grows := .other rfl rfl (Names.enterState_prefix entered) }

/-- A negation is added with the bounds of its window. -/
theorem effect_negate {ctx : Predicate} {window : Window}
    (run : Operation.exec (.negate ctx window) s = some ((), s')) :
    Effect (.negate ctx window) s s' := by
  rw [Operation.exec, enterNegation, get_bind] at run
  obtain ⟨eventType, -, rest⟩ := lift_bind_eq_some.mp run
  obtain ⟨bounds, isBounds, rest⟩ := lift_bind_eq_some.mp rest
  obtain ⟨constraints, -, rest⟩ := lift_bind_eq_some.mp rest
  cases rest
  exact {
    names := rfl
    parameters_map := fun _ _ mapped => .inl mapped
    negations := ⟨_, rfl, .cons isBounds .nil⟩
    parameters := nothing_added _
    attributes := nothing_added _
    consuming := (List.append_nil _).symm
    grows := .other rfl rfl (List.prefix_refl _) }

/-- A parameter is added, and made of its text. -/
theorem effect_parameter {owner : Option CString} {par : Parameter}
    (run : Operation.exec (.parameter owner par) s = some ((), s')) :
    Effect (.parameter owner par) s s' := by
  cases owner with
  | some name =>
      obtain ⟨p, made, added, beside⟩ := addParameter_made run
      exact beside.effect rfl rfl rfl rfl ⟨[p], added, .cons ⟨_, _, made, rfl, rfl⟩ .nil⟩
  | none =>
      obtain ⟨p, made, added, beside⟩ := addParameter_made run
      exact beside.effect rfl rfl rfl rfl ⟨[p], added, .cons ⟨_, _, made, rfl⟩ .nil⟩

/-- A name is mapped, unless it is mapped already. -/
theorem effect_mapping {predCtx : Predicate} {attr_name param_name : CString}
    (run : Operation.exec (.mapping predCtx attr_name param_name) s = some ((), s')) :
    Effect (.mapping predCtx attr_name param_name) s s' := by
  rw [Operation.exec, enterParam_mapping, get_bind] at run
  obtain ⟨eventId, -, rest⟩ := lift_bind_eq_some.mp run
  by_cases free : (s.parameters_map param_name).isNone
  · rw [if_pos free] at rest
    cases rest
    exact {
      names := rfl
      parameters_map := by
        intro other pmap mapped
        by_cases same : other = param_name
        · rw [same] at mapped ⊢
          cases (Function.update_self ..).symm.trans mapped
          exact .inr ⟨predCtx, attr_name, rfl, rfl, rfl⟩
        · exact .inl ((Function.update_of_ne same ..).symm.trans mapped)
      negations := nothing_added _
      parameters := nothing_added _
      attributes := nothing_added _
      consuming := (List.append_nil _).symm
      grows := .other rfl rfl (List.prefix_refl _) }
  · rw [if_neg free] at rest
    cases rest
    exact (Beside.refl s).effect rfl rfl rfl rfl (nothing_added _)

/-- The parameters of an aggregate are added. -/
theorem effect_atom {ctx : Aggregate} (run : Operation.exec (.atom ctx) s = some ((), s')) :
    Effect (.atom ctx) s s' := by
  obtain ⟨⟨new, added, all⟩, beside⟩ := enterAggregate_atom_made run
  refine beside.effect rfl rfl rfl rfl ⟨new, added, ?_⟩
  exact all.imp fun p par made => made.imp fun index made => ⟨.agg, made, rfl⟩

/-- A static attribute leaves the computed ones alone. -/
theorem effect_static {attr_name : CString} {ref : Static_reference}
    (run : Operation.exec (.static attr_name ref) s = some ((), s')) :
    Effect (.static attr_name ref) s s' := by
  rw [Operation.exec, addStaticAttribute, get_bind] at run
  obtain ⟨sattr, -, rest⟩ := lift_bind_eq_some.mp run
  obtain ⟨template, isTemplate, rest⟩ := lift_bind_eq_some.mp rest
  cases rest
  exact {
    names := rfl
    parameters_map := fun _ _ mapped => .inl mapped
    negations := nothing_added _
    parameters := nothing_added _
    attributes := by
      refine ⟨[], ?_, .nil⟩
      rw [List.append_nil, Parser.attributes, Parser.attributes, isTemplate]
      rfl
    consuming := (List.append_nil _).symm
    grows := .other rfl rfl (List.prefix_refl _) }

/-- A computed attribute is added, and made of its expression. -/
theorem effect_attr {attr_name : CString} {expr : Expr}
    (run : Operation.exec (.attr attr_name expr) s = some ((), s')) :
    Effect (.attr attr_name expr) s s' := by
  rw [Operation.exec, addAttribute, get_bind] at run
  obtain ⟨tree, mid, built, rest⟩ := bind_eq_some.mp run
  rw [get_bind] at rest
  obtain ⟨template, isTemplate, rest⟩ := lift_bind_eq_some.mp rest
  obtain ⟨reads, beside, parameters⟩ := buildOpTree_reads built
  cases rest
  exact {
    names := congrArg some beside.names.symm
    parameters_map := fun _ _ mapped => .inl (beside.parameters_map ▸ mapped)
    negations := ⟨[], beside.negations.trans (List.append_nil _).symm, .nil⟩
    parameters := ⟨[], parameters.trans (List.append_nil _).symm, .nil⟩
    attributes := by
      refine ⟨[(attr_name, tree)], ?_, .cons reads .nil⟩
      rw [Parser.attributes, Parser.attributes, ← beside.template, isTemplate]
      rfl
    consuming := beside.consuming.trans (List.append_nil _).symm
    grows := beside.grows.trans (.other rfl rfl (List.prefix_refl _)) }

/-- The positions of the consumed events are added. -/
theorem effect_consume {names : List CString}
    (run : Operation.exec (.consume names) s = some ((), s')) :
    Effect (.consume names) s s' := by
  cases run
  exact {
    names := rfl
    parameters_map := fun _ _ mapped => .inl mapped
    negations := nothing_added _
    parameters := nothing_added _
    attributes := nothing_added _
    consuming := rfl
    grows := .other rfl rfl (List.prefix_refl _) }

/-- Each operation has its effect when it returns. -/
theorem exec_effect (run : op.exec s = some ((), s')) : Effect op s s' := by
  cases op with
  | enter state => exact effect_enter run
  | negate ctx window => exact effect_negate run
  | parameter owner par => exact effect_parameter run
  | mapping predCtx attr_name param_name => exact effect_mapping run
  | atom ctx => exact effect_atom run
  | static attr_name ref => exact effect_static run
  | attr attr_name expr => exact effect_attr run
  | consume names => exact effect_consume run

end Effects

end TRex.Tesla
