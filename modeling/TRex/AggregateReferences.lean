import TRex.AggregateTable

/-!
# References to aggregates

An expression is compiled as a whole when its predicate or its definition is entered, and the atoms
in the parameters of its aggregates are when the walk has come to those. `mentions` lists the atoms
of a rule in that order. Each reference is to the aggregate of its own atom if and only if the
atoms that ask for the same function of the same attribute of the same event type are alike and
none of the others is new between them.
-/

namespace TRex.Tesla

open Stateful FirstSeen

/-! ## The atoms of a rule -/

def Atom.aggregate? : Atom → Option Aggregate
  | .aggregate ctx => some ctx
  | _ => none

/-- The atoms that are compiled with an expression. -/
def ExprContext.aggregates (expr : Expr) : List Aggregate := expr.leaves.filterMap Atom.aggregate?

/-- The atoms that are compiled when one is entered. -/
def Aggregate_atom.inner (ctx : Aggregate) : List Aggregate :=
  ctx.attr_parameter.flatMap fun par => par.expr.aggregates

mutual

/-- The atoms that the walk comes to, in its order. -/
def entered : ExprContext Atom → List Aggregate
  | .atom leaf => enteredAtom leaf
  | .paren expr => entered expr
  | .binop left _ right => entered left ++ entered right

def enteredAtom : Atom → List Aggregate
  | .aggregate ctx => ctx :: enteredParameters ctx.attr_parameter
  | _ => []

def enteredParameters : List (Attr_parameter (ExprContext Atom)) → List Aggregate
  | [] => []
  | par :: rest => entered par.expr ++ enteredParameters rest

end

/-- A predicate or the definitions of a rule: the names and the expressions. -/
structure Section where
  names : Names
  exprs : List Expr

namespace Section

variable (sec : Section)

def entered : List Aggregate := sec.exprs.flatMap Tesla.entered

/-- The atoms in the order in which they are compiled. -/
def mentions : List Mention :=
  (sec.exprs.flatMap ExprContext.aggregates ++ sec.entered.flatMap Aggregate_atom.inner).map
    (Mention.mk sec.names)

def pieces : List (AggregateKey × Piece) :=
  sec.entered.flatMap fun ctx => (Mention.mk sec.names ctx).pieces

end Section

def Predicate.exprs (ctx : Predicate) : List Expr := ctx.attr_parameter.map Attr_parameter.expr

def Names.declare (names : Names) (name : CString) (id : Int) : Names :=
  { names with predicates_map := Function.update names.predicates_map name (some id) }

/-- The names when the declarations have been read. -/
def Names.declarations : Names → List (Nat × CString) → Option Names
  | names, [] => some names
  | names, ctx :: rest => do (names.declare ctx.2 (← parseInt ctx.1)).declarations rest

def Pattern_predicate.predicate : Pattern_predicate → Predicate
  | .positive _ predicate _ _ => predicate
  | .negative predicate _ => predicate

/-- The names when a predicate of the pattern has been entered. -/
def Pattern_predicate.enter (names : Names) : Pattern_predicate → Option Names
  | .positive sel_policy predicate int_val evt_name =>
    names.enter predicate (some (sel_policy, int_val, evt_name))
  | .negative _ _ => some names

/-- The sections of some predicates, and the names behind them. -/
def Names.pattern : Names → List Pattern_predicate → Option (List Section × Names)
  | names, [] => some ([], names)
  | names, p :: rest => do
    let names ← p.enter names
    let (sections, last) ← names.pattern rest
    return (⟨names, p.predicate.exprs⟩ :: sections, last)

def Trex_rule.sections (t : Trex_rule) : Option (List Section) := do
  let names ← Parser.new.names.declarations t.event_declarations
  let names ← names.enter t.terminator none
  let (pattern, last) ← names.pattern t.pattern_predicates
  return ⟨names, t.terminator.exprs⟩ :: pattern ++
    [⟨last, (t.definitions.filterMap Definition.attr?).map Prod.snd⟩]

/-- The atoms of a rule in the order in which they are compiled. -/
def Trex_rule.mentions (t : Trex_rule) : Option (List Mention) :=
  t.sections.map fun sections => sections.flatMap Section.mentions

/-! ## Aggregates of their own -/

/-- Two atoms with the same window, constraints and parameters. A window is compared by the bounds
it is compiled to, with the names that are known at the atom: a name that the pattern introduces
later is -1 as any other unknown one. -/
structure Mention.Alike (m m' : Mention) : Prop where
  bounds : m.bounds = m'.bounds
  constraints : ∀ c, c ∈ m.constraints ↔ c ∈ m'.constraints
  parameters : ∀ par, par ∈ m.atom.attr_parameter ↔ par ∈ m'.atom.attr_parameter

/-- The aggregate at a position has the function, the event type, the attribute and the window of an
atom, and its constraints and parameters and no others. The window is that of the names known at the
atom: where it names a later state, the bound -1 counts as its own. -/
structure Mention.IsOwn (m : Mention) (rule : RulePkt) (n : Nat) (agg : TAggregate) : Prop where
  isFor : agg.IsFor m.names m.atom
  bounds : m.bounds = some (agg.lowerId, agg.lowerTime, agg.upperId)
  constraints : ∀ c, c ∈ agg.constraints ↔ c ∈ m.constraints
  parameters : ∀ par, (∃ p ∈ rule.parameters, p.IsOf par n .agg) ↔ par ∈ m.atom.attr_parameter

/-- Each reference is to the aggregate of its own atom, and atoms that differ have different
ones. -/
structure OneToOne (compiled : List Compiled) (rule : RulePkt) : Prop where
  own : ∀ c ∈ compiled, ∃ (n : Nat) (agg : TAggregate), c.reference = n ∧
    rule.aggregates[n]? = some agg ∧ c.mention.IsOwn rule n agg
  apart : ∀ c ∈ compiled, ∀ c' ∈ compiled, ¬ c.mention.Alike c'.mention → c.reference ≠ c'.reference

/-- Atoms with the same key are alike, and none with another key is new between them. -/
structure Separable (mentions : List Mention) : Prop where
  alike : ∀ m ∈ mentions, ∀ m' ∈ mentions, m.key = m'.key → m.Alike m'
  unparted : Unparted (mentions.map Mention.key)

/-! ## Expressions -/

section Expressions

variable {names : Names} {s s' : Parser}

theorem reference_adds (isNames : s.names = names) {valType : Option ValType} {leaf : Atom}
    {x : (Java.OpValueReference × Option ValType) × Parser}
    (run : reference valType leaf s = some x) :
    Adds s x.2 names (leaf.aggregate?.toList.map (Mention.mk names)) [] := by
  subst isNames
  cases leaf with
  | static ref =>
      obtain ⟨value, -, rest⟩ := lift_bind_eq_some.mp run
      cases rest
      exact .refl s
  | param param_name =>
      rw [reference, get_bind] at run
      obtain ⟨pmap, -, rest⟩ := lift_bind_eq_some.mp run
      cases rest
      exact .refl s
  | packet evt_name attr_name =>
      cases run
      exact .refl s
  | aggregate ctx =>
      have isMap : reference valType (.aggregate ctx) s =
          (referToAggregate ctx s).map fun x => ((x.1, valType), x.2) := map_run _ _ _
      rw [isMap] at run
      obtain ⟨y, refer, rfl⟩ := Option.map_eq_some_iff.mp run
      obtain ⟨aggregates, refers, rfl⟩ := referToAggregate_eq_some.mp refer
      exact refers.adds

theorem traverse_adds (isNames : s.names = names) {valType : Option ValType} {expr : Expr}
    {x : ExprContext (Leaf Atom) × Parser}
    (run : expr.traverse (readLeaf valType id) s = some x) :
    Adds s x.2 names (expr.aggregates.map (Mention.mk names)) [] := by
  induction expr generalizing s x with
  | atom leaf =>
      rw [ExprContext.traverse, map_run, readLeaf_run, Option.map_map] at run
      obtain ⟨y, isReference, rfl⟩ := Option.map_eq_some_iff.mp run
      have adds := reference_adds isNames isReference
      have same : (ExprContext.atom leaf).aggregates = leaf.aggregate?.toList := by
        cases leaf <;> rfl
      rw [same]
      exact adds
  | paren ex ih =>
      rw [ExprContext.traverse, map_run] at run
      obtain ⟨y, inner, rfl⟩ := Option.map_eq_some_iff.mp run
      have adds := ih isNames inner
      exact adds
  | binop left op right ihLeft ihRight =>
      obtain ⟨l, mid, first, second⟩ := bind_eq_some.mp run
      rw [map_run] at second
      obtain ⟨z, isSecond, rfl⟩ := Option.map_eq_some_iff.mp second
      have addsLeft := ihLeft isNames first
      have adds := addsLeft.trans (ihRight addsLeft.names isSecond)
      rw [ExprContext.aggregates, ExprContext.leaves, List.filterMap_append, List.map_append]
      exact adds

theorem buildOpTree_adds (isNames : s.names = names) {valType : Option ValType} {expr : Expr}
    {tree : OpTree Atom} (run : buildOpTree valType id expr s = some (tree, s')) :
    Adds s s' names (expr.aggregates.map (Mention.mk names)) [] := by
  rw [buildOpTree_run] at run
  obtain ⟨x, read, made⟩ := Option.map_eq_some_iff.mp run
  cases made
  exact traverse_adds isNames read

/-- A parameter is compiled with the atoms of its expression. -/
theorem addParameter_adds (isNames : s.names = names) {par : Parameter} {index : Int}
    {type : StateType} (run : addParameter par index type s = some ((), s')) :
    ∃ mid p, Adds s mid names (par.expr.aggregates.map (Mention.mk names)) [] ∧
      p.IsOf par index type ∧ s' = { mid with rule_parameters := mid.rule_parameters ++ [p] } := by
  obtain ⟨rightTree, mid, built, rest⟩ := bind_eq_some.mp run
  cases rest
  exact ⟨mid, _, buildOpTree_adds isNames built, ⟨s, rightTree, mid, built, rfl⟩, rfl⟩

/-- Parameters that belong to no aggregate. -/
theorem addParameters_adds (isNames : s.names = names) {index : Parser → Int} {type : StateType}
    (other : type ≠ .agg) {pars : List Parameter}
    (run : (pars.forM fun par => do addParameter par (index (← get)) type) s = some ((), s')) :
    Adds s s' names ((pars.map Attr_parameter.expr).flatMap ExprContext.aggregates |>.map
      (Mention.mk names)) [] := by
  refine forM_induct (R := fun s pars s' => s.names = names → Adds s s' names
    ((pars.map Attr_parameter.expr).flatMap ExprContext.aggregates |>.map (Mention.mk names)) [])
    ?_ ?_ run isNames
  · intro s isNames
    exact isNames ▸ .refl s
  · intro par pars s mid s' turn rest isNames
    obtain ⟨built, p, adds, isOf, rfl⟩ := addParameter_adds isNames turn
    have first := adds.trans (.other adds.names isOf other)
    have both := first.trans (rest first.names)
    rw [List.append_nil] at both
    rw [List.map_cons, List.flatMap_cons, List.map_append]
    exact both

end Expressions

/-! ## Entering an atom -/

section Entering

variable {names : Names} {s s' : Parser}

theorem addAggregateConstraints_adds (isNames : s.names = names) {n : Nat} {key : AggregateKey}
    (isKey : (s.rule_aggregates.map TAggregate.key)[n]? = some key) {cons : List Attr_constraint}
    (run : cons.forM (addAggregateConstraint (some n)) s = some ((), s')) :
    Adds s s' names [] ((cons.filterMap getConstraint).map fun c => (key, .constraint c)) := by
  refine forM_induct (R := fun s cons s' => s.names = names →
    (s.rule_aggregates.map TAggregate.key)[n]? = some key →
      Adds s s' names [] ((cons.filterMap getConstraint).map fun c => (key, .constraint c)))
    ?_ ?_ run isNames isKey
  · intro s isNames _
    exact isNames ▸ .refl s
  · intro con cons s mid s' turn rest isNames isKey
    obtain ⟨position, isPosition, turn⟩ := lift_bind_eq_some.mp turn
    cases isPosition
    obtain ⟨c, isConstraint, turn⟩ := lift_bind_eq_some.mp turn
    cases turn
    have first : Adds s _ names [] [(key, .constraint c)] := .constraint isNames isKey c
    have both := first.trans
      (rest first.names ((congrArg (·[n]?) keys_addConstraint).trans isKey))
    rw [List.filterMap_cons_some isConstraint]
    exact both

theorem addAggregateParameters_adds (isNames : s.names = names)
    {before : List (AggregateKey × Piece)} (reg : Registered s before) {n : Nat}
    {key : AggregateKey} (isKey : (s.rule_aggregates.map TAggregate.key)[n]? = some key)
    {pars : List Parameter}
    (run : (pars.forM fun par => do
      addParameter par (indexOfAggregate (← get).rule_aggregates (some n)) .agg) s =
        some ((), s')) :
    Adds s s' names ((pars.flatMap fun par => par.expr.aggregates).map (Mention.mk names))
      (pars.map fun par => (key, .parameter par)) := by
  refine forM_induct (R := fun s pars s' => s.names = names → ∀ before, Registered s before →
    (s.rule_aggregates.map TAggregate.key)[n]? = some key →
      Adds s s' names ((pars.flatMap fun par => par.expr.aggregates).map (Mention.mk names))
        (pars.map fun par => (key, .parameter par))) ?_ ?_ run isNames before reg isKey
  · intro s isNames _ _ _
    exact isNames ▸ .refl s
  · intro par pars s mid s' turn rest isNames before reg isKey
    rw [get_bind, reg.indexOfAggregate isKey] at turn
    obtain ⟨built, p, adds, isOf, rfl⟩ := addParameter_adds isNames turn
    have first := adds.trans (.parameter adds.names (adds.getElem?_keys reg isKey) isOf)
    have both := first.trans
      (rest first.names _ (first.registered before reg) (first.getElem?_keys reg isKey))
    rw [List.append_nil, ← List.map_append] at both
    exact both

theorem enterAggregate_atom_adds (isNames : s.names = names)
    {before : List (AggregateKey × Piece)} (reg : Registered s before) {ctx : Aggregate}
    (compiled : Mention.mk names ctx ∈ s.compiled.map Compiled.mention)
    (run : enterAggregate_atom ctx s = some ((), s')) :
    Adds s s' names (ctx.inner.map (Mention.mk names)) (Mention.mk names ctx).pieces := by
  subst isNames
  obtain ⟨n, found, isKey⟩ := reg.getAggregate compiled
  rw [enterAggregate_atom, get_bind, found] at run
  obtain ⟨aggr, isAggr, run⟩ := lift_bind_eq_some.mp run
  cases isAggr
  obtain ⟨_, mid, constraints, parameters⟩ := bind_eq_some.mp run
  have first := addAggregateConstraints_adds rfl isKey constraints
  exact first.trans (addAggregateParameters_adds first.names (first.registered before reg)
    (first.getElem?_keys reg isKey) parameters)

/-- The atoms have been compiled. -/
def Known (s : Parser) (names : Names) (ctxs : List Aggregate) : Prop :=
  ∀ ctx ∈ ctxs, Mention.mk names ctx ∈ s.compiled.map Compiled.mention

theorem Known.behind {ctxs : List Aggregate} (known : Known s names ctxs) {names' : Names}
    {mentions : List Mention} {pieces : List (AggregateKey × Piece)}
    (adds : Adds s s' names' mentions pieces) : Known s' names ctxs := by
  intro ctx mem
  rw [adds.compiled]
  exact List.mem_append_left _ (known ctx mem)

/-- Atoms are entered, one after the other. -/
def Enters (s s' : Parser) (names : Names) (ctxs : List Aggregate) : Prop :=
  Adds s s' names ((ctxs.flatMap Aggregate_atom.inner).map (Mention.mk names))
    (ctxs.flatMap fun ctx => (Mention.mk names ctx).pieces)

theorem Enters.append {mid : Parser} {ctxs more : List Aggregate} (first : Enters s mid names ctxs)
    (second : Enters mid s' names more) : Enters s s' names (ctxs ++ more) := by
  rw [Enters, List.flatMap_append, List.flatMap_append, List.map_append]
  exact Adds.trans first second

theorem Enters.refl (isNames : s.names = names) : Enters s s names [] :=
  isNames ▸ Adds.refl s

mutual

theorem walkExpr_enters : ∀ (expr : Expr) {s s' : Parser} {before : List (AggregateKey × Piece)},
    s.names = names → Registered s before → Known s names expr.aggregates →
      walkExpr expr s = some ((), s') → Enters s s' names (entered expr)
  | .atom leaf, s, s', before, isNames, reg, known, run =>
    walkAtom_enters leaf isNames reg known run
  | .paren expr, s, s', before, isNames, reg, known, run =>
    walkExpr_enters expr isNames reg known run
  | .binop left _ right, s, s', before, isNames, reg, known, run => by
    obtain ⟨_, mid, runLeft, runRight⟩ := bind_eq_some.mp run
    rw [ExprContext.aggregates, ExprContext.leaves, List.filterMap_append] at known
    have knownLeft : Known s names left.aggregates :=
      fun ctx mem => known ctx (List.mem_append_left _ mem)
    have knownRight : Known s names right.aggregates :=
      fun ctx mem => known ctx (List.mem_append_right _ mem)
    have first := walkExpr_enters left isNames reg knownLeft runLeft
    exact first.append (walkExpr_enters right first.names (first.registered before reg)
      (knownRight.behind first) runRight)

theorem walkAtom_enters : ∀ (leaf : Atom) {s s' : Parser}
    {before : List (AggregateKey × Piece)}, s.names = names → Registered s before →
      Known s names leaf.aggregate?.toList → walkAtom leaf s = some ((), s') →
        Enters s s' names (enteredAtom leaf)
  | .static _, s, s', before, isNames, reg, known, run => by
    cases run
    exact .refl isNames
  | .param _, s, s', before, isNames, reg, known, run => by
    cases run
    exact .refl isNames
  | .packet _ _, s, s', before, isNames, reg, known, run => by
    cases run
    exact .refl isNames
  | .aggregate ctx, s, s', before, isNames, reg, known, run => by
    obtain ⟨_, mid, enter, below⟩ := bind_eq_some.mp run
    have adds := enterAggregate_atom_adds isNames reg (known ctx List.mem_cons_self) enter
    have first : Enters s mid names [ctx] := by
      rw [Enters, List.flatMap_singleton, List.flatMap_singleton]
      exact adds
    have inner : Known mid names ctx.inner := by
      intro other mem
      rw [adds.compiled]
      exact List.mem_append_right _ (List.mem_map_of_mem mem)
    exact first.append (walkParameters_enters ctx.attr_parameter adds.names
      (adds.registered before reg) inner below)

theorem walkParameters_enters : ∀ (pars : List (Attr_parameter (ExprContext Atom))) {s s' : Parser}
    {before : List (AggregateKey × Piece)}, s.names = names → Registered s before →
      Known s names (pars.flatMap fun par => par.expr.aggregates) →
        walkParameters pars s = some ((), s') → Enters s s' names (enteredParameters pars)
  | [], s, s', before, isNames, reg, known, run => by
    cases run
    exact .refl isNames
  | par :: rest, s, s', before, isNames, reg, known, run => by
    obtain ⟨_, mid, runFirst, runRest⟩ := bind_eq_some.mp run
    have knownFirst : Known s names par.expr.aggregates :=
      fun ctx mem => known ctx (List.mem_append_left _ mem)
    have knownRest : Known s names (rest.flatMap fun par => par.expr.aggregates) :=
      fun ctx mem => known ctx (List.mem_append_right _ mem)
    have first := walkExpr_enters par.expr isNames reg knownFirst runFirst
    exact first.append (walkParameters_enters rest first.names (first.registered before reg)
      (knownRest.behind first) runRest)

end

end Entering

/-! ## Sections -/

section Sections

variable {names : Names} {s s' : Parser} {before : List (AggregateKey × Piece)}

theorem walkItems_enters (isNames : s.names = names) (reg : Registered s before) {ctx : Predicate}
    {items : List PredicateItem} (known : Known s names
      (((items.filterMap PredicateItem.parameter?).map Attr_parameter.expr).flatMap
        ExprContext.aggregates))
    (run : items.forM (walkItem ctx) s = some ((), s')) :
    Enters s s' names (((items.filterMap PredicateItem.parameter?).map Attr_parameter.expr).flatMap
      entered) := by
  refine forM_induct (R := fun s items s' => s.names = names → ∀ before, Registered s before →
    Known s names (((items.filterMap PredicateItem.parameter?).map Attr_parameter.expr).flatMap
      ExprContext.aggregates) → Enters s s' names
        (((items.filterMap PredicateItem.parameter?).map Attr_parameter.expr).flatMap entered))
    ?_ ?_ run isNames before reg known
  · intro s isNames _ _ _
    exact .refl isNames
  · intro item items s mid s' turn rest isNames before reg known
    cases item with
    | param_mapping attr_name param_name =>
        have first : Adds s mid names [] [] := by
          rw [walkItem, enterParam_mapping, get_bind] at turn
          obtain ⟨eventId, -, turn⟩ := lift_bind_eq_some.mp turn
          by_cases free : (s.parameters_map param_name).isNone
          · rw [if_pos free] at turn
            cases turn
            exact .unrelated isNames rfl rfl rfl
          · rw [if_neg free] at turn
            cases turn
            exact .unrelated isNames rfl rfl rfl
        have nothing : Enters s mid names [] := first
        exact nothing.append
          (rest first.names _ (first.registered before reg) (known.behind first))
    | attr_constraint cons =>
        cases turn
        exact rest isNames before reg known
    | attr_parameter par =>
        have knownFirst : Known s names par.expr.aggregates :=
          fun ctx mem => known ctx (List.mem_append_left _ mem)
        have first := walkExpr_enters par.expr isNames reg knownFirst turn
        refine first.append (rest first.names _ (first.registered before reg) ?_)
        exact Known.behind (fun ctx mem => known ctx (List.mem_append_right _ mem)) first

/-- A predicate whose parameters have been compiled is walked. -/
theorem section_adds (reg : Registered s before) {mid : Parser}
    {exprs : List Expr}
    (compiles : Adds s mid names ((exprs.flatMap ExprContext.aggregates).map (Mention.mk names)) [])
    (enters : ∀ {before}, Registered mid before →
      Known mid names (exprs.flatMap ExprContext.aggregates) →
        Enters mid s' names (exprs.flatMap entered)) :
    Adds s s' names (Section.mk names exprs).mentions (Section.mk names exprs).pieces := by
  have known : Known mid names (exprs.flatMap ExprContext.aggregates) := by
    intro ctx mem
    rw [compiles.compiled]
    exact List.mem_append_right _ (List.mem_map_of_mem mem)
  rw [Section.mentions, List.map_append]
  exact compiles.trans (enters (compiles.registered before reg) known)

theorem predicate_adds (isNames : s.names = names) (reg : Registered s before) {ctx : Predicate}
    {index : Parser → Int} {type : StateType} (other : type ≠ .agg) {mid : Parser}
    (parameters : (ctx.attr_parameter.forM fun par => do addParameter par (index (← get)) type) s =
      some ((), mid))
    (walked : walkPredicate ctx mid = some ((), s')) :
    Adds s s' names (Section.mk names ctx.exprs).mentions (Section.mk names ctx.exprs).pieces := by
  have compiles := addParameters_adds isNames other parameters
  exact section_adds reg compiles fun reg known =>
    walkItems_enters compiles.names reg known walked

/-- The terminator or a positive predicate. -/
theorem enterPredicate_adds (reg : Registered s before) {ctx : Predicate}
    {refersTo : Option (Sel_policy × Nat × CString)} {mid : Parser}
    (enter : enterPredicate ctx refersTo s = some ((), mid))
    (walked : walkPredicate ctx mid = some ((), s')) :
    ∃ names, s.names.enter ctx refersTo = some names ∧
      Adds s s' names (Section.mk names ctx.exprs).mentions
        (Section.mk names ctx.exprs).pieces := by
  rw [enterPredicate, get_bind] at enter
  obtain ⟨names, isEntered, enter⟩ := lift_bind_eq_some.mp enter
  have renamed : Adds s { s with names } names [] [] := .unrelated rfl rfl rfl rfl
  refine ⟨names, isEntered, ?_⟩
  exact renamed.trans (predicate_adds rfl (renamed.registered before reg) (by decide) enter walked)

theorem walkPattern_adds (reg : Registered s before) {p : Pattern_predicate}
    (run : walkPattern p s = some ((), s')) :
    ∃ names, p.enter s.names = some names ∧
      Adds s s' names (Section.mk names p.predicate.exprs).mentions
        (Section.mk names p.predicate.exprs).pieces := by
  cases p with
  | positive sel_policy ctx int_val evt_name =>
      obtain ⟨_, mid, enter, walked⟩ := bind_eq_some.mp run
      exact enterPredicate_adds reg enter walked
  | negative ctx window =>
      obtain ⟨_, mid, enter, walked⟩ := bind_eq_some.mp run
      rw [enterNegative_predicate, get_bind] at enter
      obtain ⟨eventType, -, enter⟩ := lift_bind_eq_some.mp enter
      obtain ⟨bounds, -, enter⟩ := lift_bind_eq_some.mp enter
      obtain ⟨constraints, -, enter⟩ := lift_bind_eq_some.mp enter
      obtain ⟨_, negated, set, parameters⟩ := bind_eq_some.mp enter
      have first : Adds s negated s.names [] [] := by
        cases set
        exact .unrelated rfl rfl rfl rfl
      refine ⟨s.names, rfl, ?_⟩
      exact first.trans
        (predicate_adds first.names (first.registered before reg) (by decide) parameters walked)

theorem pattern_adds (reg : Registered s before) {pattern : List Pattern_predicate}
    (run : pattern.forM walkPattern s = some ((), s')) :
    ∃ sections last, s.names.pattern pattern = some (sections, last) ∧
      Adds s s' last (sections.flatMap Section.mentions) (sections.flatMap Section.pieces) := by
  refine forM_induct (R := fun s pattern s' => ∀ before, Registered s before →
    ∃ sections last, s.names.pattern pattern = some (sections, last) ∧
      Adds s s' last (sections.flatMap Section.mentions) (sections.flatMap Section.pieces))
    ?_ ?_ run before reg
  · intro s before reg
    exact ⟨[], s.names, rfl, .refl s⟩
  · intro p pattern s mid s' turn rest before reg
    obtain ⟨names, isEntered, first⟩ := walkPattern_adds reg turn
    obtain ⟨sections, last, isPattern, more⟩ := rest _ (first.registered before reg)
    refine ⟨⟨names, p.predicate.exprs⟩ :: sections, last, ?_, first.trans more⟩
    rw [first.names] at isPattern
    rw [Names.pattern, isEntered]
    show (names.pattern pattern).bind _ = _
    rw [isPattern]
    rfl

theorem declarations_adds {declarations : List (Nat × CString)}
    (run : declarations.forM enterEvent_declaration s = some ((), s')) :
    ∃ names, s.names.declarations declarations = some names ∧ Adds s s' names [] [] := by
  refine forM_induct (R := fun s declarations s' => ∃ names,
    s.names.declarations declarations = some names ∧ Adds s s' names [] []) ?_ ?_ run
  · intro s
    exact ⟨s.names, rfl, .refl s⟩
  · intro ctx declarations s mid s' turn rest
    obtain ⟨id, isInt, turn⟩ := lift_bind_eq_some.mp turn
    cases turn
    obtain ⟨names, declared, more⟩ := rest
    refine ⟨names, ?_, ?_⟩
    · rw [Names.declarations, isInt]
      exact declared
    · have first : Adds s { s with names := s.names.declare ctx.2 id } _ [] [] :=
        .unrelated rfl rfl rfl rfl
      exact first.trans more

theorem addStaticAttributes_adds (isNames : s.names = names)
    {statics : List (CString × Static_reference)}
    (run : (statics.forM fun sdef => addStaticAttribute sdef.1 sdef.2) s = some ((), s')) :
    Adds s s' names [] [] := by
  refine forM_induct (R := fun s statics s' => s.names = names → Adds s s' names [] []) ?_ ?_ run
    isNames
  · intro s isNames
    exact isNames ▸ .refl s
  · intro sdef statics s mid s' turn rest isNames
    rw [addStaticAttribute, get_bind] at turn
    obtain ⟨sattr, -, turn⟩ := lift_bind_eq_some.mp turn
    obtain ⟨template, -, turn⟩ := lift_bind_eq_some.mp turn
    have first : Adds s mid names [] [] := by
      cases turn
      exact .unrelated isNames rfl rfl rfl
    exact first.trans (rest first.names)

theorem addAttributes_adds (isNames : s.names = names) {attrs : List (CString × Expr)}
    (run : (attrs.forM fun attr_ctx => addAttribute attr_ctx.1 attr_ctx.2) s = some ((), s')) :
    Adds s s' names
      (((attrs.map Prod.snd).flatMap ExprContext.aggregates).map (Mention.mk names)) [] := by
  refine forM_induct (R := fun s attrs s' => s.names = names → Adds s s' names
    (((attrs.map Prod.snd).flatMap ExprContext.aggregates).map (Mention.mk names)) []) ?_ ?_ run
    isNames
  · intro s isNames
    exact isNames ▸ .refl s
  · intro attr_ctx attrs s mid s' turn rest isNames
    rw [addAttribute, get_bind] at turn
    obtain ⟨tree, built, build, turn⟩ := bind_eq_some.mp turn
    rw [get_bind] at turn
    obtain ⟨template, -, turn⟩ := lift_bind_eq_some.mp turn
    have first := buildOpTree_adds isNames build
    have second : Adds built mid names [] [] := by
      cases turn
      exact .unrelated first.names rfl rfl rfl
    have both := (first.trans second).trans (rest second.names)
    rw [List.append_nil] at both
    rw [List.map_cons, List.flatMap_cons, List.map_append]
    exact both

theorem walkDefinitions_enters (isNames : s.names = names) (reg : Registered s before)
    {definitions : List Definition} (known : Known s names
      (((definitions.filterMap Definition.attr?).map Prod.snd).flatMap ExprContext.aggregates))
    (run : definitions.forM walkDefinition s = some ((), s')) :
    Enters s s' names
      (((definitions.filterMap Definition.attr?).map Prod.snd).flatMap entered) := by
  refine forM_induct (R := fun s definitions s' => s.names = names → ∀ before, Registered s before →
    Known s names
      (((definitions.filterMap Definition.attr?).map Prod.snd).flatMap ExprContext.aggregates) →
      Enters s s' names
        (((definitions.filterMap Definition.attr?).map Prod.snd).flatMap entered)) ?_ ?_ run
    isNames before reg known
  · intro s isNames _ _ _
    exact .refl isNames
  · intro definition definitions s mid s' turn rest isNames before reg known
    cases definition with
    | static attr_name ref =>
        cases turn
        exact rest isNames before reg known
    | attr attr_name expr =>
        have knownFirst : Known s names expr.aggregates :=
          fun ctx mem => known ctx (List.mem_append_left _ mem)
        have first := walkExpr_enters expr isNames reg knownFirst turn
        refine first.append (rest first.names _ (first.registered before reg) ?_)
        exact Known.behind (fun ctx mem => known ctx (List.mem_append_right _ mem)) first

theorem definitions_adds (isNames : s.names = names) (reg : Registered s before)
    {definitions : List Definition} {mid : Parser}
    (enter : enterDefinitions definitions s = some ((), mid))
    (walked : definitions.forM walkDefinition mid = some ((), s')) :
    Adds s s' names
      (Section.mk names ((definitions.filterMap Definition.attr?).map Prod.snd)).mentions
      (Section.mk names ((definitions.filterMap Definition.attr?).map Prod.snd)).pieces := by
  obtain ⟨_, static, statics, attrs⟩ := bind_eq_some.mp enter
  have first := addStaticAttributes_adds isNames statics
  have compiles := first.trans (addAttributes_adds first.names attrs)
  exact section_adds reg compiles fun reg known =>
    walkDefinitions_enters compiles.names reg known walked

end Sections

theorem flatMap_sections {α : Type} (f : Section → List α) (first last : Section)
    (sections : List Section) :
    (first :: sections ++ [last]).flatMap f = f first ++ (sections.flatMap f ++ f last) := by
  rw [List.cons_append, List.flatMap_cons, List.flatMap_append, List.flatMap_singleton]

theorem enterEnding_rule_adds {s s' : Parser} (run : enterEnding_rule s = some ((), s')) :
    Adds s s' s.names [] [] ∧ ∀ rule, s'.rule = some rule →
      rule.aggregates = s'.rule_aggregates ∧ rule.parameters = s'.rule_parameters := by
  rw [enterEnding_rule, get_bind] at run
  obtain ⟨template, -, run⟩ := lift_bind_eq_some.mp run
  cases run
  refine ⟨.unrelated rfl rfl rfl rfl, ?_⟩
  intro rule made
  cases made
  exact ⟨rfl, rfl⟩

/-- What the walk leaves behind. -/
theorem walk_registered {t : Trex_rule} {s : Parser} {rule : RulePkt}
    (run : walk t Parser.new = some ((), s)) (made : s.rule = some rule) :
    ∃ sections, t.sections = some sections ∧
      s.compiled.map Compiled.mention = sections.flatMap Section.mentions ∧
        Registered s (sections.flatMap Section.pieces) ∧
          rule.aggregates = s.rule_aggregates ∧ rule.parameters = s.rule_parameters := by
  obtain ⟨_, declared, declare, run⟩ := bind_eq_some.mp run
  obtain ⟨_, defined, define, run⟩ := bind_eq_some.mp run
  obtain ⟨_, rooted, root, run⟩ := bind_eq_some.mp run
  obtain ⟨_, terminated, terminator, run⟩ := bind_eq_some.mp run
  obtain ⟨_, matched, pattern, run⟩ := bind_eq_some.mp run
  obtain ⟨_, assigned, assign, run⟩ := bind_eq_some.mp run
  obtain ⟨_, walked, definitions, run⟩ := bind_eq_some.mp run
  obtain ⟨_, consumed, consume, ending⟩ := bind_eq_some.mp run
  obtain ⟨names, isDeclared, first⟩ := declarations_adds declare
  have second : Adds declared defined names [] [] := by
    rw [enterCe_definition, get_bind] at define
    obtain ⟨eventType, -, define⟩ := lift_bind_eq_some.mp define
    cases define
    exact .unrelated first.names rfl rfl rfl
  have head := first.trans second
  obtain ⟨rootNames, isRoot, third⟩ :=
    enterPredicate_adds (head.registered [] registered_new) root terminator
  have two := head.trans third
  obtain ⟨sections, last, isPattern, fourth⟩ :=
    pattern_adds (two.registered [] registered_new) pattern
  have three := two.trans fourth
  have fifth := definitions_adds three.names (three.registered [] registered_new) assign definitions
  have four := three.trans fifth
  have sixth : Adds walked consumed last [] [] := by
    cases consume
    exact .unrelated four.names rfl rfl rfl
  have five := four.trans sixth
  obtain ⟨seventh, finished⟩ := enterEnding_rule_adds ending
  have all := five.trans seventh
  have sectioned : t.sections = some (⟨rootNames, t.terminator.exprs⟩ :: sections ++
      [⟨last, (t.definitions.filterMap Definition.attr?).map Prod.snd⟩]) := by
    rw [Trex_rule.sections, isDeclared]
    show (names.enter t.terminator none).bind _ = _
    rw [← head.names, isRoot]
    show (rootNames.pattern t.pattern_predicates).bind _ = _
    rw [← two.names, isPattern]
    rfl
  refine ⟨_, sectioned, ?_, ?_, finished rule made⟩
  · rw [all.compiled, flatMap_sections]
    simp [Parser.new]
  · have reg := all.registered [] registered_new
    rw [flatMap_sections]
    simpa using reg

/-! ## The atoms that are entered -/

mutual

/-- An atom that is entered stands in the expression itself or in the parameters of another. -/
theorem mem_entered : ∀ (expr : Expr) (ctx : Aggregate), ctx ∈ entered expr ↔
    ctx ∈ expr.aggregates ∨ ctx ∈ (entered expr).flatMap Aggregate_atom.inner
  | .atom leaf, ctx => by
    have same : (ExprContext.atom leaf).aggregates = leaf.aggregate?.toList := by
      cases leaf <;> rfl
    rw [same]
    exact mem_enteredAtom leaf ctx
  | .paren expr, ctx => mem_entered expr ctx
  | .binop left _ right, ctx => by
    rw [entered, ExprContext.aggregates, ExprContext.leaves, List.filterMap_append,
      List.flatMap_append, List.mem_append, List.mem_append, List.mem_append,
      mem_entered left ctx, mem_entered right ctx, or_or_or_comm]
    exact Iff.rfl

theorem mem_enteredAtom : ∀ (leaf : Atom) (ctx : Aggregate), ctx ∈ enteredAtom leaf ↔
    ctx ∈ leaf.aggregate?.toList ∨ ctx ∈ (enteredAtom leaf).flatMap Aggregate_atom.inner
  | .static _, ctx => by simp [enteredAtom, Atom.aggregate?]
  | .param _, ctx => by simp [enteredAtom, Atom.aggregate?]
  | .packet _ _, ctx => by simp [enteredAtom, Atom.aggregate?]
  | .aggregate outer, ctx => by
    rw [enteredAtom, List.flatMap_cons, List.mem_cons, List.mem_append,
      mem_enteredParameters outer.attr_parameter ctx]
    simp [Atom.aggregate?, Aggregate_atom.inner]

theorem mem_enteredParameters : ∀ (pars : List (Attr_parameter (ExprContext Atom)))
    (ctx : Aggregate), ctx ∈ enteredParameters pars ↔
      ctx ∈ (pars.flatMap fun par => par.expr.aggregates) ∨
        ctx ∈ (enteredParameters pars).flatMap Aggregate_atom.inner
  | [], ctx => by simp [enteredParameters]
  | par :: rest, ctx => by
    rw [enteredParameters, List.flatMap_cons, List.flatMap_append, List.mem_append,
      List.mem_append, List.mem_append, mem_entered par.expr ctx, mem_enteredParameters rest ctx,
      or_or_or_comm]

end

theorem mem_flatMap_entered (exprs : List Expr) (ctx : Aggregate) : ctx ∈ exprs.flatMap entered ↔
    ctx ∈ exprs.flatMap ExprContext.aggregates ∨
      ctx ∈ (exprs.flatMap entered).flatMap Aggregate_atom.inner := by
  induction exprs with
  | nil => simp
  | cons expr exprs ih =>
      rw [List.flatMap_cons, List.flatMap_cons, List.flatMap_append, List.mem_append,
        List.mem_append, List.mem_append, mem_entered expr ctx, ih, or_or_or_comm]

/-- The pieces that are added are those of the atoms that are compiled. -/
theorem Section.mem_pieces (sec : Section) (piece : AggregateKey × Piece) :
    piece ∈ sec.pieces ↔ ∃ m ∈ sec.mentions, piece ∈ m.pieces := by
  have same : ∀ ctx, ctx ∈ sec.entered ↔ ctx ∈ sec.exprs.flatMap ExprContext.aggregates ++
      sec.entered.flatMap Aggregate_atom.inner := by
    intro ctx
    rw [List.mem_append]
    exact mem_flatMap_entered sec.exprs ctx
  rw [Section.pieces, Section.mentions, List.mem_flatMap]
  constructor
  · rintro ⟨ctx, mem, isPiece⟩
    exact ⟨_, List.mem_map_of_mem ((same ctx).mp mem), isPiece⟩
  · rintro ⟨m, mem, isPiece⟩
    obtain ⟨ctx, isEntered, rfl⟩ := List.mem_map.mp mem
    exact ⟨ctx, (same ctx).mpr isEntered, isPiece⟩

theorem Mention.mem_pieces {m : Mention} {key : AggregateKey} {piece : Piece} :
    (key, piece) ∈ m.pieces ↔ m.key = key ∧ ((∃ c ∈ m.constraints, piece = .constraint c) ∨
      ∃ par ∈ m.atom.attr_parameter, piece = .parameter par) := by
  rw [Mention.pieces, List.mem_append, List.mem_map, List.mem_map]
  constructor
  · rintro (⟨c, mem, same⟩ | ⟨par, mem, same⟩)
    · cases same
      exact ⟨rfl, .inl ⟨c, mem, rfl⟩⟩
    · cases same
      exact ⟨rfl, .inr ⟨par, mem, rfl⟩⟩
  · rintro ⟨rfl, ⟨c, mem, rfl⟩ | ⟨par, mem, rfl⟩⟩
    · exact .inl ⟨c, mem, rfl⟩
    · exact .inr ⟨par, mem, rfl⟩

/-! ## The aggregates of a rule -/

/-- The aggregates of a packet, with the references to them. -/
structure Settled (compiled : List Compiled) (rule : RulePkt) : Prop where
  keys : rule.aggregates.map TAggregate.key = (compiled.map fun c => c.mention.key).eraseDups
  bounds : ∀ agg ∈ rule.aggregates, ∃ c ∈ compiled, c.mention.key = agg.key ∧
    c.mention.bounds = some (agg.lowerId, agg.lowerTime, agg.upperId)
  references : ∀ before c after, compiled = before ++ c :: after →
    c.reference = ((((before ++ [c]).map fun c => c.mention.key).eraseDups.length : Nat) : Int) - 1
  constraints : ∀ agg ∈ rule.aggregates, ∀ con, con ∈ agg.constraints ↔
    ∃ c ∈ compiled, c.mention.key = agg.key ∧ con ∈ c.mention.constraints
  parameters : ∀ (n : Nat) (agg : TAggregate), rule.aggregates[n]? = some agg → ∀ par,
    (∃ p ∈ rule.parameters, p.IsOf par n .agg) ↔
      ∃ c ∈ compiled, c.mention.key = agg.key ∧ par ∈ c.mention.atom.attr_parameter

theorem walk_settled {t : Trex_rule} {s : Parser} {rule : RulePkt}
    (run : walk t Parser.new = some ((), s)) (made : s.rule = some rule) :
    t.mentions = some (s.compiled.map Compiled.mention) ∧ Settled s.compiled rule := by
  obtain ⟨sections, sectioned, compiled, reg, aggregates, parameters⟩ := walk_registered run made
  have isPiece : ∀ piece, piece ∈ sections.flatMap Section.pieces ↔
      ∃ c ∈ s.compiled, piece ∈ c.mention.pieces := by
    intro piece
    rw [List.mem_flatMap]
    constructor
    · rintro ⟨sec, isSection, mem⟩
      obtain ⟨m, isMention, mem⟩ := (sec.mem_pieces piece).mp mem
      have inAll := List.mem_flatMap.mpr ⟨sec, isSection, isMention⟩
      rw [← compiled] at inAll
      obtain ⟨c, isCompiled, rfl⟩ := List.mem_map.mp inAll
      exact ⟨c, isCompiled, mem⟩
    · rintro ⟨c, isCompiled, mem⟩
      have inAll := List.mem_map_of_mem (f := Compiled.mention) isCompiled
      rw [compiled] at inAll
      obtain ⟨sec, isSection, isMention⟩ := List.mem_flatMap.mp inAll
      exact ⟨sec, isSection, (sec.mem_pieces piece).mpr ⟨_, isMention, mem⟩⟩
  refine ⟨by rw [Trex_rule.mentions, sectioned, compiled]; rfl, ?_⟩
  exact {
    keys := by
      rw [aggregates]
      exact reg.keys
    bounds := by
      rw [aggregates]
      exact reg.bounds
    references := reg.references
    constraints := by
      intro agg mem con
      rw [aggregates] at mem
      rw [reg.constraints agg mem con, isPiece]
      refine exists_congr fun c => and_congr_right fun _ => ?_
      rw [Mention.mem_pieces]
      simp
    parameters := by
      intro n agg isAggregate par
      rw [aggregates] at isAggregate
      have isKey : (s.rule_aggregates.map TAggregate.key)[n]? = some agg.key := by
        rw [List.getElem?_map, isAggregate]
        rfl
      rw [parameters, reg.parameters par n]
      constructor
      · rintro ⟨m, key, isKey', same, mem⟩
        cases Int.ofNat_inj.mp same
        cases isKey.symm.trans isKey'
        obtain ⟨c, isCompiled, mem⟩ := (isPiece _).mp mem
        obtain ⟨keys, ⟨con, -, ⟨⟩⟩ | ⟨par', mem, same⟩⟩ := Mention.mem_pieces.mp mem
        cases same
        exact ⟨c, isCompiled, keys, mem⟩
      · rintro ⟨c, isCompiled, keys, mem⟩
        refine ⟨n, _, isKey, rfl, (isPiece _).mpr ⟨c, isCompiled, ?_⟩⟩
        exact Mention.mem_pieces.mpr ⟨keys, .inr ⟨par, mem, rfl⟩⟩ }

/-- Atoms that have an aggregate of their own in common are alike. -/
theorem Mention.IsOwn.alike {m m' : Mention} {rule : RulePkt} {n : Nat} {agg : TAggregate}
    (own : m.IsOwn rule n agg) (own' : m'.IsOwn rule n agg) : m.Alike m' where
  bounds := own.bounds.trans own'.bounds.symm
  constraints c := (own.constraints c).symm.trans (own'.constraints c)
  parameters par := (own.parameters par).symm.trans (own'.parameters par)

namespace Settled

variable {compiled : List Compiled} {rule : RulePkt}

/-- The aggregates at two positions with the same key are the same. -/
theorem position_unique (settled : Settled compiled rule) {n n' : Nat} {agg agg' : TAggregate}
    (isAggregate : rule.aggregates[n]? = some agg) (isAggregate' : rule.aggregates[n']? = some agg')
    (same : agg.key = agg'.key) : n = n' := by
  have nodup : (rule.aggregates.map TAggregate.key).Nodup := by
    rw [settled.keys]
    exact nodup_eraseDups _
  have within : n < (rule.aggregates.map TAggregate.key).length := by
    rw [List.length_map]
    exact (List.getElem?_eq_some_iff.mp isAggregate).1
  apply (List.getElem?_inj within nodup).mp
  rw [List.getElem?_map, List.getElem?_map, isAggregate, isAggregate']
  exact congrArg some same

/-- The key of the aggregate that a reference is to. -/
theorem key_of_reference (settled : Settled compiled rule) {before after : List Compiled}
    {c : Compiled} (split : compiled = before ++ c :: after) :
    ∃ n : Nat, c.reference = n ∧ (rule.aggregates.map TAggregate.key)[n]? =
      ((before.map fun c => c.mention.key) ++ [c.mention.key]).eraseDups.getLast? := by
  have isReference := settled.references before c after split
  rw [List.map_append, List.map_singleton] at isReference
  have some : 0 < ((before.map fun c => c.mention.key) ++ [c.mention.key]).eraseDups.length := by
    apply List.length_pos_of_mem (a := c.mention.key)
    exact List.mem_eraseDups.mpr (List.mem_append_right _ List.mem_cons_self)
  refine ⟨((before.map fun c => c.mention.key) ++ [c.mention.key]).eraseDups.length - 1, by omega,
    ?_⟩
  rw [settled.keys, split, List.map_append, List.map_cons]
  exact row_of_prefix _ _ _

/-- The aggregates are the atoms' own when those with the same key are alike. -/
theorem own_of_alike (settled : Settled compiled rule) {c : Compiled} (mem : c ∈ compiled)
    (alike : ∀ c' ∈ compiled, c.mention.key = c'.mention.key → c.mention.Alike c'.mention) {n : Nat}
    {agg : TAggregate} (isAggregate : rule.aggregates[n]? = some agg)
    (isKey : agg.key = c.mention.key) : c.mention.IsOwn rule n agg where
  isFor := isFor_iff_key.mpr isKey
  bounds := by
    obtain ⟨c', mem', same, bounds⟩ := settled.bounds agg (List.mem_of_getElem? isAggregate)
    exact (alike c' mem' (isKey.symm.trans same.symm)).bounds.trans bounds
  constraints con := by
    rw [settled.constraints agg (List.mem_of_getElem? isAggregate) con]
    constructor
    · rintro ⟨c', mem', same, isConstraint⟩
      exact ((alike c' mem' (isKey.symm.trans same.symm)).constraints con).mpr isConstraint
    · intro isConstraint
      exact ⟨c, mem, isKey.symm, isConstraint⟩
  parameters par := by
    rw [settled.parameters n agg isAggregate par]
    constructor
    · rintro ⟨c', mem', same, isParameter⟩
      exact ((alike c' mem' (isKey.symm.trans same.symm)).parameters par).mpr isParameter
    · intro isParameter
      exact ⟨c, mem, isKey.symm, isParameter⟩

theorem oneToOne_iff (settled : Settled compiled rule) :
    OneToOne compiled rule ↔ Separable (compiled.map Compiled.mention) := by
  have keys : (compiled.map Compiled.mention).map Mention.key =
      compiled.map fun c => c.mention.key := by
    rw [List.map_map]
    rfl
  constructor
  · intro oneToOne
    refine ⟨?_, ?_⟩
    · intro m isMention m' isMention' same
      obtain ⟨c, mem, rfl⟩ := List.mem_map.mp isMention
      obtain ⟨c', mem', rfl⟩ := List.mem_map.mp isMention'
      obtain ⟨n, agg, -, isAggregate, own⟩ := oneToOne.own c mem
      obtain ⟨n', agg', -, isAggregate', own'⟩ := oneToOne.own c' mem'
      have sameKey : agg.key = agg'.key := (isFor_iff_key.mp own.isFor).trans
        (same.trans (isFor_iff_key.mp own'.isFor).symm)
      cases settled.position_unique isAggregate isAggregate' sameKey
      cases isAggregate.symm.trans isAggregate'
      exact own.alike own'
    · rw [keys, unparted_iff]
      intro before k after split
      obtain ⟨first, rest, isSplit, rfl, isRest⟩ := List.map_eq_append_iff.mp split
      obtain ⟨c, last, rfl, rfl, rfl⟩ := List.map_eq_cons_iff.mp isRest
      obtain ⟨n, isReference, isKey⟩ := settled.key_of_reference isSplit
      have mem : c ∈ compiled := by
        rw [isSplit]
        exact List.mem_append_right _ List.mem_cons_self
      obtain ⟨n', agg, isReference', isAggregate, own⟩ := oneToOne.own c mem
      cases Int.ofNat_inj.mp (isReference.symm.trans isReference')
      rw [← isKey, List.getElem?_map, isAggregate]
      exact congrArg some (isFor_iff_key.mp own.isFor)
  · intro separable
    have own : ∀ c ∈ compiled, ∃ (n : Nat) (agg : TAggregate), c.reference = n ∧
        rule.aggregates[n]? = some agg ∧ c.mention.IsOwn rule n agg := by
      intro c mem
      obtain ⟨before, after, split⟩ := List.append_of_mem mem
      obtain ⟨n, isReference, isKey⟩ := settled.key_of_reference split
      have unparted := separable.unparted
      rw [keys, unparted_iff] at unparted
      have last := unparted (before.map fun c => c.mention.key) c.mention.key
        (after.map fun c => c.mention.key) (by rw [split, List.map_append, List.map_cons])
      rw [last, List.getElem?_map] at isKey
      obtain ⟨agg, isAggregate, sameKey⟩ := Option.map_eq_some_iff.mp isKey
      refine ⟨n, agg, isReference, isAggregate, ?_⟩
      refine settled.own_of_alike mem ?_ isAggregate sameKey
      intro c' mem' same
      exact separable.alike _ (List.mem_map_of_mem mem) _ (List.mem_map_of_mem mem') same
    refine ⟨own, ?_⟩
    intro c mem c' mem' differ same
    obtain ⟨n, agg, isReference, isAggregate, isOwn⟩ := own c mem
    obtain ⟨n', agg', isReference', isAggregate', isOwn'⟩ := own c' mem'
    cases Int.ofNat_inj.mp (isReference.symm.trans (same.trans isReference'))
    cases isAggregate.symm.trans isAggregate'
    exact differ (isOwn.alike isOwn')

end Settled

/-- Each reference is to the aggregate of its own atom if and only if the atoms with the same
function, event type and attribute are alike and none with others is new between them. -/
theorem oneToOne_iff_separable {t : Trex_rule} {s : Parser} {rule : RulePkt}
    (run : walk t Parser.new = some ((), s)) (made : s.rule = some rule) :
    OneToOne s.compiled rule ↔ ∃ mentions, t.mentions = some mentions ∧ Separable mentions := by
  obtain ⟨mentioned, settled⟩ := walk_settled run made
  rw [settled.oneToOne_iff]
  constructor
  · intro separable
    exact ⟨_, mentioned, separable⟩
  · rintro ⟨mentions, isMentions, separable⟩
    cases mentioned.symm.trans isMentions
    exact separable

/-- Atoms that ask for different things are compiled one to one. -/
theorem separable_of_nodup {mentions : List Mention} (nodup : (mentions.map Mention.key).Nodup) :
    Separable mentions where
  alike m mem m' mem' same := by
    cases List.inj_on_of_nodup_map nodup mem mem' same
    exact ⟨rfl, fun _ => Iff.rfl, fun _ => Iff.rfl⟩
  unparted := unparted_of_nodup nodup

/-- A rule for a state of type 1 whose attributes are two aggregates of the attribute `V` of the
type 2. -/
def twoAggregates (first second : Aggr_fun × Nat) : Trex_rule :=
  let value (ctx : Aggr_fun × Nat) : Expr := .atom (.aggregate
    { aggr_fun := ctx.1
      evt_name := ['B']
      attr_name := ['V']
      attr_constraint := []
      attr_parameter := []
      window := .within ctx.2 ['A'] })
  { event_declarations := [(1, ['A']), (2, ['B']), (3, ['C'])]
    ce_definition := (['C'], [(['X'], .int), (['Y'], .int)])
    terminator := ⟨['A'], [], none⟩
    pattern_predicates := []
    definitions := [.attr ['X'] (value first), .attr ['Y'] (value second)]
    consuming := [] }

theorem parse_eq_some {t : Trex_rule} {rule : RulePkt} :
    parse t = some rule ↔ ∃ s, walk t Parser.new = some ((), s) ∧ s.rule = some rule := by
  have isBind : parse t = (walk t Parser.new).bind fun x => x.2.rule := rfl
  rw [isBind, Option.bind_eq_some_iff]
  constructor
  · rintro ⟨⟨_, s⟩, run, made⟩
    exact ⟨s, run, made⟩
  · rintro ⟨s, run, made⟩
    exact ⟨_, run, made⟩

theorem sumAndCount_parsed : (parse (twoAggregates (.sum, 5) (.count, 5))).isSome := by
  decide +kernel

theorem twoWindows_parsed : (parse (twoAggregates (.sum, 5) (.sum, 9))).isSome := by
  decide +kernel

theorem sumAndCount_oneToOne : ∃ s rule,
    walk (twoAggregates (.sum, 5) (.count, 5)) Parser.new = some ((), s) ∧ s.rule = some rule ∧
      OneToOne s.compiled rule := by
  obtain ⟨rule, parsed⟩ := Option.isSome_iff_exists.mp sumAndCount_parsed
  obtain ⟨s, run, made⟩ := parse_eq_some.mp parsed
  refine ⟨s, rule, run, made, (oneToOne_iff_separable run made).mpr ⟨_, rfl, ?_⟩⟩
  exact separable_of_nodup (by decide +kernel)

/-- The sum over a longer time gets the aggregate of the other. -/
theorem twoWindows_not_oneToOne : ∃ s rule,
    walk (twoAggregates (.sum, 5) (.sum, 9)) Parser.new = some ((), s) ∧ s.rule = some rule ∧
      ¬ OneToOne s.compiled rule := by
  obtain ⟨rule, parsed⟩ := Option.isSome_iff_exists.mp twoWindows_parsed
  obtain ⟨s, run, made⟩ := parse_eq_some.mp parsed
  obtain ⟨mentioned, settled⟩ := walk_settled run made
  refine ⟨s, rule, run, made, ?_⟩
  rw [settled.oneToOne_iff, ← Option.some.inj mentioned]
  intro separable
  have alike := separable.alike _ List.mem_cons_self _
    (List.mem_cons_of_mem _ List.mem_cons_self) rfl
  exact absurd alike.bounds (by decide)

end TRex.Tesla
