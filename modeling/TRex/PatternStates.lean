import TRex.WalkOrder

/-!
# States of the pattern

The parser keeps the states of a rule in a list without equal elements, beside a list of their
names, and resolves a name to its position. `OwnStates` says what the packet of a rule should be,
and `InOrder` what the rule must be for this; here are the states, and where they stand in the
rule. -/

namespace TRex.Tesla

/-! ## Names and positions -/

section Positions

variable {known names : List CString} {name : CString}

theorem indexOf_of_getElem? (nodup : names.Nodup) {i : Nat} (here : names[i]? = some name) :
    indexOf names name = i := by
  obtain ⟨lt, isName⟩ := List.getElem?_eq_some_iff.mp here
  have found : names.findIdx? (· == name) = some i := by
    rw [List.findIdx?_eq_some_iff_getElem]
    refine ⟨lt, by rw [isName, beq_self_eq_true], fun j before same => ?_⟩
    have inside : j < names.length := by omega
    have there : names[j]? = names[i]? := by
      rw [here, List.getElem?_eq_getElem inside, beq_iff_eq.mp same]
    have equal := (List.getElem?_inj inside nodup).mp there
    omega
  rw [indexOf, found]

theorem indexOf_of_not_mem (unknown : name ∉ names) : indexOf names name = -1 := by
  have none : names.findIdx? (· == name) = none := by
    rw [List.findIdx?_eq_none_iff]
    intro other mem
    rw [beq_eq_false_iff_ne]
    exact fun same => unknown (same ▸ mem)
  rw [indexOf, none]

/-- A name has the same position in a list that goes on, unless it comes later only. -/
theorem indexOf_eq_iff (nodup : names.Nodup) (isPrefix : known <+: names) :
    indexOf known name = indexOf names name ↔ (name ∈ names → name ∈ known) := by
  by_cases isKnown : name ∈ known
  · refine iff_of_true ?_ fun _ => isKnown
    obtain ⟨i, here⟩ := List.mem_iff_getElem?.mp isKnown
    have there : names[i]? = some name := by
      obtain ⟨rest, same⟩ := isPrefix
      rw [← same, List.getElem?_append_left (List.getElem?_eq_some_iff.mp here).1]
      exact here
    rw [indexOf_of_getElem? (nodup.sublist isPrefix.sublist) here, indexOf_of_getElem? nodup there]
  · rw [indexOf_of_not_mem isKnown]
    by_cases mem : name ∈ names
    · obtain ⟨i, there⟩ := List.mem_iff_getElem?.mp mem
      rw [indexOf_of_getElem? nodup there]
      refine iff_of_false ?_ fun all => isKnown (all mem)
      omega
    · rw [indexOf_of_not_mem mem]
      exact iff_of_true rfl fun there => absurd there mem

end Positions

/-! ## What is required -/

def Window.names : Window → List CString
  | .within _ evt_name => [evt_name]
  | .between lower upper => [lower, upper]

namespace Trex_rule

variable (t : Trex_rule)

/-- All predicates of the pattern. -/
def predicates : List Predicate :=
  t.terminator :: t.pattern_predicates.map Pattern_predicate.predicate

/-- The terminator and the positive predicates. -/
def states : List State := t.heads.filterMap Operation.state?

def negations : List (Predicate × Window) := t.heads.filterMap Operation.negation?

/-- The names that stand for states. -/
def names : List CString := t.states.map fun state => state.predicate.name

/-- The event types of the declarations. -/
def declared (evt_name : CString) : Option Int :=
  (Parser.new.names.declarations t.event_declarations).bind fun names =>
    names.predicates_map evt_name

/-- What names stand for in the whole rule. -/
def allNames : Names := ⟨t.declared, [], t.names⟩

/-- The names of the predicates are different, and no alias is the name of an event of another
kind. -/
structure WellNamed : Prop where
  distinct : (t.predicates.map Predicate.name).Nodup
  aliases : ∀ p ∈ t.predicates, ∀ q ∈ t.predicates,
    p.event_alias = some q.evt_name → p.evt_name = q.evt_name

end Trex_rule

/-- The reference is to the state that the atom names, with the attribute that it asks for. A
parameter stands for an attribute of a predicate that it is mapped in. -/
def Atom.Means (t : Trex_rule) : Atom → Java.OpValueReference → Prop
  | .packet evt_name attr_name, ref =>
    ref = .rulePkt (indexOf t.names evt_name) .state attr_name
  | .param param_name, ref => ∃ predicate ∈ t.predicates, ∃ attr_name,
    .param_mapping attr_name param_name ∈ predicate.items ∧
      ref = .rulePkt (indexOf t.names predicate.name) .state attr_name
  | _, _ => True

/-- The parameter's own attribute is one of a state. -/
def ComplexParameter.BelongsTo (p : ComplexParameter) (par : Parameter) (index : Int) : Prop :=
  p.leftTree =
    .leaf par (.rulePkt index .state par.attr_name) (some (getValType par.valtype))

/-- Each terminator and positive predicate is a state, in their order, and what is referred to by a
name is the state of that name. -/
structure OwnStates (t : Trex_rule) (rule : RulePkt) : Prop where
  states : List.Forall₂ (fun state ep => state.IsCompiled t.allNames ep) t.states rule.predicates
  owners : ∀ (i : Nat) (state : State), t.states[i]? = some state →
    ∀ par ∈ state.predicate.attr_parameter, ∃ p ∈ rule.parameters, p.sType = .state ∧
      p.BelongsTo par i
  owned : ∀ p ∈ rule.parameters, p.sType = .state → ∃ (i : Nat) (state : State),
    t.states[i]? = some state ∧ ∃ par ∈ state.predicate.attr_parameter, p.BelongsTo par i
  parameters : ∀ p ∈ rule.parameters, ∀ leaf ∈ p.rightTree.leaves, leaf.1.Means t leaf.2
  attributes : ∀ attr ∈ rule.eventTemplate.attributes, ∀ leaf ∈ attr.2.leaves,
    leaf.1.Means t leaf.2
  negations : List.Forall₂ (fun negation neg => negation.2.bounds parseLong t.names =
    some (neg.lowerId, neg.lowerTime, neg.upperId)) t.negations rule.negations
  /-- The aggregate that an atom makes, if it is the first with its function, event type and
  attribute. -/
  aggregates : ∀ mentions, t.mentions = some mentions → ∀ before m after,
    mentions = before ++ m :: after → m.key ∉ before.map Mention.key →
      ∃ agg ∈ rule.aggregates, agg.key = m.key ∧
        m.atom.window.bounds parseInt t.names = some (agg.lowerId, agg.lowerTime, agg.upperId)
  consuming : rule.consuming = t.consuming.map (indexOf t.names)

/-! ## When it is met -/

/-- The two states have no constraints, and are alike in everything but their names. -/
structure State.Alike (t : Trex_rule) (a b : State) : Prop where
  unconstrained : a.predicate.attr_constraint = [] ∧ b.predicate.attr_constraint = []
  eventType : t.declared a.predicate.evt_name = t.declared b.predicate.evt_name
  refersTo : a.refersTo t.names = b.refersTo t.names
  window : a.window = b.window
  policy : a.policy = b.policy

def Atom.packet? : Atom → Option CString
  | .packet evt_name _ => some evt_name
  | _ => none

/-- The names in an expression. -/
def packets (expr : Expr) : List CString := expr.leaves.filterMap Atom.packet?

/-- The names that are resolved when something in the pattern is compiled. -/
def Operation.references : Operation → List CString
  | .enter state => state.reference.toList.map fun ref => ref.2.2
  | .negate _ window => window.names
  | .parameter _ par => packets par.expr
  | .atom ctx => ctx.attr_parameter.flatMap fun par => packets par.expr
  | _ => []

/-- No two states are alike, and no name stands for a state that comes only later. -/
structure InOrder (t : Trex_rule) : Prop where
  apart : t.states.Pairwise fun a b => ¬ a.Alike t b
  backward : ∀ before op after, t.operations = before ++ op :: after → ∀ name ∈ op.references,
    name ∈ t.names → ∃ state, .enter state ∈ before ∧ state.predicate.name = name
  windows : ∀ mentions, t.mentions = some mentions → ∀ before m after,
    mentions = before ++ m :: after → m.key ∉ before.map Mention.key →
      ∀ name ∈ m.atom.window.names, name ∈ t.names → name ∈ m.names.rule_predicates_names

/-! ## Entering states -/

namespace Names

variable {names names' : Names} {state : State}

def enterAll (names : Names) (states : List State) : Option Names :=
  states.foldlM enterState names

/-- A state that no earlier one is equal to. -/
def add (names : Names) (state : State) (ep : EventPredicate) : Names :=
  { names.addAlias state.predicate.event_alias ep.eventType with
    rule_predicates := names.rule_predicates ++ [ep]
    rule_predicates_names := names.rule_predicates_names ++ [state.predicate.name] }

/-- All states are added. -/
inductive Entered : Names → List State → Names → Prop
  | nil {names : Names} : Entered names [] names
  | cons {names names' : Names} {state : State} {states : List State} {ep : EventPredicate}
      (compiled : state.IsCompiled names ep) (new : ∀ old ∈ names.rule_predicates, ¬ ep.equals old)
      (rest : Entered (names.add state ep) states names') : Entered names (state :: states) names'

/-- A state is added, or one that is equal was there. -/
theorem enterState_cases (entered : names.enterState state = some names') :
    ∃ ep, state.IsCompiled names ep ∧
      (((∀ old ∈ names.rule_predicates, ¬ ep.equals old) ∧ names' = names.add state ep) ∨
      ((∃ old ∈ names.rule_predicates, ep.equals old) ∧
        names'.rule_predicates = names.rule_predicates)) := by
  obtain ⟨ep, compiled, made⟩ := enterState_eq_some entered
  refine ⟨ep, compiled, ?_⟩
  rw [addPredicate, addAlias_predicates, addAlias_names] at made
  split at made
  case isTrue found =>
    refine .inr ⟨List.any_eq_true.mp found, ?_⟩
    rw [made, addAlias_predicates]
  case isFalse new =>
    refine .inl ⟨fun old mem same => new (List.any_eq_true.mpr ⟨old, mem, same⟩), made⟩

theorem enterAll_cons (names : Names) (state : State) (states : List State) :
    names.enterAll (state :: states) =
      (names.enterState state).bind fun names => names.enterAll states := rfl

theorem length_enterAll_le {states : List State} (entered : names.enterAll states = some names') :
    names'.rule_predicates.length ≤ names.rule_predicates.length + states.length := by
  induction states generalizing names with
  | nil =>
      cases entered
      exact Nat.le_refl _
  | cons state states ih =>
      rw [enterAll_cons] at entered
      obtain ⟨mid, first, rest⟩ := Option.bind_eq_some_iff.mp entered
      have behind := ih rest
      obtain ⟨ep, -, added | found⟩ := enterState_cases first
      · rw [added.2, add, List.length_append, List.length_singleton] at behind
        rw [List.length_cons]
        omega
      · rw [found.2] at behind
        rw [List.length_cons]
        omega

/-- If there are as many predicates as states, each state was added. -/
theorem entered_of_length {states : List State} (entered : names.enterAll states = some names')
    (length : names'.rule_predicates.length = names.rule_predicates.length + states.length) :
    Entered names states names' := by
  induction states generalizing names with
  | nil =>
      cases entered
      exact .nil
  | cons state states ih =>
      rw [enterAll_cons] at entered
      obtain ⟨mid, first, rest⟩ := Option.bind_eq_some_iff.mp entered
      have atMost := length_enterAll_le rest
      rw [List.length_cons] at length
      obtain ⟨ep, compiled, added | found⟩ := enterState_cases first
      · rw [added.2] at rest
        refine .cons compiled added.1 (ih rest ?_)
        rw [add, List.length_append, List.length_singleton]
        omega
      · rw [found.2] at atMost
        omega

theorem Entered.names_eq {states : List State} (entered : Entered names states names') :
    names'.rule_predicates_names =
      names.rule_predicates_names ++ states.map fun state => state.predicate.name := by
  induction entered with
  | nil => exact (List.append_nil _).symm
  | cons compiled new rest ih =>
      rw [ih, add, List.append_assoc]
      rfl

/-- Each predicate is compiled with the names of the states before it. -/
theorem Entered.predicates {states : List State} (entered : Entered names states names') :
    ∃ eps, names'.rule_predicates = names.rule_predicates ++ eps ∧
      eps.length = states.length ∧
      ∀ before state after, states = before ++ state :: after →
        ∃ ep, eps[before.length]? = some ep ∧
        ep.refersTo = state.refersTo
          (names.rule_predicates_names ++ before.map fun state => state.predicate.name) := by
  induction entered with
  | nil =>
      refine ⟨[], (List.append_nil _).symm, rfl, fun before state after split => ?_⟩
      cases before <;> cases split
  | @cons names names' state states ep compiled new rest ih =>
      obtain ⟨eps, predicates, length, each⟩ := ih
      refine ⟨ep :: eps, ?_, congrArg (· + 1) length, fun before other after split => ?_⟩
      · rw [predicates, add, List.append_assoc]
        rfl
      · cases before with
        | nil =>
            cases split
            exact ⟨ep, rfl, by rw [compiled.refersTo, List.map_nil, List.append_nil]⟩
        | cons first before =>
            obtain ⟨same, split⟩ := List.cons.inj split
            obtain ⟨ep', there, refers⟩ := each before other after split
            refine ⟨ep', there, ?_⟩
            rw [refers, add, ← same, List.append_assoc]
            rfl

theorem Entered.pairwise {states : List State} (entered : Entered names states names')
    (apart : names.rule_predicates.Pairwise fun p q => ¬ q.equals p) :
    names'.rule_predicates.Pairwise fun p q => ¬ q.equals p := by
  induction entered with
  | nil => exact apart
  | @cons names names' state states ep compiled new rest ih =>
      refine ih (List.pairwise_append.mpr ⟨apart, List.pairwise_singleton _ _, ?_⟩)
      intro old mem other last
      rw [List.mem_singleton.mp last]
      exact new old mem

end Names

/-! ## Alike states -/

theorem noConstraints_iff {ctx : Predicate} {constraints : List Constraint}
    (parsed : ctx.constraints = some constraints) :
    constraints = [] ↔ ctx.attr_constraint = [] := by
  rw [Predicate.constraints] at parsed
  cases isList : ctx.attr_constraint with
  | nil =>
      rw [isList] at parsed
      cases parsed
      exact iff_of_true rfl rfl
  | cons con rest =>
      rw [isList, List.mapM_cons] at parsed
      obtain ⟨c, -, parsed⟩ := Option.bind_eq_some_iff.mp parsed
      obtain ⟨cs, -, parsed⟩ := Option.bind_eq_some_iff.mp parsed
      cases parsed
      exact iff_of_false (List.cons_ne_nil _ _) (List.cons_ne_nil _ _)

section Alike

variable {t : Trex_rule}

/-- The predicates of two states are equal if and only if the states are alike. -/
theorem equals_iff_alike {a b : State} {p q : EventPredicate}
    (isA : a.IsCompiled t.allNames p) (isB : b.IsCompiled t.allNames q) :
    q.equals p ↔ a.Alike t b := by
  have typeA : t.declared a.predicate.evt_name = some p.eventType := isA.eventType
  have typeB : t.declared b.predicate.evt_name = some q.eventType := isB.eventType
  have refersA : p.refersTo = a.refersTo t.names := isA.refersTo
  have refersB : q.refersTo = b.refersTo t.names := isB.refersTo
  simp only [EventPredicate.equals, Bool.and_eq_true, List.isEmpty_iff, beq_iff_eq,
    noConstraints_iff isA.constraints, noConstraints_iff isB.constraints]
  constructor
  · intro ⟨⟨⟨⟨⟨noneB, noneA⟩, eventType⟩, kind⟩, refersTo⟩, win⟩
    refine ⟨⟨noneA, noneB⟩, by rw [typeA, typeB, eventType], ?_, ?_, ?_⟩
    · rw [← refersA, ← refersB, refersTo]
    · have same := isA.win.symm.trans (win.symm.trans isB.win)
      exact_mod_cast same
    · exact isA.kind.symm.trans (kind.symm.trans isB.kind)
  · intro alike
    refine ⟨⟨⟨⟨alike.unconstrained.symm, ?_⟩, ?_⟩, ?_⟩, ?_⟩
    · exact Option.some.inj (typeB.symm.trans (alike.eventType.symm.trans typeA))
    · rw [isB.kind, isA.kind, alike.policy]
    · rw [refersB, refersA, alike.refersTo]
    · rw [isB.win, isA.win, alike.window]

end Alike

/-! ## Where operations stand -/

/-- An element of a list of blocks is the head of a block, or it stands behind the head. -/
theorem split_blocks {α : Type} {body : α → List α} {l before after : List α} {y : α}
    (split : (l.flatMap fun x => x :: body x) = before ++ y :: after) :
    (∃ pre post, l = pre ++ y :: post ∧ before = pre.flatMap fun x => x :: body x) ∨
      ∃ x ∈ l, x ∈ before ∧ y ∈ body x := by
  induction l generalizing before with
  | nil => cases before <;> cases split
  | cons x l ih =>
      rw [List.flatMap_cons, List.cons_append] at split
      cases before with
      | nil =>
          obtain ⟨same, -⟩ := List.cons.inj split
          exact .inl ⟨[], l, by rw [same]; rfl, rfl⟩
      | cons b before =>
          obtain ⟨same, behind⟩ := List.cons.inj split
          subst same
          rcases List.append_eq_append_iff.mp behind with
            ⟨rest, isBefore, isRest⟩ | ⟨rest, isBody, isRest⟩
          · rcases ih isRest with ⟨pre, post, heads, here⟩ | ⟨z, mem, earlier, inBody⟩
            · refine .inl ⟨x :: pre, post, congrArg (x :: ·) heads, ?_⟩
              rw [isBefore, here, List.flatMap_cons]
              rfl
            · refine .inr ⟨z, List.mem_cons_of_mem _ mem, ?_, inBody⟩
              rw [isBefore]
              exact List.mem_cons_of_mem _ (List.mem_append_right _ earlier)
          · cases rest with
            | nil =>
                rcases @ih [] isRest.symm with ⟨pre, post, heads, here⟩ | ⟨z, -, none, -⟩
                · refine .inl ⟨x :: pre, post, congrArg (x :: ·) heads, ?_⟩
                  rw [List.flatMap_cons, ← here, isBody, List.append_nil, List.append_nil]
                · exact (List.not_mem_nil none).elim
            | cons z rest =>
                obtain ⟨same, -⟩ := List.cons.inj isRest
                refine .inr ⟨x, List.mem_cons_self, List.mem_cons_self, ?_⟩
                rw [isBody, same]
                exact List.mem_append_right _ List.mem_cons_self

theorem mem_operations {ctx : Predicate} {owner : Option CString} {op : Operation}
    (mem : op ∈ ctx.operations owner) :
    (∃ par ∈ ctx.attr_parameter, op = .parameter owner par) ∨
      (∃ attr_name param_name, .param_mapping attr_name param_name ∈ ctx.items ∧
        op = .mapping ctx attr_name param_name) ∨ ∃ agg, op = .atom agg := by
  rw [Predicate.operations, List.mem_append, List.mem_map, List.mem_flatMap] at mem
  rcases mem with ⟨par, isParameter, same⟩ | ⟨item, isItem, mem⟩
  · exact .inl ⟨par, isParameter, same.symm⟩
  · cases item with
    | param_mapping attr_name param_name =>
        exact .inr (.inl ⟨attr_name, param_name, isItem, List.mem_singleton.mp mem⟩)
    | attr_constraint cons => exact (List.not_mem_nil mem).elim
    | attr_parameter par =>
        obtain ⟨agg, -, same⟩ := List.mem_map.mp mem
        exact .inr (.inr ⟨agg, same.symm⟩)

/-- The predicate that an operation enters. -/
def Operation.predicate? : Operation → Option Predicate
  | .enter state => some state.predicate
  | .negate ctx _ => some ctx
  | _ => none

theorem mem_body {head op : Operation} (mem : op ∈ head.body) : ∃ ctx, head.predicate? = some ctx ∧
    ((∃ par ∈ ctx.attr_parameter,
        op = .parameter (head.state?.map fun state => state.predicate.name) par) ∨
      (∃ attr_name param_name, .param_mapping attr_name param_name ∈ ctx.items ∧
        op = .mapping ctx attr_name param_name) ∨ ∃ agg, op = .atom agg) := by
  cases head with
  | enter state => exact ⟨state.predicate, rfl, mem_operations mem⟩
  | negate ctx window => exact ⟨ctx, rfl, mem_operations mem⟩
  | parameter | mapping | atom | static | attr | consume => exact (List.not_mem_nil mem).elim

/-- What is done in the tail of a rule. -/
def Operation.IsLast : Operation → Prop
  | .atom _ | .static _ _ | .attr _ _ | .consume _ => True
  | _ => False

namespace Trex_rule

variable {t : Trex_rule} {before after : List Operation} {op : Operation}

theorem isLast_of_mem_tail (mem : op ∈ t.tail) : op.IsLast := by
  simp only [tail, List.mem_append, List.mem_map, List.mem_flatMap, List.mem_singleton] at mem
  rcases mem with ((⟨sdef, -, same⟩ | ⟨attr, -, same⟩) | ⟨definition, -, mem⟩) | same
  · rw [← same]
    trivial
  · rw [← same]
    trivial
  · cases definition with
    | static attr_name ref => exact (List.not_mem_nil mem).elim
    | attr attr_name expr =>
        obtain ⟨agg, -, same⟩ := List.mem_map.mp mem
        rw [← same]
        trivial
  · rw [same]
    trivial

theorem operations_split (split : t.operations = before ++ op :: after) :
    (∃ pre post, t.heads = pre ++ op :: post ∧
        before = pre.flatMap fun head => head :: head.body) ∨
      (∃ head ∈ t.heads, head ∈ before ∧ op ∈ head.body) ∨
      op ∈ t.tail ∧ ∃ rest, before = (t.heads.flatMap fun head => head :: head.body) ++ rest ∧
        t.tail = rest ++ op :: after := by
  rcases List.append_eq_append_iff.mp split with
    ⟨rest, isBefore, isTail⟩ | ⟨rest, isBlocks, isAfter⟩
  · refine .inr (.inr ⟨?_, rest, isBefore, isTail⟩)
    rw [isTail]
    exact List.mem_append_right _ List.mem_cons_self
  · cases rest with
    | nil =>
        refine .inr (.inr ⟨?_, [], ?_, isAfter.symm⟩)
        · rw [List.nil_append] at isAfter
          rw [← isAfter]
          exact List.mem_cons_self
        · rw [isBlocks, List.append_nil, List.append_nil]
    | cons z rest =>
        obtain ⟨same, -⟩ := List.cons.inj isAfter
        rw [← same] at isBlocks
        rcases split_blocks isBlocks with head | inBody
        · exact .inl head
        · exact .inr (.inl inBody)

/-- Behind the heads, no states or negations are entered. -/
theorem filterMap_blocks {β : Type} (f : Operation → Option β)
    (none : ∀ op, op.predicate? = none → f op = Option.none) (heads : List Operation) :
    (heads.flatMap fun head => head :: head.body).filterMap f = heads.filterMap f := by
  induction heads with
  | nil => rfl
  | cons head heads ih =>
      have empty : head.body.filterMap f = [] := by
        rw [List.filterMap_eq_nil_iff]
        intro op mem
        obtain ⟨ctx, -, ⟨par, -, same⟩ | ⟨attr_name, param_name, -, same⟩ | ⟨agg, same⟩⟩ :=
          mem_body mem
        all_goals exact none op (by rw [same]; rfl)
      rw [List.flatMap_cons, List.filterMap_append, ih, List.filterMap_cons, List.filterMap_cons,
        empty]
      cases f head <;> rfl

theorem filterMap_tail {β : Type} (f : Operation → Option β)
    (none : ∀ op, op.predicate? = none → f op = Option.none) : t.tail.filterMap f = [] := by
  rw [List.filterMap_eq_nil_iff]
  intro op mem
  have isLast := isLast_of_mem_tail mem
  refine none op ?_
  cases op with
  | enter | negate => exact isLast.elim
  | parameter | mapping | atom | static | attr | consume => rfl

theorem filterMap_operations {β : Type} (f : Operation → Option β)
    (none : ∀ op, op.predicate? = none → f op = Option.none) :
    t.operations.filterMap f = t.heads.filterMap f := by
  rw [operations, List.filterMap_append, filterMap_blocks f none, filterMap_tail f none,
    List.append_nil]

end Trex_rule

theorem state?_of_predicate? (op : Operation) (none : op.predicate? = none) :
    op.state? = Option.none := by
  cases op with
  | enter | negate => cases none
  | parameter | mapping | atom | static | attr | consume => rfl

theorem negation?_of_predicate? (op : Operation) (none : op.predicate? = none) :
    op.negation? = Option.none := by
  cases op with
  | enter | negate => cases none
  | parameter | mapping | atom | static | attr | consume => rfl

/-! ## Heads -/

/-- The names of the states that some operations enter. -/
def known (ops : List Operation) : List CString :=
  (ops.filterMap Operation.state?).map fun state => state.predicate.name

theorem mem_known {ops : List Operation} {name : CString} :
    name ∈ known ops ↔ ∃ state, .enter state ∈ ops ∧ state.predicate.name = name := by
  rw [known, List.mem_map]
  refine exists_congr fun state => and_congr_left fun _ => ?_
  rw [List.mem_filterMap]
  constructor
  · intro ⟨op, mem, isState⟩
    cases op with
    | enter other =>
        cases isState
        exact mem
    | negate | parameter | mapping | atom | static | attr | consume => cases isState
  · intro mem
    exact ⟨_, mem, rfl⟩

namespace Trex_rule

variable {t : Trex_rule}

theorem filterMap_predicate? : t.heads.filterMap Operation.predicate? = t.predicates := by
  have each : ∀ p : Pattern_predicate, p.head.predicate? = some p.predicate := by
    intro p
    cases p <;> rfl
  refine congrArg (t.terminator :: ·) ?_
  rw [List.filterMap_map, show Operation.predicate? ∘ Pattern_predicate.head =
    some ∘ Pattern_predicate.predicate from funext each, List.filterMap_eq_map]

theorem mem_predicates {head : Operation} (mem : head ∈ t.heads) {ctx : Predicate}
    (isPredicate : head.predicate? = some ctx) : ctx ∈ t.predicates := by
  rw [← filterMap_predicate?]
  exact List.mem_filterMap.mpr ⟨head, mem, isPredicate⟩

theorem enter_mem_heads {state : State} (mem : state ∈ t.states) : .enter state ∈ t.heads := by
  obtain ⟨op, isHead, isState⟩ := List.mem_filterMap.mp mem
  cases op with
  | enter other =>
      cases isState
      exact isHead
  | negate | parameter | mapping | atom | static | attr | consume => cases isState

theorem states_sublist (heads : List Operation) :
    ((heads.filterMap Operation.state?).map State.predicate).Sublist
      (heads.filterMap Operation.predicate?) := by
  induction heads with
  | nil => exact .slnil
  | cons head heads ih =>
      cases head with
      | enter state => exact ih.cons_cons _
      | negate ctx window => exact ih.cons _
      | parameter | mapping | atom | static | attr | consume => exact ih

theorem names_eq (heads : List Operation) :
    ((heads.filterMap Operation.state?).map fun state => state.predicate.name) =
      ((heads.filterMap Operation.state?).map State.predicate).map Predicate.name := by
  rw [List.map_map]
  rfl

theorem WellNamed.nodup (named : t.WellNamed) : t.names.Nodup := by
  have sublist := (states_sublist t.heads).map Predicate.name
  rw [filterMap_predicate?] at sublist
  rw [names, states, names_eq]
  exact named.distinct.sublist sublist

/-- The name of a negation stands for no state. -/
theorem WellNamed.not_mem_names (named : t.WellNamed) {ctx : Predicate} {window : Window}
    (mem : .negate ctx window ∈ t.heads) : ctx.name ∉ t.names := by
  obtain ⟨pre, post, split⟩ := List.append_of_mem mem
  have distinct := named.distinct
  have negated : (Operation.negate ctx window :: post).filterMap Operation.predicate? =
      ctx :: post.filterMap Operation.predicate? := rfl
  rw [← filterMap_predicate?, split, List.filterMap_append, negated, List.map_append,
    List.map_cons] at distinct
  have apart := (List.nodup_middle.mp distinct).notMem
  rw [names, states, names_eq, split, List.filterMap_append]
  intro among
  rw [show (Operation.negate ctx window :: post).filterMap Operation.state? =
    post.filterMap Operation.state? from rfl, List.map_append, List.map_append] at among
  refine apart (List.mem_append.mpr ((List.mem_append.mp among).imp ?_ ?_))
  · exact fun inPre => ((states_sublist pre).map Predicate.name).subset inPre
  · exact fun inPost => ((states_sublist post).map Predicate.name).subset inPost

/-- Where a head stands among the operations. -/
theorem operations_of_heads {pre post : List Operation} {head : Operation}
    (split : t.heads = pre ++ head :: post) : ∃ after, t.operations =
      (pre.flatMap fun head => head :: head.body) ++ head :: after := by
  refine ⟨head.body ++ (post.flatMap fun head => head :: head.body) ++ t.tail, ?_⟩
  rw [operations, split, List.flatMap_append, List.flatMap_cons]
  simp only [List.append_assoc, List.cons_append]

/-- Where a state or a negation stands. -/
theorem operations_of_filterMap {β : Type} {f : Operation → Option β}
    (none : ∀ op, op.predicate? = none → f op = Option.none) {before after : List β} {y : β}
    (split : t.heads.filterMap f = before ++ y :: after) :
    ∃ front op back, t.operations = front ++ op :: back ∧ f op = some y ∧
      front.filterMap f = before := by
  obtain ⟨pre, post, isHeads, isBefore, isAfter⟩ := List.filterMap_eq_append_iff.mp split
  obtain ⟨skipped, op, rest, isPost, nothing, isY, -⟩ := List.filterMap_eq_cons_iff.mp isAfter
  rw [isPost, ← List.append_assoc] at isHeads
  obtain ⟨back, operations⟩ := operations_of_heads isHeads
  refine ⟨_, op, back, operations, isY, ?_⟩
  rw [filterMap_blocks f none, List.filterMap_append, isBefore,
    List.filterMap_eq_nil_iff.mpr nothing, List.append_nil]

theorem known_operations : known t.operations = t.names := by
  rw [known, filterMap_operations _ state?_of_predicate?]
  rfl

theorem known_prefix {before after : List Operation} (split : t.operations = before ++ after) :
    known before <+: t.names := by
  rw [← known_operations, split, known, known, List.filterMap_append, List.map_append]
  exact List.prefix_append _ _

end Trex_rule

/-! ## The states -/

section States

variable {t : Trex_rule}

/-- The events of the pattern have the types that they are declared with. -/
def Typed (t : Trex_rule) (names : Names) : Prop :=
  ∀ p ∈ t.predicates, names.predicates_map p.evt_name = t.declared p.evt_name

theorem Typed.add (named : t.WellNamed) {names : Names} (typed : Typed t names) {state : State}
    (mem : state.predicate ∈ t.predicates) {ep : EventPredicate}
    (compiled : state.IsCompiled names ep) : Typed t (names.add state ep) := by
  intro p isPredicate
  have before := typed p isPredicate
  show (names.addAlias state.predicate.event_alias ep.eventType).predicates_map _ = _
  cases isAlias : state.predicate.event_alias with
  | none => exact before
  | some evt_alias =>
      show Function.update names.predicates_map evt_alias (some ep.eventType) p.evt_name = _
      by_cases same : p.evt_name = evt_alias
      · rw [← same] at isAlias
        have event := named.aliases _ mem p isPredicate isAlias
        rw [same, Function.update_self, ← same, ← event, ← typed _ mem, compiled.eventType]
      · rw [Function.update_of_ne same]
        exact before

/-- The state that a state refers to is found if and only if it is known already. -/
theorem State.refersTo_eq_iff {known names : List CString} (nodup : names.Nodup)
    (isPrefix : known <+: names) (state : State) :
    state.refersTo known = state.refersTo names ↔
      ∀ name ∈ (Operation.enter state).references, name ∈ names → name ∈ known := by
  obtain ⟨predicate, reference⟩ := state
  cases reference with
  | none => exact iff_of_true rfl fun name mem => (List.not_mem_nil mem).elim
  | some ref =>
      refine (indexOf_eq_iff nodup isPrefix).trans ?_
      show _ ↔ ∀ name ∈ [ref.2.2], _
      rw [List.forall_mem_singleton]

/-- In order, what a state refers to is one of the states before it. -/
theorem refersTo_of_inOrder (named : t.WellNamed) (order : InOrder t) {earlier later : List State}
    {state : State} (split : t.states = earlier ++ state :: later) :
    state.refersTo (earlier.map fun state => state.predicate.name) = state.refersTo t.names := by
  obtain ⟨front, op, back, operations, isOp, isEarlier⟩ :=
    Trex_rule.operations_of_filterMap state?_of_predicate? split
  have isEnter : op = .enter state := by
    cases op with
    | enter other => exact congrArg _ (Option.some.inj isOp)
    | negate | parameter | mapping | atom | static | attr | consume => cases isOp
  rw [isEnter] at operations
  have isKnown : known front = earlier.map fun state => state.predicate.name := by
    rw [known, isEarlier]
  rw [← isKnown, State.refersTo_eq_iff named.nodup (Trex_rule.known_prefix operations)]
  intro name isReference isName
  exact mem_known.mpr (order.backward _ _ _ operations name isReference isName)

/-- In order, each state is added with what it stands for in the whole rule. -/
theorem states_of_inOrder (named : t.WellNamed) (order : InOrder t) {names' : Names} :
    ∀ (later earlier : List State) (names : Names), t.states = earlier ++ later → Typed t names →
      names.rule_predicates_names = earlier.map (fun state => state.predicate.name) →
      List.Forall₂ (fun state ep => state.IsCompiled t.allNames ep) earlier names.rule_predicates →
      names.enterAll later = some names' →
      List.Forall₂ (fun state ep => state.IsCompiled t.allNames ep) t.states
        names'.rule_predicates := by
  intro later
  induction later with
  | nil =>
      intro earlier names split typed isNames compiled entered
      cases entered
      rw [split, List.append_nil]
      exact compiled
  | cons state later ih =>
      intro earlier names split typed isNames compiled entered
      rw [Names.enterAll_cons] at entered
      obtain ⟨mid, first, rest⟩ := Option.bind_eq_some_iff.mp entered
      obtain ⟨ep, here, outcome⟩ := Names.enterState_cases first
      have isState : state ∈ t.states := split ▸ List.mem_append_right _ List.mem_cons_self
      have isPredicate : state.predicate ∈ t.predicates :=
        Trex_rule.mem_predicates (Trex_rule.enter_mem_heads isState) rfl
      have refers := refersTo_of_inOrder named order split
      rw [← isNames] at refers
      have compiledHere : state.IsCompiled t.allNames ep :=
        ⟨(typed _ isPredicate).symm.trans here.eventType, here.constraints,
          here.refersTo.trans refers, here.win, here.kind⟩
      rcases outcome with ⟨-, added⟩ | ⟨⟨old, isOld, equal⟩, -⟩
      · rw [added] at rest
        refine ih (earlier ++ [state]) _ ?_ (typed.add named isPredicate here) ?_ ?_ rest
        · rw [split, List.append_assoc]
          rfl
        · rw [List.map_append, Names.add, isNames]
          rfl
        · exact List.rel_append compiled (.cons compiledHere .nil)
      · -- a state that is equal is an earlier one that is alike
        obtain ⟨i, lt, isHere⟩ := List.mem_iff_getElem.mp isOld
        have inEarlier : i < earlier.length := compiled.length_eq ▸ lt
        have compiledThere := compiled.get inEarlier lt
        rw [List.get_eq_getElem, List.get_eq_getElem, isHere] at compiledThere
        have alike := (equals_iff_alike compiledThere compiledHere).mp equal
        have apart := order.apart
        rw [split, List.pairwise_append] at apart
        exact absurd alike
          (apart.2.2 _ (List.getElem_mem inEarlier) _ List.mem_cons_self)

end States

end TRex.Tesla
