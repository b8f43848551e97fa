import TRex.PatternStates

/-!
# References by name

A name is resolved when the walk comes to it. `ownStates_iff` says when each terminator and each
positive predicate is a state of its own and each name is resolved to the state that it stands for:
no two states may be alike, and no name may stand for a state that comes only later.
-/

namespace TRex.Tesla

open Stateful

/-! ## The walk -/

/-- The aggregates of a rule, as far as their windows go. -/
structure Rows (s : Parser) : Prop where
  names : ∀ c ∈ s.compiled, c.names.rule_predicates_names <+: s.names.rule_predicates_names
  keys : ∀ agg ∈ s.rule_aggregates, agg.key ∈ s.compiled.map fun c => c.mention.key
  first : ∀ before c after, s.compiled = before ++ c :: after →
    c.mention.key ∉ before.map (fun c => c.mention.key) → ∃ agg ∈ s.rule_aggregates,
      agg.key = c.mention.key ∧ c.mention.bounds = some (agg.lowerId, agg.lowerTime, agg.upperId)

theorem Refers.rows {s : Parser} {ctx : Aggregate} {aggregates : List TAggregate}
    (refers : Refers s ctx aggregates) (rows : Rows s) : Rows (s.refer ctx aggregates).2 := by
  have behind : (s.refer ctx aggregates).2.compiled =
      s.compiled ++ [Compiled.mk s.names ctx (aggregates.length - 1)] := rfl
  have older : ∀ agg ∈ s.rule_aggregates, agg ∈ aggregates := by
    intro agg mem
    cases refers with
    | found _ _ => exact mem
    | made _ _ => exact List.mem_append_left _ mem
  refine ⟨fun c mem => ?_, fun agg mem => ?_, fun before c after split new => ?_⟩
  · rw [behind] at mem
    rcases List.mem_append.mp mem with old | last
    · exact rows.names c old
    · rw [List.mem_singleton.mp last]
      exact List.prefix_refl _
  · rw [behind, List.map_append]
    cases refers with
    | found _ _ => exact List.mem_append_left _ (rows.keys agg mem)
    | made new made =>
        rcases List.mem_append.mp mem with old | last
        · exact List.mem_append_left _ (rows.keys agg old)
        · rw [List.mem_singleton.mp last, isFor_iff_key.mp (newAggregate_eq_some made).1]
          exact List.mem_append_right _ List.mem_cons_self
  · rw [behind] at split
    rcases List.eq_nil_or_concat after with none | ⟨init, last, some⟩
    · rw [none] at split
      obtain ⟨same, isLast⟩ := List.append_inj' split rfl
      cases isLast
      rw [← same] at new
      cases refers with
      | @found agg mem isFor =>
          have seen := rows.keys agg mem
          rw [isFor_iff_key.mp isFor] at seen
          exact absurd seen new
      | @made agg _ made =>
          obtain ⟨isFor, -, bounds⟩ := newAggregate_eq_some made
          exact ⟨agg, List.mem_append_right _ List.mem_cons_self, isFor_iff_key.mp isFor, bounds⟩
    · rw [some, List.concat_eq_append, ← List.cons_append, ← List.append_assoc] at split
      obtain ⟨agg, mem, facts⟩ := rows.first before c init (List.append_inj' split rfl).1 new
      exact ⟨agg, older agg mem, facts⟩

theorem Grows.rows {s s' : Parser} (grows : Grows s s') (rows : Rows s) : Rows s' := by
  induction grows with
  | @other s s' aggregates compiled names =>
      refine ⟨fun c mem => ?_, ?_, ?_⟩
      · rw [compiled] at mem
        exact (rows.names c mem).trans names
      · rw [aggregates, compiled]
        exact rows.keys
      · rw [aggregates, compiled]
        exact rows.first
  | refer refers => exact refers.rows rows
  | @constraint s n con =>
      refine ⟨rows.names, fun agg mem => ?_, fun before c after split new => ?_⟩
      · obtain ⟨i, old, isOld, same⟩ := mem_addConstraint mem
        have known := rows.keys old (List.mem_of_getElem? isOld)
        rw [same]
        split <;> exact known
      · obtain ⟨agg, mem, isKey, bounds⟩ := rows.first before c after split new
        obtain ⟨i, isHere⟩ := List.mem_iff_getElem?.mp mem
        have there := @getElem?_addConstraint s.rule_aggregates n con i
        rw [isHere, Option.map_some] at there
        refine ⟨_, List.mem_of_getElem? there, ?_⟩
        split <;> exact ⟨isKey, bounds⟩
  | trans _ _ ihFirst ihSecond => exact ihSecond (ihFirst rows)

section Runs

variable {s s' : Parser} {ops : List Operation}

theorem enterAll_of_run (run : ops.forM Operation.exec s = some ((), s')) :
    s.names.enterAll (ops.filterMap Operation.state?) = some s'.names := by
  refine forM_induct (R := fun s ops s' =>
    s.names.enterAll (ops.filterMap Operation.state?) = some s'.names) (fun s => rfl) ?_ run
  intro op ops s mid s' turn rest
  have names := (exec_effect turn).names
  rw [List.filterMap_cons]
  cases isState : op.state? with
  | none =>
      rw [isState, Option.elim_none] at names
      rw [Option.some.inj names]
      exact rest
  | some state =>
      rw [isState, Option.elim_some] at names
      rw [Names.enterAll_cons, names, Option.bind_some]
      exact rest

/-- What one operation makes stays. -/
theorem prefixes_of_run (run : ops.forM Operation.exec s = some ((), s')) :
    s.rule_parameters <+: s'.rule_parameters ∧ s.rule_negations <+: s'.rule_negations ∧
      s.attributes <+: s'.attributes := by
  refine forM_keeps (R := fun s s' => s.rule_parameters <+: s'.rule_parameters ∧
    s.rule_negations <+: s'.rule_negations ∧ s.attributes <+: s'.attributes)
    (fun s => ⟨List.prefix_refl _, List.prefix_refl _, List.prefix_refl _⟩) ?_ ?_ run
  · intro s mid s' ⟨parameters, negations, attributes⟩ ⟨parameters', negations', attributes'⟩
    exact ⟨parameters.trans parameters', negations.trans negations', attributes.trans attributes'⟩
  · intro op s s' turn
    have effect := exec_effect turn
    obtain ⟨_, parameters, -⟩ := effect.parameters
    obtain ⟨_, negations, -⟩ := effect.negations
    obtain ⟨_, attributes, -⟩ := effect.attributes
    exact ⟨⟨_, parameters.symm⟩, ⟨_, negations.symm⟩, ⟨_, attributes.symm⟩⟩

theorem rows_of_run (run : ops.forM Operation.exec s = some ((), s')) (rows : Rows s) : Rows s' :=
  forM_keeps (R := fun s s' => Rows s → Rows s') (fun _ rows => rows)
    (fun first second rows => second (first rows))
    (fun _ _ _ turn => (exec_effect turn).grows.rows) run rows

theorem negations_length (run : ops.forM Operation.exec s = some ((), s')) :
    s'.rule_negations.length =
      s.rule_negations.length + (ops.filterMap Operation.negation?).length := by
  refine forM_induct (R := fun s ops s' => s'.rule_negations.length =
    s.rule_negations.length + (ops.filterMap Operation.negation?).length) (fun s => rfl) ?_ run
  intro op ops s mid s' turn rest
  obtain ⟨new, added, all⟩ := (exec_effect turn).negations
  have length := all.length_eq
  rw [rest, added, List.length_append, length, List.filterMap_cons]
  cases op.negation? with
  | none => rfl
  | some negation =>
      rw [Option.toList_some, List.length_singleton, List.length_cons]
      omega

/-- Nothing is consumed before the end. -/
theorem consuming_of_run (none : ∀ op ∈ ops, op.consumed = [])
    (run : ops.forM Operation.exec s = some ((), s')) : s'.rule_consuming = s.rule_consuming := by
  refine forM_induct (R := fun s ops s' => (∀ op ∈ ops, op.consumed = []) →
    s'.rule_consuming = s.rule_consuming) (fun s _ => rfl) ?_ run none
  intro op ops s mid s' turn rest none
  have consuming := (exec_effect turn).consuming
  rw [none op List.mem_cons_self, List.map_nil, List.append_nil] at consuming
  exact (rest fun op mem => none op (List.mem_cons_of_mem _ mem)).trans consuming

end Runs

/-- The state behind the declarations. -/
structure Begins (t : Trex_rule) (s : Parser) : Prop where
  declared : s.names.predicates_map = t.declared
  predicates : s.names.rule_predicates = []
  names : s.names.rule_predicates_names = []
  parameters_map : ∀ param_name, s.parameters_map param_name = none
  parameters : s.rule_parameters = []
  negations : s.rule_negations = []
  attributes : s.attributes = []
  consuming : s.rule_consuming = []
  aggregates : s.rule_aggregates = []
  compiled : s.compiled = []

/-- What the operations leave is packed up. -/
structure Packs (s : Parser) (rule : RulePkt) : Prop where
  predicates : rule.predicates = s.names.rule_predicates
  parameters : rule.parameters = s.rule_parameters
  negations : rule.negations = s.rule_negations
  attributes : rule.eventTemplate.attributes = s.attributes
  consuming : rule.consuming = s.rule_consuming
  aggregates : rule.aggregates = s.rule_aggregates

theorem declare_same {declarations : List (Nat × CString)} {s s' : Parser}
    (run : declarations.forM enterEvent_declaration s = some ((), s')) :
    s' = { s with names := { s.names with predicates_map := s'.names.predicates_map } } := by
  refine forM_keeps (R := fun s s' => s' =
    { s with names := { s.names with predicates_map := s'.names.predicates_map } })
    (fun s => rfl) ?_ ?_ run
  · intro s mid s' first second
    rw [second, first]
  · intro ctx s s' turn
    obtain ⟨id, -, turn⟩ := lift_bind_eq_some.mp turn
    cases turn
    rfl

theorem walk_runs {t : Trex_rule} {s : Parser} {rule : RulePkt}
    (run : walk t Parser.new = some ((), s)) (made : s.rule = some rule) :
    ∃ start final, Begins t start ∧ t.operations.forM Operation.exec start = some ((), final) ∧
      Packs final rule ∧ s.compiled = final.compiled := by
  rw [walk_eq] at run
  obtain ⟨_, declared, declare, run⟩ := bind_eq_some.mp run
  obtain ⟨_, start, define, run⟩ := bind_eq_some.mp run
  obtain ⟨_, final, operations, ending⟩ := bind_eq_some.mp run
  refine ⟨start, final, ?_, operations, ?_⟩
  · obtain ⟨names, isDeclared, adds⟩ := declarations_adds declare
    have same := declare_same declare
    rw [enterCe_definition, get_bind] at define
    obtain ⟨eventType, -, define⟩ := lift_bind_eq_some.mp define
    cases define
    exact {
      declared := by
        funext evt_name
        rw [Trex_rule.declared, isDeclared, ← adds.names]
        rfl
      predicates := by rw [same]; rfl
      names := by rw [same]; rfl
      parameters_map := by intro param_name; rw [same]; rfl
      parameters := by rw [same]; rfl
      negations := by rw [same]; rfl
      attributes := rfl
      consuming := by rw [same]; rfl
      aggregates := by rw [same]; rfl
      compiled := by rw [same]; rfl }
  · rw [enterEnding_rule, get_bind] at ending
    obtain ⟨template, isTemplate, ending⟩ := lift_bind_eq_some.mp ending
    cases ending
    cases made
    refine ⟨⟨rfl, rfl, rfl, ?_, rfl, rfl⟩, rfl⟩
    rw [Parser.attributes, isTemplate]
    rfl

/-! ## The turns of a run -/

theorem exists_of_mem_left {α β : Type} {R : α → β → Prop} {as : List α} {bs : List β}
    (all : List.Forall₂ R as bs) {a : α} (mem : a ∈ as) : ∃ b ∈ bs, R a b := by
  induction all with
  | nil => exact (List.not_mem_nil mem).elim
  | cons here _ ih =>
      rcases List.mem_cons.mp mem with same | later
      · exact ⟨_, List.mem_cons_self, same ▸ here⟩
      · obtain ⟨b, isLater, there⟩ := ih later
        exact ⟨b, List.mem_cons_of_mem _ isLater, there⟩

theorem exists_of_mem_right {α β : Type} {R : α → β → Prop} {as : List α} {bs : List β}
    (all : List.Forall₂ R as bs) {b : β} (mem : b ∈ bs) : ∃ a ∈ as, R a b :=
  exists_of_mem_left all.flip mem

theorem rel_of_getElem? {α β : Type} {R : α → β → Prop} {as : List α} {bs : List β}
    (all : List.Forall₂ R as bs) {i : Nat} {a : α} {b : β} (left : as[i]? = some a)
    (right : bs[i]? = some b) : R a b := by
  obtain ⟨iLt, isA⟩ := List.getElem?_eq_some_iff.mp left
  obtain ⟨jLt, isB⟩ := List.getElem?_eq_some_iff.mp right
  have here := all.get iLt jLt
  rw [List.get_eq_getElem, List.get_eq_getElem, isA, isB] at here
  exact here

/-- One of the operations of a rule, with the states around it. -/
structure Turn (t : Trex_rule) (start final : Parser) (before : List Operation) (op : Operation)
    (u v : Parser) : Prop where
  split : ∃ after, t.operations = before ++ op :: after ∧
    after.forM Operation.exec v = some ((), final)
  front : before.forM Operation.exec start = some ((), u)
  effect : Effect op u v
  names : u.names.rule_predicates_names = known before

section Turns

variable {t : Trex_rule} {rule : RulePkt} {start final : Parser}
  (begins : Begins t start) (run : t.operations.forM Operation.exec start = some ((), final))
  (length : final.names.rule_predicates.length = t.states.length)

include begins length

/-- As all states are added, those that are there are those that have been entered. -/
theorem names_of_front {before after : List Operation} (split : t.operations = before ++ after)
    {u : Parser} (front : before.forM Operation.exec start = some ((), u))
    (back : after.forM Operation.exec u = some ((), final)) :
    u.names.rule_predicates_names = known before := by
  have entered := enterAll_of_run front
  have more := Names.length_enterAll_le (enterAll_of_run back)
  have few := Names.length_enterAll_le entered
  have total : (t.operations.filterMap Operation.state?).length = t.states.length := by
    rw [Trex_rule.filterMap_operations _ state?_of_predicate?]
    rfl
  rw [split, List.filterMap_append, List.length_append] at total
  rw [begins.predicates, List.length_nil] at few
  have added := Names.entered_of_length entered (by
    rw [begins.predicates, List.length_nil]
    omega)
  rw [added.names_eq, begins.names, List.nil_append, known]

include run

/-- All states were added. -/
theorem entered_states : start.names.Entered t.states final.names := by
  have entered := enterAll_of_run run
  rw [Trex_rule.filterMap_operations _ state?_of_predicate?] at entered
  refine Names.entered_of_length entered ?_
  rw [length, begins.predicates, List.length_nil, Nat.zero_add]

theorem exists_turn {before after : List Operation} {op : Operation}
    (split : t.operations = before ++ op :: after) : ∃ u v, Turn t start final before op u v := by
  have all := run
  rw [split] at all
  obtain ⟨u, v, front, turn, back⟩ := forM_split all
  refine ⟨u, v, ⟨⟨after, split, back⟩, front, exec_effect turn, ?_⟩⟩
  exact names_of_front begins length split front (bind_eq_some.mpr ⟨(), v, turn, back⟩)

/-- What holds at the end came to hold in some turn. -/
theorem exists_turn_of_holds {P : Parser → Prop} (before : ¬ P start) (behind : P final) :
    ∃ before op u v, Turn t start final before op u v ∧ ¬ P u ∧ P v := by
  obtain ⟨done, op, rest, u, v, split, front, turn, was, is⟩ := forM_origin run before behind
  have all := run
  rw [split] at all
  obtain ⟨u', v', front', turn', back⟩ := forM_split all
  cases front.symm.trans front'
  cases turn.symm.trans turn'
  exact ⟨done, op, u, v, ⟨⟨rest, split, back⟩, front, exec_effect turn,
    names_of_front begins length split front (bind_eq_some.mpr ⟨(), v, turn, back⟩)⟩, was, is⟩

end Turns

namespace Turn

variable {t : Trex_rule} {start final : Parser} {before : List Operation} {op : Operation}
  {u v : Parser} (turn : Turn t start final before op u v)

include turn

theorem isPrefix : u.names.rule_predicates_names <+: t.names := by
  obtain ⟨after, split, -⟩ := turn.split
  rw [turn.names]
  exact Trex_rule.known_prefix split

/-- A name is resolved to its state if and only if the state is not a later one. -/
theorem indexOf_eq_iff (nodup : t.names.Nodup) (name : CString) :
    indexOf u.names.rule_predicates_names name = indexOf t.names name ↔
      (name ∈ t.names → ∃ state, .enter state ∈ before ∧ state.predicate.name = name) := by
  rw [Tesla.indexOf_eq_iff nodup turn.isPrefix, turn.names, mem_known]

theorem prefixes : v.rule_parameters <+: final.rule_parameters ∧
    v.rule_negations <+: final.rule_negations ∧ v.attributes <+: final.attributes := by
  obtain ⟨after, -, back⟩ := turn.split
  exact prefixes_of_run back

/-- A parameter that is compiled is one of the rule. -/
theorem exists_parameter {par : Parameter} (mem : par ∈ op.parameters) :
    ∃ p ∈ final.rule_parameters, ∃ index type, p.MadeFrom u par index type ∧
      op.Owns u index type := by
  obtain ⟨new, added, all⟩ := turn.effect.parameters
  obtain ⟨p, isNew, made⟩ := exists_of_mem_right all mem
  refine ⟨p, turn.prefixes.1.subset ?_, made⟩
  rw [added]
  exact List.mem_append_right _ isNew

theorem parameter_of_new {p : ComplexParameter} (was : p ∉ u.rule_parameters)
    (is : p ∈ v.rule_parameters) : ∃ par ∈ op.parameters, ∃ index type,
      p.MadeFrom u par index type ∧ op.Owns u index type := by
  obtain ⟨new, added, all⟩ := turn.effect.parameters
  rw [added] at is
  exact exists_of_mem_left all ((List.mem_append.mp is).resolve_left was)

end Turn

/-! ## Windows -/

section Windows

variable {known names : List CString} {window : Window} {parse : Nat → Option Int}

theorem Window.bounds_congr
    (same : ∀ name ∈ window.names, indexOf known name = indexOf names name) :
    window.bounds parse known = window.bounds parse names := by
  cases window with
  | within int_val evt_name => rw [bounds, bounds, same evt_name List.mem_cons_self]
  | between lower upper =>
      rw [bounds, bounds, same lower List.mem_cons_self,
        same upper (List.mem_cons_of_mem _ List.mem_cons_self)]

theorem Window.indexOf_eq_of_bounds {b : Int × Int × Int}
    (here : window.bounds parse known = some b) (there : window.bounds parse names = some b) :
    ∀ name ∈ window.names, indexOf known name = indexOf names name := by
  intro name mem
  have same := here.trans there.symm
  cases window with
  | within int_val evt_name =>
      rw [List.mem_singleton.mp mem]
      cases isInt : parse int_val with
      | none =>
          rw [bounds, isInt] at here
          cases here
      | some v =>
          rw [bounds, bounds, isInt] at same
          exact (Prod.mk.inj (Prod.mk.inj (Option.some.inj same)).2).2
  | between lower upper =>
      rw [bounds, bounds] at same
      obtain ⟨isLower, rest⟩ := Prod.mk.inj (Option.some.inj same)
      rcases List.mem_cons.mp mem with first | second
      · rw [first]
        exact isLower
      · rw [List.mem_singleton.mp second]
        exact (Prod.mk.inj rest).2

end Windows

/-! ## States of their own are in order -/

section Main

variable {t : Trex_rule} {rule : RulePkt} {start final : Parser}
  (begins : Begins t start) (run : t.operations.forM Operation.exec start = some ((), final))
  (packs : Packs final rule) (named : t.WellNamed)

/-- The atom is compiled with the name. -/
theorem mem_packets {par : Parameter} {name : CString}
    (mem : name ∈ packets par.expr) :
    ∃ attr_name, .packet name attr_name ∈ par.expr.leaves := by
  obtain ⟨atom, isLeaf, isPacket⟩ := List.mem_filterMap.mp mem
  cases atom with
  | packet evt_name attr_name =>
      cases isPacket
      exact ⟨attr_name, isLeaf⟩
  | static | param | aggregate => cases isPacket

theorem packets_of_references {op : Operation} (noState : op.predicate? = none) {name : CString}
    (mem : name ∈ op.references) : ∃ par ∈ op.parameters,
      name ∈ packets par.expr := by
  cases op with
  | enter | negate => cases noState
  | parameter owner par => exact ⟨par, List.mem_cons_self, mem⟩
  | atom ctx => exact List.mem_flatMap.mp mem
  | mapping | static | attr | consume => exact (List.not_mem_nil mem).elim

/-- Where an element that an operation enters stands among all of them. -/
theorem Turn.filterMap_eq {before : List Operation} {op : Operation} {u v : Parser}
    (turn : Turn t start final before op u v) {β : Type} {f : Operation → Option β}
    (none : ∀ op, op.predicate? = none → f op = Option.none) {y : β} (isY : f op = some y) :
    ∃ after, t.heads.filterMap f = before.filterMap f ++ y :: after := by
  obtain ⟨after, split, -⟩ := turn.split
  refine ⟨after.filterMap f, ?_⟩
  rw [← Trex_rule.filterMap_operations f none, split, List.filterMap_append,
    List.filterMap_cons_some isY]

omit run packs named in
include begins in
/-- The negation that is made stands where the predicate stands among the negative ones. -/
theorem Turn.exists_negation {before : List Operation} {ctx : Predicate} {window : Window}
    {u v : Parser} (turn : Turn t start final before (.negate ctx window) u v) :
    ∃ neg, final.rule_negations[(before.filterMap Operation.negation?).length]? = some neg ∧
      window.bounds parseLong u.names.rule_predicates_names =
        some (neg.lowerId, neg.lowerTime, neg.upperId) := by
  obtain ⟨new, added, all⟩ := turn.effect.negations
  obtain ⟨neg, isNew, bounds⟩ := exists_of_mem_right all List.mem_cons_self
  have length := all.length_eq
  have single : new = [neg] := by
    obtain ⟨other, isSingle⟩ := List.length_eq_one_iff.mp length
    rw [isSingle] at isNew ⊢
    rw [List.mem_singleton.mp isNew]
  have counted := negations_length turn.front
  rw [begins.negations, List.length_nil, Nat.zero_add] at counted
  obtain ⟨rest, isFinal⟩ := turn.prefixes.2.1
  refine ⟨neg, ?_, bounds⟩
  rw [← isFinal, added, single, List.append_assoc, ← counted,
    List.getElem?_append_right (Nat.le_refl _), Nat.sub_self]
  rfl

include begins run packs

/-- A state that is right refers to one that is found. -/
theorem refersTo_of_own (own : OwnStates t rule) {before : List Operation} {state : State}
    {u v : Parser} (turn : Turn t start final before (.enter state) u v) :
    state.refersTo u.names.rule_predicates_names = state.refersTo t.names := by
  have length := own.states.length_eq
  obtain ⟨after, isStates⟩ := turn.filterMap_eq state?_of_predicate? (show _ = some state from rfl)
  obtain ⟨eps, all, -, each⟩ := (entered_states begins run (by
    rw [← packs.predicates, length])).predicates
  obtain ⟨ep, here, refers⟩ := each _ state after isStates
  rw [begins.predicates, List.nil_append, ← packs.predicates] at all
  rw [← all] at here
  rw [begins.names, List.nil_append] at refers
  have isState : t.states[(before.filterMap Operation.state?).length]? = some state := by
    rw [Trex_rule.states, isStates, List.getElem?_append_right (Nat.le_refl _), Nat.sub_self]
    rfl
  rw [turn.names]
  exact refers.symm.trans (rel_of_getElem? own.states isState here).refersTo

omit run in
theorem bounds_of_own (own : OwnStates t rule) {before : List Operation} {ctx : Predicate}
    {window : Window} {u v : Parser} (turn : Turn t start final before (.negate ctx window) u v) :
    ∃ b, window.bounds parseLong u.names.rule_predicates_names = some b ∧
      window.bounds parseLong t.names = some b := by
  obtain ⟨after, isNegations⟩ :=
    turn.filterMap_eq negation?_of_predicate? (show _ = some (ctx, window) from rfl)
  have isNegation : t.negations[(before.filterMap Operation.negation?).length]? =
      some (ctx, window) := by
    rw [Trex_rule.negations, isNegations, List.getElem?_append_right (Nat.le_refl _), Nat.sub_self]
    rfl
  obtain ⟨neg, isNeg, bounds⟩ := turn.exists_negation begins
  rw [← packs.negations] at isNeg
  exact ⟨_, bounds, rel_of_getElem? own.negations isNegation isNeg⟩

theorem apart_of_own (own : OwnStates t rule) : t.states.Pairwise fun a b => ¬ a.Alike t b := by
  have lengths := own.states.length_eq
  rw [packs.predicates] at lengths
  have pairwise := (entered_states begins run lengths.symm).pairwise (by
    rw [begins.predicates]
    exact .nil)
  rw [← packs.predicates, List.pairwise_iff_getElem] at pairwise
  rw [List.pairwise_iff_getElem]
  intro i j iLt jLt lt alike
  have length := own.states.length_eq
  have first := own.states.get iLt (length ▸ iLt)
  have second := own.states.get jLt (length ▸ jLt)
  exact pairwise i j (length ▸ iLt) (length ▸ jLt) lt ((equals_iff_alike first second).mpr alike)

include named

theorem backward_of_own (own : OwnStates t rule) {before after : List Operation} {op : Operation}
    (split : t.operations = before ++ op :: after) :
    ∀ name ∈ op.references, name ∈ t.names →
      ∃ state, .enter state ∈ before ∧ state.predicate.name = name := by
  have lengths := own.states.length_eq
  rw [packs.predicates] at lengths
  obtain ⟨u, v, turn⟩ := exists_turn begins run lengths.symm split
  intro name mem
  refine (turn.indexOf_eq_iff named.nodup name).mp ?_
  cases isPredicate : op.predicate? with
  | none =>
      -- a parameter has a leaf for the name
      obtain ⟨par, isParameter, inExpr⟩ := packets_of_references isPredicate mem
      obtain ⟨attr_name, isLeaf⟩ := mem_packets inExpr
      obtain ⟨p, isMade, index, type, made, -⟩ := turn.exists_parameter isParameter
      obtain ⟨ref, inTree⟩ := made.right.complete _ isLeaf
      have reads : ref = _ := (made.right.sound _ inTree).2
      rw [← packs.parameters] at isMade
      have means : ref = _ := own.parameters p isMade _ inTree
      rw [reads] at means
      exact (Java.OpValueReference.rulePkt.inj means).1
  | some ctx =>
      cases op with
      | enter state =>
          have refers := refersTo_of_own begins run packs own turn
          rw [State.refersTo_eq_iff named.nodup turn.isPrefix] at refers
          exact (Tesla.indexOf_eq_iff named.nodup turn.isPrefix).mpr (refers name mem)
      | negate ctx window =>
          obtain ⟨b, here, there⟩ := bounds_of_own begins packs own turn
          exact Window.indexOf_eq_of_bounds here there name mem
      | parameter | mapping | atom | static | attr | consume => cases isPredicate

end Main

/-! ## Aggregates -/

section Aggregates

variable {t : Trex_rule} {rule : RulePkt} {final : Parser} (rows : Rows final)
  (mentioned : t.mentions = some (final.compiled.map Compiled.mention))
  (aggregates : rule.aggregates = final.rule_aggregates)
  (nodup : t.names.Nodup) (all : final.names.rule_predicates_names = t.names)

include rows mentioned aggregates all

/-- The first atom with its key makes an aggregate, with the names that are known then. -/
theorem exists_row {mentions : List Mention} (isMentions : t.mentions = some mentions)
    {before after : List Mention} {m : Mention} (split : mentions = before ++ m :: after)
    (new : m.key ∉ before.map Mention.key) :
    (∃ agg ∈ rule.aggregates, agg.key = m.key ∧
      m.bounds = some (agg.lowerId, agg.lowerTime, agg.upperId)) ∧
    m.names.rule_predicates_names <+: t.names := by
  have same := Option.some.inj (mentioned.symm.trans isMentions)
  rw [split] at same
  obtain ⟨front, behind, isCompiled, isBefore, isBehind⟩ := List.map_eq_append_iff.mp same
  obtain ⟨c, back, isCons, isMention, -⟩ := List.map_eq_cons_iff.mp isBehind
  rw [isCons] at isCompiled
  have unseen : c.mention.key ∉ front.map fun c => c.mention.key := by
    rw [← isBefore, List.map_map] at new
    rw [isMention]
    exact new
  obtain ⟨agg, mem, facts⟩ := rows.first front c back isCompiled unseen
  have isPrefix := rows.names c (by
    rw [isCompiled]
    exact List.mem_append_right _ List.mem_cons_self)
  rw [isMention] at facts
  rw [all] at isPrefix
  refine ⟨⟨agg, aggregates ▸ mem, facts⟩, ?_⟩
  rw [← isMention]
  exact isPrefix

include nodup

theorem windows_of_own (own : OwnStates t rule) (keys : (rule.aggregates.map TAggregate.key).Nodup)
    {mentions : List Mention} (isMentions : t.mentions = some mentions)
    {before after : List Mention} {m : Mention} (split : mentions = before ++ m :: after)
    (new : m.key ∉ before.map Mention.key) :
    ∀ name ∈ m.atom.window.names, name ∈ t.names → name ∈ m.names.rule_predicates_names := by
  obtain ⟨⟨agg, mem, isKey, bounds⟩, isPrefix⟩ :=
    exists_row rows mentioned aggregates all isMentions split new
  obtain ⟨agg', mem', isKey', bounds'⟩ := own.aggregates mentions isMentions before m after split
    new
  cases List.inj_on_of_nodup_map keys mem mem' (isKey.trans isKey'.symm)
  intro name isName
  exact (indexOf_eq_iff nodup isPrefix).mp (Window.indexOf_eq_of_bounds bounds bounds' name isName)

theorem aggregates_of_inOrder (order : InOrder t) {mentions : List Mention}
    (isMentions : t.mentions = some mentions) {before after : List Mention} {m : Mention}
    (split : mentions = before ++ m :: after) (new : m.key ∉ before.map Mention.key) :
    ∃ agg ∈ rule.aggregates, agg.key = m.key ∧
      m.atom.window.bounds parseInt t.names = some (agg.lowerId, agg.lowerTime, agg.upperId) := by
  obtain ⟨⟨agg, mem, isKey, bounds⟩, isPrefix⟩ :=
    exists_row rows mentioned aggregates all isMentions split new
  refine ⟨agg, mem, isKey, ?_⟩
  rw [← bounds]
  refine (Window.bounds_congr fun name isName => ?_).symm
  exact (indexOf_eq_iff nodup isPrefix).mpr
    (order.windows mentions isMentions before m after split new name isName)

end Aggregates

/-! ## States in order are their own -/

namespace Trex_rule

variable {t : Trex_rule}

theorem operations_of_body {head op : Operation} (isHead : head ∈ t.heads) (mem : op ∈ head.body) :
    ∃ before after, t.operations = before ++ op :: after ∧ head ∈ before := by
  obtain ⟨pre, post, isHeads⟩ := List.append_of_mem isHead
  obtain ⟨first, last, isBody⟩ := List.append_of_mem mem
  refine ⟨(pre.flatMap fun head => head :: head.body) ++ head :: first,
    last ++ (post.flatMap fun head => head :: head.body) ++ t.tail, ?_,
    List.mem_append_right _ List.mem_cons_self⟩
  rw [operations, isHeads, List.flatMap_append, List.flatMap_cons, isBody]
  simp only [List.append_assoc, List.cons_append]

theorem isSome_of_mem_heads {head : Operation} (mem : head ∈ t.heads) :
    ∃ ctx ∈ t.predicates, head.predicate? = some ctx := by
  rcases List.mem_cons.mp mem with root | inPattern
  · exact ⟨t.terminator, List.mem_cons_self, by rw [root]; rfl⟩
  · obtain ⟨p, isPattern, same⟩ := List.mem_map.mp inPattern
    refine ⟨p.predicate, List.mem_cons_of_mem _ (List.mem_map_of_mem isPattern), ?_⟩
    rw [← same]
    cases p <;> rfl

theorem consumed_of_mem_blocks {op : Operation}
    (mem : op ∈ t.heads.flatMap fun head => head :: head.body) : op.consumed = [] := by
  obtain ⟨head, isHead, mem⟩ := List.mem_flatMap.mp mem
  rcases List.mem_cons.mp mem with same | inBody
  · obtain ⟨ctx, -, isPredicate⟩ := isSome_of_mem_heads isHead
    rw [same]
    cases head with
    | enter | negate => rfl
    | parameter | mapping | atom | static | attr | consume => cases isPredicate
  · obtain ⟨ctx, -, ⟨_, -, same⟩ | ⟨_, _, -, same⟩ | ⟨_, same⟩⟩ := mem_body inBody
    all_goals rw [same]; rfl

/-- The consuming clause comes last. -/
theorem operations_eq_concat (t : Trex_rule) : ∃ before,
    t.operations = before ++ [.consume t.consuming] ∧ ∀ op ∈ before, op.consumed = [] := by
  refine ⟨_, (List.append_assoc _ _ _).symm, fun op mem => ?_⟩
  rcases List.mem_append.mp mem with inBlocks | inTail
  · exact consumed_of_mem_blocks inBlocks
  · simp only [List.mem_append, List.mem_map, List.mem_flatMap] at inTail
    rcases inTail with (⟨sdef, -, same⟩ | ⟨attr, -, same⟩) | ⟨definition, -, mem⟩
    · rw [← same]
      rfl
    · rw [← same]
      rfl
    · cases definition with
      | static attr_name ref => exact (List.not_mem_nil mem).elim
      | attr attr_name expr =>
          obtain ⟨agg, -, same⟩ := List.mem_map.mp mem
          rw [← same]
          rfl

/-- Where a parameter of a predicate or a mapping stands, its predicate has been entered. -/
theorem head_of_split {before after : List Operation} {op : Operation}
    (split : t.operations = before ++ op :: after) (noHead : op.predicate? = none)
    (notLast : ¬ op.IsLast) : ∃ head ∈ t.heads, head ∈ before ∧ op ∈ head.body := by
  rcases operations_split split with ⟨pre, post, isHeads, -⟩ | inBody | ⟨inTail, -⟩
  · have isHead : op ∈ t.heads := by
      rw [isHeads]
      exact List.mem_append_right _ List.mem_cons_self
    obtain ⟨ctx, -, isPredicate⟩ := isSome_of_mem_heads isHead
    cases noHead.symm.trans isPredicate
  · exact inBody
  · exact absurd (isLast_of_mem_tail inTail) notLast

/-- A parameter with an owner is one of a state that has been entered. -/
theorem state_of_owner {before after : List Operation} {name : CString} {par : Parameter}
    (split : t.operations = before ++ .parameter (some name) par :: after) :
    ∃ state ∈ t.states, .enter state ∈ before ∧ state.predicate.name = name ∧
      par ∈ state.predicate.attr_parameter := by
  obtain ⟨head, isHead, mem, inBody⟩ := head_of_split split rfl not_false
  obtain ⟨ctx, isPredicate, ⟨par', isPar, same⟩ | ⟨_, _, -, same⟩ | ⟨_, same⟩⟩ := mem_body inBody
  · obtain ⟨isOwner, isSame⟩ := Operation.parameter.inj same
    cases head with
    | enter state =>
        cases isPredicate
        refine ⟨state, List.mem_filterMap.mpr ⟨_, isHead, rfl⟩, mem, ?_, isSame ▸ isPar⟩
        exact (Option.some.inj isOwner).symm
    | negate | parameter | mapping | atom | static | attr | consume => cases isOwner
  · cases same
  · cases same

/-- Where the definitions are compiled, all states have been entered. -/
theorem known_of_last {before after : List Operation} {op : Operation}
    (split : t.operations = before ++ op :: after) (noHead : op.predicate? = none)
    (notBelow : ∀ head : Operation, op ∉ head.body) : known before = t.names := by
  rcases operations_split split with
    ⟨pre, post, isHeads, -⟩ | ⟨head, -, -, inBody⟩ | ⟨-, rest, front, back⟩
  · have isHead : op ∈ t.heads := by
      rw [isHeads]
      exact List.mem_append_right _ List.mem_cons_self
    obtain ⟨ctx, -, isPredicate⟩ := isSome_of_mem_heads isHead
    cases noHead.symm.trans isPredicate
  · exact absurd inBody (notBelow head)
  · have nothing : rest.filterMap Operation.state? = [] := by
      have tail := filterMap_tail (t := t) _ state?_of_predicate?
      rw [back, List.filterMap_append] at tail
      exact (List.append_eq_nil_iff.mp tail).1
    rw [known, front, List.filterMap_append, nothing, List.append_nil,
      filterMap_blocks _ state?_of_predicate?]
    rfl

end Trex_rule

theorem references_of_packet {op : Operation} {par : Parameter} (mem : par ∈ op.parameters)
    {atom : Atom} (isLeaf : atom ∈ par.expr.leaves) {name : CString}
    (isPacket : atom.packet? = some name) : name ∈ op.references := by
  have inExpr : name ∈ packets par.expr :=
    List.mem_filterMap.mpr ⟨atom, isLeaf, isPacket⟩
  cases op with
  | parameter owner other =>
      cases List.mem_singleton.mp mem
      exact inExpr
  | atom ctx => exact List.mem_flatMap.mpr ⟨par, mem, inExpr⟩
  | enter | negate | mapping | static | attr | consume => exact (List.not_mem_nil mem).elim

section Converse

variable {t : Trex_rule} {rule : RulePkt} {start final : Parser}
  (begins : Begins t start) (run : t.operations.forM Operation.exec start = some ((), final))
  (length : final.names.rule_predicates.length = t.states.length) (named : t.WellNamed)

/-- The name of a state has the position of the state. -/
theorem Trex_rule.WellNamed.indexOf_state (named : t.WellNamed) {i : Nat} {state : State}
    (here : t.states[i]? = some state) : indexOf t.names state.predicate.name = i := by
  refine indexOf_of_getElem? named.nodup ?_
  rw [Trex_rule.names, List.getElem?_map, here]
  rfl

/-- A name of a predicate that has been entered is resolved to its state, if it has one. -/
theorem Turn.indexOf_head (named : t.WellNamed) {before : List Operation} {op : Operation}
    {u v : Parser} (turn : Turn t start final before op u v) {head : Operation}
    (isHead : head ∈ t.heads) (mem : head ∈ before) {ctx : Predicate}
    (isPredicate : head.predicate? = some ctx) :
    indexOf u.names.rule_predicates_names ctx.name = indexOf t.names ctx.name := by
  refine (turn.indexOf_eq_iff named.nodup ctx.name).mpr fun isName => ?_
  cases head with
  | enter state =>
      cases isPredicate
      exact ⟨state, mem, rfl⟩
  | negate other window =>
      cases isPredicate
      exact absurd isName (named.not_mem_names isHead)
  | parameter | mapping | atom | static | attr | consume => cases isPredicate

include begins run length named

/-- A parameter that is known stands for an attribute of a predicate that it is mapped in. -/
theorem mapped_means {before after : List Operation} (split : t.operations = before ++ after)
    {u : Parser} (front : before.forM Operation.exec start = some ((), u)) {param_name : CString}
    {pmap : ParametersMap} (mapped : u.parameters_map param_name = some pmap) :
    ∃ predicate ∈ t.predicates, .param_mapping pmap.attribute_name param_name ∈ predicate.items ∧
      pmap.indexInSequence = indexOf t.names predicate.name := by
  have unmapped : ¬ start.parameters_map param_name = some pmap := by
    rw [begins.parameters_map]
    exact nofun
  obtain ⟨done, op, rest, w, x, isBefore, toW, step, was, is⟩ := forM_origin
    (P := fun s => s.parameters_map param_name = some pmap) front unmapped mapped
  rw [isBefore, List.append_assoc] at split
  obtain ⟨w', x', turn⟩ := exists_turn begins run length split
  cases toW.symm.trans turn.front
  rcases (exec_effect step).parameters_map _ _ is with
    old | ⟨predCtx, attr_name, isMapping, index, attr⟩
  · exact absurd old was
  rw [isMapping] at split
  obtain ⟨head, isHead, mem, inBody⟩ := Trex_rule.head_of_split split rfl not_false
  obtain ⟨ctx, isPredicate, ⟨par, -, same⟩ | ⟨attr', name', isItem, same⟩ | ⟨agg, same⟩⟩ :=
    mem_body inBody
  · cases same
  · cases same
    refine ⟨_, Trex_rule.mem_predicates isHead isPredicate, attr ▸ isItem, ?_⟩
    rw [index]
    exact turn.indexOf_head named isHead mem isPredicate
  · cases same

/-- What an atom is compiled to is what it means, if its names are known. -/
theorem means_of_reads {before : List Operation} {op : Operation} {u v : Parser}
    (turn : Turn t start final before op u v) {atom : Atom} {ref : Java.OpValueReference}
    (resolved : ∀ name, atom.packet? = some name →
      indexOf u.names.rule_predicates_names name = indexOf t.names name)
    (reads : atom.Reads u ref) : atom.Means t ref := by
  cases atom with
  | static | aggregate => trivial
  | packet evt_name attr_name =>
      have isRef : ref = _ := reads
      rw [resolved evt_name rfl] at isRef
      exact isRef
  | param param_name =>
      obtain ⟨pmap, mapped, isRef⟩ := reads
      obtain ⟨after, split, -⟩ := turn.split
      obtain ⟨predicate, isPredicate, isItem, index⟩ :=
        mapped_means begins run length named split turn.front mapped
      exact ⟨predicate, isPredicate, _, isItem, by rw [isRef, index]⟩

theorem owners_of_inOrder {i : Nat} {state : State} (here : t.states[i]? = some state)
    {par : Parameter} (isParameter : par ∈ state.predicate.attr_parameter) :
    ∃ p ∈ final.rule_parameters, p.sType = .state ∧ p.BelongsTo par i := by
  have isHead := Trex_rule.enter_mem_heads (List.mem_of_getElem? here)
  have inBody : .parameter (some state.predicate.name) par ∈ (Operation.enter state).body :=
    List.mem_append_left _ (List.mem_map_of_mem isParameter)
  obtain ⟨before, after, split, mem⟩ := Trex_rule.operations_of_body isHead inBody
  obtain ⟨u, v, turn⟩ := exists_turn begins run length split
  obtain ⟨p, isMade, index, type, made, isState, isIndex⟩ :=
    turn.exists_parameter (List.mem_cons_self (a := par))
  rw [turn.indexOf_head named isHead mem rfl, named.indexOf_state here] at isIndex
  refine ⟨p, isMade, made.sType.trans isState, ?_⟩
  rw [ComplexParameter.BelongsTo, made.left, isState, isIndex]

theorem owned_of_inOrder {p : ComplexParameter} (isMade : p ∈ final.rule_parameters)
    (isState : p.sType = .state) : ∃ (i : Nat) (state : State), t.states[i]? = some state ∧
      ∃ par ∈ state.predicate.attr_parameter, p.BelongsTo par i := by
  obtain ⟨before, op, u, v, turn, was, is⟩ := exists_turn_of_holds begins run length
    (P := fun s => p ∈ s.rule_parameters) (by rw [begins.parameters]; exact List.not_mem_nil)
    isMade
  obtain ⟨par, isParameter, index, type, made, owns⟩ := turn.parameter_of_new was is
  rw [made.sType] at isState
  obtain ⟨after, split, -⟩ := turn.split
  cases op with
  | parameter owner par' =>
      cases List.mem_singleton.mp isParameter
      cases owner with
      | none => cases isState.symm.trans (show type = .neg from owns)
      | some name =>
          obtain ⟨-, isIndex⟩ := owns
          obtain ⟨state, isStates, mem, isName, isPar⟩ := Trex_rule.state_of_owner split
          obtain ⟨i, here⟩ := List.mem_iff_getElem?.mp isStates
          rw [← isName, turn.indexOf_head named (Trex_rule.enter_mem_heads isStates) mem rfl,
            named.indexOf_state here] at isIndex
          refine ⟨i, state, here, par, isPar, ?_⟩
          rw [ComplexParameter.BelongsTo, made.left, isState, isIndex]
  | atom ctx => cases isState.symm.trans (show type = .agg from owns)
  | enter | negate | mapping | static | attr | consume => exact (List.not_mem_nil isParameter).elim

theorem parameters_of_inOrder (order : InOrder t) {p : ComplexParameter}
    (isMade : p ∈ final.rule_parameters) :
    ∀ leaf ∈ p.rightTree.leaves, leaf.1.Means t leaf.2 := by
  obtain ⟨before, op, u, v, turn, was, is⟩ := exists_turn_of_holds begins run length
    (P := fun s => p ∈ s.rule_parameters) (by rw [begins.parameters]; exact List.not_mem_nil)
    isMade
  obtain ⟨par, isParameter, index, type, made, -⟩ := turn.parameter_of_new was is
  obtain ⟨after, split, -⟩ := turn.split
  intro leaf mem
  obtain ⟨isLeaf, reads⟩ := made.right.sound leaf mem
  refine means_of_reads begins run length named turn (fun name isPacket => ?_) reads
  exact (turn.indexOf_eq_iff named.nodup name).mpr
    (order.backward before op after split name (references_of_packet isParameter isLeaf isPacket))

theorem attributes_of_run {attr : CString × OpTree Atom} (isMade : attr ∈ final.attributes) :
    ∀ leaf ∈ attr.2.leaves, leaf.1.Means t leaf.2 := by
  obtain ⟨before, op, u, v, turn, was, is⟩ := exists_turn_of_holds begins run length
    (P := fun s => attr ∈ s.attributes) (by rw [begins.attributes]; exact List.not_mem_nil)
    isMade
  obtain ⟨new, added, all⟩ := turn.effect.attributes
  rw [added] at is
  obtain ⟨expr, isExpr, reads⟩ := exists_of_mem_left all ((List.mem_append.mp is).resolve_left was)
  obtain ⟨after, split, -⟩ := turn.split
  intro leaf mem
  refine means_of_reads begins run length named turn (fun name _ => ?_) (reads.sound leaf mem).2
  cases op with
  | attr attr_name expr =>
      have all := Trex_rule.known_of_last split rfl fun head inBody => by
        obtain ⟨ctx, -, ⟨_, -, same⟩ | ⟨_, _, -, same⟩ | ⟨_, same⟩⟩ := mem_body inBody
        all_goals cases same
      rw [turn.names, all]
  | enter | negate | parameter | mapping | atom | static | consume =>
      exact (List.not_mem_nil isExpr).elim

theorem negations_of_inOrder (order : InOrder t) :
    List.Forall₂ (fun negation neg => negation.2.bounds parseLong t.names =
      some (neg.lowerId, neg.lowerTime, neg.upperId)) t.negations final.rule_negations := by
  have counted := negations_length run
  rw [begins.negations, List.length_nil, Nat.zero_add,
    Trex_rule.filterMap_operations _ negation?_of_predicate?] at counted
  rw [List.forall₂_iff_get]
  refine ⟨counted.symm, fun i lt lt' => ?_⟩
  rw [List.get_eq_getElem, List.get_eq_getElem]
  have isNegations :
      t.negations = t.negations.take i ++ t.negations[i] :: t.negations.drop (i + 1) := by
    rw [List.getElem_cons_drop, List.take_append_drop]
  obtain ⟨before, op, after, split, isNegation, front⟩ :=
    Trex_rule.operations_of_filterMap negation?_of_predicate? isNegations
  cases op with
  | negate ctx window =>
      obtain ⟨u, v, turn⟩ := exists_turn begins run length split
      obtain ⟨neg, here, bounds⟩ := turn.exists_negation begins
      rw [front, List.length_take, Nat.min_eq_left (Nat.le_of_lt lt)] at here
      obtain ⟨_, isNeg⟩ := List.getElem?_eq_some_iff.mp here
      rw [← Option.some.inj isNegation, isNeg, ← bounds]
      refine (Window.bounds_congr fun name isName => ?_).symm
      exact (turn.indexOf_eq_iff named.nodup name).mpr (order.backward _ _ _ split name isName)
  | enter | parameter | mapping | atom | static | attr | consume => cases isNegation

omit named in
theorem consuming_of_walk : final.rule_consuming = t.consuming.map (indexOf t.names) := by
  obtain ⟨before, split, none⟩ := t.operations_eq_concat
  have all := run
  rw [split] at all
  obtain ⟨u, v, front, turn, back⟩ := forM_split all
  cases back
  have names := names_of_front begins length split front (bind_eq_some.mpr ⟨(), _, turn, rfl⟩)
  have isKnown := Trex_rule.known_of_last split rfl fun head inBody => by
    obtain ⟨ctx, -, ⟨_, -, same⟩ | ⟨_, _, -, same⟩ | ⟨_, same⟩⟩ := mem_body inBody
    all_goals cases same
  rw [(exec_effect turn).consuming, consuming_of_run none front, begins.consuming, names, isKnown]
  rfl

end Converse

/-! ## Main result -/

/-- Each state of the pattern is a state of the packet and each name the state that it stands for,
if and only if no two states are alike and no name stands for a state that comes only later. -/
theorem ownStates_iff {t : Trex_rule} {rule : RulePkt} (parsed : parse t = some rule)
    (named : t.WellNamed) : OwnStates t rule ↔ InOrder t := by
  obtain ⟨s, walked, made⟩ := parse_eq_some.mp parsed
  obtain ⟨start, final, begins, run, packs, sameCompiled⟩ := walk_runs walked made
  obtain ⟨mentioned, settled⟩ := walk_settled walked made
  rw [sameCompiled] at mentioned
  have rows : Rows final := by
    refine rows_of_run run ⟨?_, ?_, ?_⟩
    · rw [begins.compiled]
      exact fun c mem => (List.not_mem_nil mem).elim
    · rw [begins.aggregates]
      exact fun agg mem => (List.not_mem_nil mem).elim
    · rw [begins.compiled]
      intro before c after split
      cases before <;> cases split
  have keys : (rule.aggregates.map TAggregate.key).Nodup := by
    rw [settled.keys]
    exact FirstSeen.nodup_eraseDups _
  have names : final.names.rule_predicates.length = t.states.length →
      final.names.rule_predicates_names = t.names := by
    intro length
    rw [(entered_states begins run length).names_eq, begins.names]
    rfl
  constructor
  · intro own
    have length := own.states.length_eq.symm
    rw [packs.predicates] at length
    exact {
      apart := apart_of_own begins run packs own
      backward := fun before op after split => backward_of_own begins run packs named own split
      windows := fun mentions isMentions before m after split new =>
        windows_of_own rows mentioned packs.aggregates named.nodup (names length) own keys
          isMentions split new }
  · intro order
    have entered := enterAll_of_run run
    rw [Trex_rule.filterMap_operations _ state?_of_predicate?] at entered
    have states := states_of_inOrder named order t.states [] start.names rfl
      (fun p _ => congrFun begins.declared _) begins.names (by rw [begins.predicates]; exact .nil)
      entered
    have length := states.length_eq.symm
    exact {
      states := by rw [packs.predicates]; exact states
      owners := fun i state here par mem => by
        rw [packs.parameters]
        exact owners_of_inOrder begins run length named here mem
      owned := fun p mem isState =>
        owned_of_inOrder begins run length named (packs.parameters ▸ mem) isState
      parameters := fun p mem =>
        parameters_of_inOrder begins run length named order (packs.parameters ▸ mem)
      attributes := fun attr mem =>
        attributes_of_run begins run length named (packs.attributes ▸ mem)
      negations := by
        rw [packs.negations]
        exact negations_of_inOrder begins run length named order
      aggregates := fun mentions isMentions before m after split new =>
        aggregates_of_inOrder rows mentioned packs.aggregates named.nodup (names length) order
          isMentions split new
      consuming := by
        rw [packs.consuming]
        exact consuming_of_walk begins run length }

/-! ## Two rules -/

def fire : CString := ['F', 'i', 'r', 'e']

def smoke : CString := ['S', 'm', 'o', 'k', 'e']

/-- The names of some smokes, each of which must have come within a time before a fire. -/
def smokes (pattern : List (CString × Nat)) : Trex_rule where
  event_declarations := [(1, fire), (2, smoke)]
  ce_definition := (fire, [])
  terminator := ⟨fire, [], none⟩
  pattern_predicates := pattern.map fun (name, within) =>
    .positive .each ⟨smoke, [], some name⟩ within fire
  definitions := []
  consuming := []

theorem smokes_predicates (pattern : List (CString × Nat)) : (smokes pattern).predicates =
    ⟨fire, [], none⟩ :: pattern.map fun smoked => ⟨smoke, [], some smoked.1⟩ := by
  rw [Trex_rule.predicates, smokes, List.map_map]
  rfl

theorem smokes_named {pattern : List (CString × Nat)} (distinct : (pattern.map Prod.fst).Nodup)
    (others : ∀ name ∈ pattern.map Prod.fst, name ≠ fire ∧ name ≠ smoke) :
    (smokes pattern).WellNamed where
  distinct := by
    rw [smokes_predicates, List.map_cons, List.map_map]
    exact List.nodup_cons.mpr ⟨fun mem => (others _ mem).1 rfl, distinct⟩
  aliases := by
    rw [smokes_predicates]
    intro p isP q isQ isAlias
    rcases List.mem_cons.mp isP with root | mem
    · rw [root] at isAlias
      cases isAlias
    · obtain ⟨smoked, isSmoked, same⟩ := List.mem_map.mp mem
      have other := others smoked.1 (List.mem_map_of_mem isSmoked)
      rw [← same] at isAlias
      have isName : smoked.1 = q.evt_name := Option.some.inj isAlias
      rcases List.mem_cons.mp isQ with root | mem'
      · rw [root] at isName
        exact absurd isName other.1
      · obtain ⟨_, -, same'⟩ := List.mem_map.mp mem'
        rw [← same'] at isName
        exact absurd isName other.2

/-- Two smokes within different times. -/
theorem smokes_inOrder : InOrder (smokes [(['A'], 5), (['B'], 9)]) where
  apart := by
    have times : (smokes [(['A'], 5), (['B'], 9)]).states.Pairwise
        fun a b => a.window ≠ b.window := by decide
    exact times.imp fun differ alike => differ alike.window
  backward := by
    intro before op after split name mem _
    have referred : ∀ op ∈ (smokes [(['A'], 5), (['B'], 9)]).operations,
        ∀ name ∈ op.references, name = fire := by
      decide
    refine ⟨⟨⟨fire, [], none⟩, none⟩, ?_, ?_⟩
    · -- the terminator comes first, and refers to nothing
      cases before with
      | nil =>
          cases (List.cons.inj split).1
          exact (List.not_mem_nil mem).elim
      | cons first before =>
          rw [← (List.cons.inj split).1]
          exact List.mem_cons_self
    · refine (referred op ?_ name mem).symm
      rw [split]
      exact List.mem_append_right _ List.mem_cons_self
  windows := by
    intro mentions isMentions before m after split
    cases isMentions
    cases before <;> cases split

theorem ownStates_smokes : ∃ rule, parse (smokes [(['A'], 5), (['B'], 9)]) = some rule ∧
    OwnStates (smokes [(['A'], 5), (['B'], 9)]) rule := by
  have isSome : (parse (smokes [(['A'], 5), (['B'], 9)])).isSome := by decide +kernel
  obtain ⟨rule, parsed⟩ := Option.isSome_iff_exists.mp isSome
  exact ⟨rule, parsed,
    (ownStates_iff parsed (smokes_named (by decide) (by decide))).mpr smokes_inOrder⟩

/-- The second smoke within the same time is taken for the first, and its name stands for
nothing. -/
theorem smokes_not_ownStates : (smokes [(['A'], 5), (['B'], 5)]).WellNamed ∧
    ∃ rule, parse (smokes [(['A'], 5), (['B'], 5)]) = some rule ∧
      ¬ OwnStates (smokes [(['A'], 5), (['B'], 5)]) rule := by
  have two : (parse (smokes [(['A'], 5), (['B'], 5)])).map (fun rule => rule.predicates.length) =
      some 2 := by
    decide +kernel
  obtain ⟨rule, parsed, length⟩ := Option.map_eq_some_iff.mp two
  refine ⟨smokes_named (by decide) (by decide), rule, parsed, fun own => ?_⟩
  have three := own.states.length_eq
  rw [length] at three
  cases three

end TRex.Tesla
