import TRex.Lib.FirstSeen
import TRex.RuleExpressions

/-!
# The aggregates of the rule parser

An atom is compiled when the expression that it stands in is, and entered when the walk comes to it.
The first makes an aggregate if there is none with its function, event type and attribute, and
refers to the last one; the second adds the constraints and the parameters of the atom to the
first aggregate with its function, event type and attribute. `Registered` says what the aggregates
of a rule are at any time, and each callback keeps it.
-/

namespace TRex.Tesla

open Stateful FirstSeen

/-! ## Atoms and what they ask for -/

/-- An atom that is compiled, with the names known then. -/
structure Mention where
  names : Names
  atom : Aggregate

/-- What aggregates are looked up by. -/
abbrev AggregateKey := AggregateFun × Option Int × CString

def TAggregate.key (agg : TAggregate) : AggregateKey := (agg.fun_, some agg.eventType, agg.name)

/-- What an atom adds to its aggregate when it is entered. -/
inductive Piece
  | constraint (c : Constraint)
  | parameter (par : Parameter)

namespace Mention

variable (m : Mention)

def key : AggregateKey :=
  (getAggregateFun m.atom.aggr_fun, m.names.predicates_map m.atom.evt_name, m.atom.attr_name)

/-- Lower bound, lower time and upper bound of its window. -/
def bounds : Option (Int × Int × Int) :=
  m.atom.window.bounds parseInt m.names.rule_predicates_names

def constraints : List Constraint := m.atom.attr_constraint.filterMap getConstraint

def pieces : List (AggregateKey × Piece) :=
  m.constraints.map (fun c => (m.key, .constraint c)) ++
    m.atom.attr_parameter.map fun par => (m.key, .parameter par)

end Mention

def Compiled.mention (c : Compiled) : Mention := ⟨c.names, c.atom⟩

/-- The parameter of an atom, compiled for an aggregate. -/
def ComplexParameter.IsOf (p : ComplexParameter) (par : Parameter) (index : Int)
    (type : StateType) : Prop :=
  ∃ s rightTree s', buildOpTree (some (getValType par.valtype)) id par.expr s =
      some (rightTree, s') ∧
    p = { operation := getConstrOp par.operator
          sType := type
          type := rightTree.getValType
          leftTree := .leaf par (.rulePkt index type par.attr_name) (some (getValType par.valtype))
          rightTree }

theorem isFor_iff_key {agg : TAggregate} {names : Names} {ctx : Aggregate} :
    agg.IsFor names ctx ↔ agg.key = (Mention.mk names ctx).key := by
  constructor
  · rintro ⟨fun_, eventType, name⟩
    exact Prod.ext fun_ (Prod.ext eventType.symm name)
  · intro same
    obtain ⟨fun_, rest⟩ := Prod.ext_iff.mp same
    obtain ⟨eventType, name⟩ := Prod.ext_iff.mp rest
    exact ⟨fun_, eventType.symm, name⟩

/-! ## The table -/

/-- The aggregates of a rule, when some pieces have been added to them. -/
structure Registered (s : Parser) (pieces : List (AggregateKey × Piece)) : Prop where
  keys : s.rule_aggregates.map TAggregate.key = (s.compiled.map fun c => c.mention.key).eraseDups
  bounds : ∀ agg ∈ s.rule_aggregates, ∃ c ∈ s.compiled, c.mention.key = agg.key ∧
    c.mention.bounds = some (agg.lowerId, agg.lowerTime, agg.upperId)
  references : ∀ before c after, s.compiled = before ++ c :: after →
    c.reference = ((((before ++ [c]).map fun c => c.mention.key).eraseDups.length : Nat) : Int) - 1
  known : ∀ piece ∈ pieces, piece.1 ∈ s.rule_aggregates.map TAggregate.key
  constraints : ∀ agg ∈ s.rule_aggregates, ∀ c, c ∈ agg.constraints ↔
    (agg.key, .constraint c) ∈ pieces
  parameters : ∀ par (index : Int), (∃ p ∈ s.rule_parameters, p.IsOf par index .agg) ↔
    ∃ (n : Nat) (key : AggregateKey), (s.rule_aggregates.map TAggregate.key)[n]? = some key ∧
      index = n ∧ (key, .parameter par) ∈ pieces

/-- What is added behind some state: the names known then, the atoms that are compiled and the
pieces. -/
structure Adds (s s' : Parser) (names : Names) (mentions : List Mention)
    (pieces : List (AggregateKey × Piece)) : Prop where
  names : s'.names = names
  compiled : s'.compiled.map Compiled.mention = s.compiled.map Compiled.mention ++ mentions
  registered : ∀ before, Registered s before → Registered s' (before ++ pieces)

theorem Adds.trans {s mid s' : Parser} {names names' : Names} {mentions mentions' : List Mention}
    {pieces pieces' : List (AggregateKey × Piece)} (first : Adds s mid names mentions pieces)
    (second : Adds mid s' names' mentions' pieces') :
    Adds s s' names' (mentions ++ mentions') (pieces ++ pieces') where
  names := second.names
  compiled := by rw [second.compiled, first.compiled, List.append_assoc]
  registered before reg := by
    rw [← List.append_assoc]
    exact second.registered _ (first.registered before reg)

/-- A step that leaves the aggregates and what refers to them alone. -/
theorem Adds.unrelated {s s' : Parser} {names : Names} (isNames : s'.names = names)
    (aggregates : s'.rule_aggregates = s.rule_aggregates) (compiled : s'.compiled = s.compiled)
    (parameters : s'.rule_parameters = s.rule_parameters) : Adds s s' names [] [] where
  names := isNames
  compiled := by rw [compiled, List.append_nil]
  registered before reg := by
    rw [List.append_nil]
    exact {
      keys := by rw [aggregates, compiled]; exact reg.keys
      bounds := by rw [aggregates, compiled]; exact reg.bounds
      references := by rw [compiled]; exact reg.references
      known := by rw [aggregates]; exact reg.known
      constraints := by rw [aggregates]; exact reg.constraints
      parameters := by rw [aggregates, parameters]; exact reg.parameters }

theorem Adds.refl (s : Parser) : Adds s s s.names [] [] := .unrelated rfl rfl rfl rfl

theorem registered_new : Registered Parser.new [] where
  keys := rfl
  bounds agg mem := (List.not_mem_nil mem).elim
  references before c after split := by cases before <;> cases split
  known piece mem := (List.not_mem_nil mem).elim
  constraints agg mem := (List.not_mem_nil mem).elim
  parameters par index := by
    constructor
    · rintro ⟨p, mem, -⟩
      exact (List.not_mem_nil mem).elim
    · rintro ⟨n, agg, -, -, mem⟩
      exact (List.not_mem_nil mem).elim

/-! ## Compiling an atom -/

theorem Registered.mem_keys {s : Parser} {pieces : List (AggregateKey × Piece)}
    (reg : Registered s pieces) {k : AggregateKey} :
    k ∈ s.rule_aggregates.map TAggregate.key ↔ k ∈ s.compiled.map fun c => c.mention.key := by
  rw [reg.keys, List.mem_eraseDups]

/-- The keys of the aggregates when another atom has been compiled. -/
theorem Refers.keys {s : Parser} {ctx : Aggregate} {aggregates : List TAggregate}
    (refers : Refers s ctx aggregates)
    (keys : s.rule_aggregates.map TAggregate.key =
      (s.compiled.map fun c => c.mention.key).eraseDups) :
    aggregates.map TAggregate.key =
      ((s.compiled.map fun c => c.mention.key) ++ [(Mention.mk s.names ctx).key]).eraseDups := by
  cases refers with
  | @found agg mem isFor =>
      have seen : (Mention.mk s.names ctx).key ∈ s.compiled.map fun c => c.mention.key := by
        rw [← List.mem_eraseDups, ← keys, ← isFor_iff_key.mp isFor]
        exact List.mem_map_of_mem mem
      rw [concat_of_mem seen, keys]
  | @made agg new made =>
      have unseen : (Mention.mk s.names ctx).key ∉ s.compiled.map fun c => c.mention.key := by
        rw [← List.mem_eraseDups, ← keys]
        intro mem
        obtain ⟨agg, mem, isKey⟩ := List.mem_map.mp mem
        exact new agg mem (isFor_iff_key.mpr isKey)
      rw [concat_of_not_mem unseen, List.map_append, keys, List.map_singleton,
        isFor_iff_key.mp (newAggregate_eq_some made).1]

theorem unknown_of_new {s : Parser} {ctx : Aggregate} {agg : TAggregate}
    (new : ∀ agg ∈ s.rule_aggregates, ¬ agg.IsFor s.names ctx)
    (made : newAggregate s.names ctx = some agg) :
    agg.key ∉ s.rule_aggregates.map TAggregate.key := by
  intro mem
  obtain ⟨old, isAggregate, isKey⟩ := List.mem_map.mp mem
  have isFor := (newAggregate_eq_some made).1
  exact new old isAggregate (isFor_iff_key.mpr (isKey.trans (isFor_iff_key.mp isFor)))

theorem Refers.adds {s : Parser} {ctx : Aggregate} {aggregates : List TAggregate}
    (refers : Refers s ctx aggregates) :
    Adds s (s.refer ctx aggregates).2 s.names [⟨s.names, ctx⟩] [] where
  names := rfl
  compiled := by
    show List.map _ (s.compiled ++ [_]) = _
    rw [List.map_append]
    rfl
  registered pieces reg := by
    rw [List.append_nil]
    have keys := refers.keys reg.keys
    have older : ∀ agg ∈ s.rule_aggregates, agg ∈ aggregates := by
      intro agg mem
      cases refers with
      | found _ _ => exact mem
      | made _ _ => exact List.mem_append_left _ mem
    exact {
      keys := by
        show _ = (List.map _ (s.compiled ++ [_])).eraseDups
        rw [List.map_append]
        exact keys
      bounds := by
        intro agg mem
        cases refers with
        | found _ _ =>
            obtain ⟨c, isCompiled, facts⟩ := reg.bounds agg mem
            exact ⟨c, List.mem_append_left _ isCompiled, facts⟩
        | made new made =>
            rcases List.mem_append.mp mem with old | last
            · obtain ⟨c, isCompiled, facts⟩ := reg.bounds agg old
              exact ⟨c, List.mem_append_left _ isCompiled, facts⟩
            · cases List.mem_singleton.mp last
              obtain ⟨isFor, -, isBounds⟩ := newAggregate_eq_some made
              exact ⟨_, List.mem_append_right _ List.mem_cons_self, (isFor_iff_key.mp isFor).symm,
                isBounds⟩
      references := by
        intro before c after split
        rcases List.eq_nil_or_concat after with rfl | ⟨init, last, rfl⟩
        · obtain ⟨rfl, same⟩ := List.append_inj' split rfl
          cases same
          show ((aggregates.length : Nat) : Int) - 1 = _
          rw [List.map_append]
          rw [← List.length_map TAggregate.key, keys]
          rfl
        · rw [List.concat_eq_append, ← List.cons_append, ← List.append_assoc] at split
          exact reg.references before c init (List.append_inj' split rfl).1
      known := by
        intro piece mem
        obtain ⟨agg, isAggregate, isKey⟩ := List.mem_map.mp (reg.known piece mem)
        exact List.mem_map.mpr ⟨agg, older agg isAggregate, isKey⟩
      constraints := by
        intro agg mem con
        cases refers with
        | found _ _ => exact reg.constraints agg mem con
        | made new made =>
            rcases List.mem_append.mp mem with old | last
            · exact reg.constraints agg old con
            · cases List.mem_singleton.mp last
              rw [(newAggregate_eq_some made).2.1]
              exact iff_of_false List.not_mem_nil fun mem =>
                unknown_of_new new made (reg.known _ mem)
      parameters := by
        intro par index
        refine (reg.parameters par index).trans ?_
        cases refers with
        | found _ _ => exact Iff.rfl
        | @made agg new made =>
            show _ ↔ ∃ (n : Nat) (key : AggregateKey),
              (List.map TAggregate.key (s.rule_aggregates ++ [agg]))[n]? = _ ∧ _
            rw [List.map_append]
            constructor
            · rintro ⟨n, key, isKey, facts⟩
              refine ⟨n, key, ?_, facts⟩
              have within := (List.getElem?_eq_some_iff.mp isKey).1
              exact (List.getElem?_append_left within).trans isKey
            · rintro ⟨n, key, isKey, isIndex, mem⟩
              refine ⟨n, key, ?_, isIndex, mem⟩
              rcases Nat.lt_or_ge n (s.rule_aggregates.map TAggregate.key).length
                with within | behind
              · exact (List.getElem?_append_left within).symm.trans isKey
              · have last := (List.getElem?_append_right behind).symm.trans isKey
                cases List.mem_singleton.mp (List.mem_of_getElem? last)
                exact absurd (reg.known _ mem) (unknown_of_new new made) }

/-! ## Adding to an aggregate -/

theorem Registered.nodup {s : Parser} {pieces : List (AggregateKey × Piece)}
    (reg : Registered s pieces) : (s.rule_aggregates.map TAggregate.key).Nodup := by
  rw [reg.keys]
  exact nodup_eraseDups _

section Constraints

variable {aggregates : List TAggregate} {n : Nat} {con : Constraint}

/-- The aggregates when a constraint has been added to one of them. -/
theorem getElem?_addConstraint (i : Nat) :
    (aggregates.modify n fun a => a.addConstraint con)[i]? =
      (aggregates[i]?).map fun a => if n = i then a.addConstraint con else a := by
  rw [List.getElem?_modify]
  cases aggregates[i]? with
  | none => rfl
  | some a => by_cases here : n = i <;> simp [here]

theorem keys_addConstraint :
    (aggregates.modify n fun a => a.addConstraint con).map TAggregate.key =
      aggregates.map TAggregate.key := by
  apply List.ext_getElem?
  intro i
  rw [List.getElem?_map, List.getElem?_map, getElem?_addConstraint, Option.map_map]
  congr 1
  funext a
  by_cases here : n = i
  · simp [here, TAggregate.addConstraint, TAggregate.key]
  · simp [here]

theorem mem_addConstraint {agg : TAggregate}
    (mem : agg ∈ aggregates.modify n fun a => a.addConstraint con) :
    ∃ i old, aggregates[i]? = some old ∧ agg = if n = i then old.addConstraint con else old := by
  obtain ⟨i, isAggregate⟩ := List.mem_iff_getElem?.mp mem
  rw [getElem?_addConstraint] at isAggregate
  obtain ⟨old, isOld, rfl⟩ := Option.map_eq_some_iff.mp isAggregate
  exact ⟨i, old, isOld, rfl⟩

end Constraints

theorem Adds.constraint {s : Parser} {names : Names} (isNames : s.names = names) {n : Nat}
    {key : AggregateKey} (isKey : (s.rule_aggregates.map TAggregate.key)[n]? = some key)
    (con : Constraint) :
    Adds s { s with rule_aggregates := s.rule_aggregates.modify n fun a => a.addConstraint con }
      names [] [(key, .constraint con)] where
  names := isNames
  compiled := (List.append_nil _).symm
  registered pieces reg := {
    keys := keys_addConstraint.trans reg.keys
    bounds := by
      intro agg mem
      obtain ⟨i, old, isOld, rfl⟩ := mem_addConstraint mem
      have facts := reg.bounds old (List.mem_of_getElem? isOld)
      by_cases here : n = i
      · rw [if_pos here]
        exact facts
      · rw [if_neg here]
        exact facts
    references := reg.references
    known := by
      intro piece mem
      show piece.1 ∈ List.map _ (List.modify _ _ _)
      rw [keys_addConstraint]
      rcases List.mem_append.mp mem with before | last
      · exact reg.known piece before
      · rw [List.mem_singleton.mp last]
        exact List.mem_of_getElem? isKey
    constraints := by
      intro agg mem other
      obtain ⟨i, old, isOld, rfl⟩ := mem_addConstraint mem
      have before := reg.constraints old (List.mem_of_getElem? isOld) other
      have isOldKey : (s.rule_aggregates.map TAggregate.key)[i]? = some old.key := by
        rw [List.getElem?_map, isOld]
        rfl
      by_cases here : n = i
      · have same : old.key = key := by
          rw [here] at isKey
          exact Option.some.inj (isOldKey.symm.trans isKey)
        rw [if_pos here]
        show other ∈ old.constraints ++ [con] ↔ (old.key, _) ∈ _
        rw [List.mem_append, List.mem_append, before, same, List.mem_singleton, List.mem_singleton]
        simp
      · rw [if_neg here, List.mem_append, before]
        refine (or_iff_left fun last => here ?_).symm
        have same : old.key = key := (Prod.ext_iff.mp (List.mem_singleton.mp last)).1
        rw [same, ← isKey] at isOldKey
        obtain ⟨within, -⟩ := List.getElem?_eq_some_iff.mp isKey
        exact (List.getElem?_inj within reg.nodup).mp isOldKey.symm
    parameters := by
      intro par index
      show _ ↔ ∃ m key, (List.map _ (List.modify _ _ _))[m]? = _ ∧ _
      rw [keys_addConstraint]
      refine (reg.parameters par index).trans ?_
      simp }

/-- A parameter is of one atom, for one aggregate. -/
theorem ComplexParameter.IsOf.same {p : ComplexParameter} {par par' : Parameter}
    {index index' : Int} {type type' : StateType} (isOf : p.IsOf par index type)
    (isOf' : p.IsOf par' index' type') : par = par' ∧ index = index' ∧ type = type' := by
  obtain ⟨s, rightTree, s', -, rfl⟩ := isOf
  obtain ⟨t, tree, t', -, same⟩ := isOf'
  obtain ⟨-, types, -, left, -⟩ := ComplexParameter.mk.inj same
  obtain ⟨rfl, refs, -⟩ := OpTree.leaf.inj left
  exact ⟨rfl, (Java.OpValueReference.rulePkt.inj refs).1, types⟩

section Parameters

variable {s : Parser} {names : Names} {p : ComplexParameter} {par : Parameter}

/-- A parameter that belongs to no aggregate. -/
theorem Adds.other (isNames : s.names = names) {index : Int} {type : StateType}
    (isOf : p.IsOf par index type) (other : type ≠ .agg) :
    Adds s { s with rule_parameters := s.rule_parameters ++ [p] } names [] [] where
  names := isNames
  compiled := (List.append_nil _).symm
  registered pieces reg := by
    rw [List.append_nil]
    refine { reg with parameters := ?_ }
    intro par' index'
    refine Iff.trans ?_ (reg.parameters par' index')
    constructor
    · rintro ⟨q, mem, isOf'⟩
      rcases List.mem_append.mp mem with before | last
      · exact ⟨q, before, isOf'⟩
      · rw [List.mem_singleton.mp last] at isOf'
        exact absurd (isOf.same isOf').2.2 other
    · rintro ⟨q, mem, isOf'⟩
      exact ⟨q, List.mem_append_left _ mem, isOf'⟩

theorem Adds.parameter (isNames : s.names = names) {n : Nat} {key : AggregateKey}
    (isKey : (s.rule_aggregates.map TAggregate.key)[n]? = some key) (isOf : p.IsOf par n .agg) :
    Adds s { s with rule_parameters := s.rule_parameters ++ [p] } names []
      [(key, .parameter par)] where
  names := isNames
  compiled := (List.append_nil _).symm
  registered pieces reg := {
    keys := reg.keys
    bounds := reg.bounds
    references := reg.references
    known := by
      intro piece mem
      rcases List.mem_append.mp mem with before | last
      · exact reg.known piece before
      · rw [List.mem_singleton.mp last]
        exact List.mem_of_getElem? isKey
    constraints := by
      intro agg mem con
      rw [reg.constraints agg mem con]
      simp
    parameters := by
      intro par' index
      constructor
      · rintro ⟨q, mem, isOf'⟩
        rcases List.mem_append.mp mem with before | last
        · obtain ⟨m, key', isKey', isIndex, mem⟩ :=
            (reg.parameters par' index).mp ⟨q, before, isOf'⟩
          exact ⟨m, key', isKey', isIndex, List.mem_append_left _ mem⟩
        · rw [List.mem_singleton.mp last] at isOf'
          obtain ⟨rfl, rfl, -⟩ := isOf.same isOf'
          exact ⟨n, key, isKey, rfl, List.mem_append_right _ List.mem_cons_self⟩
      · rintro ⟨m, key', isKey', rfl, mem⟩
        rcases List.mem_append.mp mem with before | last
        · obtain ⟨q, mem, isOf'⟩ := (reg.parameters par' m).mpr ⟨m, key', isKey', rfl, before⟩
          exact ⟨q, List.mem_append_left _ mem, isOf'⟩
        · obtain ⟨same, piece⟩ := Prod.ext_iff.mp (List.mem_singleton.mp last)
          cases Piece.parameter.inj piece
          have isKey' : (s.rule_aggregates.map TAggregate.key)[m]? = some key' := isKey'
          rw [show key' = key from same, ← isKey] at isKey'
          obtain ⟨within, -⟩ := List.getElem?_eq_some_iff.mp isKey
          have here := (List.getElem?_inj within reg.nodup).mp isKey'.symm
          exact ⟨p, List.mem_append_right _ List.mem_cons_self, here ▸ isOf⟩ }

end Parameters

/-! ## Finding an aggregate -/

/-- The aggregates keep their positions. -/
theorem Adds.keys_prefix {s s' : Parser} {names : Names} {mentions : List Mention}
    {before pieces : List (AggregateKey × Piece)} (adds : Adds s s' names mentions pieces)
    (reg : Registered s before) :
    s.rule_aggregates.map TAggregate.key <+: s'.rule_aggregates.map TAggregate.key := by
  have split : ∀ t : Parser, (t.compiled.map fun c => c.mention.key) =
      (t.compiled.map Compiled.mention).map Mention.key := by
    intro t
    rw [List.map_map]
    rfl
  rw [reg.keys, (adds.registered before reg).keys, split, split, adds.compiled, List.map_append]
  exact prefix_append _ _

theorem Adds.getElem?_keys {s s' : Parser} {names : Names} {mentions : List Mention}
    {before pieces : List (AggregateKey × Piece)} (adds : Adds s s' names mentions pieces)
    (reg : Registered s before) {n : Nat} {key : AggregateKey}
    (isKey : (s.rule_aggregates.map TAggregate.key)[n]? = some key) :
    (s'.rule_aggregates.map TAggregate.key)[n]? = some key := by
  obtain ⟨rest, rows⟩ := adds.keys_prefix reg
  rw [← rows, List.getElem?_append_left (List.getElem?_eq_some_iff.mp isKey).1]
  exact isKey

/-- The aggregate of an atom that has been compiled is found. -/
theorem Registered.getAggregate {s : Parser} {before : List (AggregateKey × Piece)}
    (reg : Registered s before) {ctx : Aggregate}
    (compiled : Mention.mk s.names ctx ∈ s.compiled.map Compiled.mention) :
    ∃ n, getAggregate s.names.predicates_map ctx.evt_name ctx.attr_name
        (getAggregateFun ctx.aggr_fun) s.rule_aggregates = some (some n) ∧
      (s.rule_aggregates.map TAggregate.key)[n]? = some (Mention.mk s.names ctx).key := by
  obtain ⟨c, isCompiled, same⟩ := List.mem_map.mp compiled
  have mem := reg.mem_keys.mpr (List.mem_map_of_mem isCompiled)
  obtain ⟨agg, isAggregate, isKey⟩ := List.mem_map.mp mem
  rw [same] at isKey
  have isFor := isFor_iff_key.mpr isKey
  have known := isFor.eventType
  obtain ⟨n, found⟩ := Option.isSome_iff_exists.mp
    ((isSome_findIdx?_iff known s.rule_aggregates).mpr ⟨agg, isAggregate, isFor⟩)
  refine ⟨n, (getAggregate_eq known s.rule_aggregates).trans (congrArg some found), ?_⟩
  obtain ⟨within, matched, -⟩ := List.findIdx?_eq_some_iff_getElem.mp found
  obtain ⟨name, eventType, fun_⟩ := of_decide_eq_true matched
  rw [List.getElem?_map, List.getElem?_eq_getElem within]
  exact congrArg some (Prod.ext fun_ (Prod.ext ((congrArg some eventType).trans known.symm) name))

theorem Constraint.equals_refl (c : Constraint) : c.equals c := by
  rcases c with ⟨name, op, value⟩
  cases value <;> simp [Constraint.equals]

theorem TAggregate.equals_refl (a : TAggregate) : a.equals a := by
  have constraints : ∀ c ∈ a.constraints, ∃ other ∈ a.constraints, c.equals other :=
    fun c mem => ⟨c, mem, c.equals_refl⟩
  simpa [TAggregate.equals] using constraints

theorem TAggregate.key_of_equals {a other : TAggregate} (same : a.equals other) :
    a.key = other.key := by
  simp only [TAggregate.equals, Bool.and_eq_true, beq_iff_eq] at same
  obtain ⟨⟨⟨⟨⟨⟨-, eventType⟩, fun_⟩, -⟩, -⟩, name⟩, -⟩ := same
  exact Prod.ext fun_ (Prod.ext (congrArg some eventType) name)

/-- An aggregate is found at its own position. -/
theorem Registered.indexOfAggregate {s : Parser} {before : List (AggregateKey × Piece)}
    (reg : Registered s before) {n : Nat} {key : AggregateKey}
    (isKey : (s.rule_aggregates.map TAggregate.key)[n]? = some key) :
    indexOfAggregate s.rule_aggregates (some n) = n := by
  rw [List.getElem?_map] at isKey
  obtain ⟨agg, isAggregate, -⟩ := Option.map_eq_some_iff.mp isKey
  obtain ⟨within, isHere⟩ := List.getElem?_eq_some_iff.mp isAggregate
  have found : s.rule_aggregates.findIdx? agg.equals = some n := by
    rw [List.findIdx?_eq_some_iff_getElem]
    refine ⟨within, isHere ▸ agg.equals_refl, ?_⟩
    intro j earlier same
    have keys := TAggregate.key_of_equals same
    have inBounds : j < (s.rule_aggregates.map TAggregate.key).length := by
      rw [List.length_map]
      omega
    have here : j = n := (List.getElem?_inj inBounds reg.nodup).mp (by
      rw [List.getElem?_map, List.getElem?_map, isAggregate,
        List.getElem?_eq_getElem (earlier.trans within)]
      exact congrArg some keys.symm)
    omega
  unfold Tesla.indexOfAggregate
  rw [Option.bind_some, isAggregate]
  simp only [found]

end TRex.Tesla
