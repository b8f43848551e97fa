import TRex.StateParameters

/-!
# What the rule builder checks

Each builder call makes some checks of its own and trusts its caller for the rest. `WellFormed` is
what the arrays and maps of the engine rely on; `Careful` is the part of it that the accepted calls
must bring along, since no call checks it: that `addPredicate` refers to no negative state, that at
most `MAX_RULE_FIELDS` elements of each kind are added, and that the trees of the complex parameters
name elements that exist in the end. Everything else the builder enforces (`calls_wellFormed_iff`).
-/

namespace TRex

/-! ## Well-formed rules -/

/-- The leaf is a constant or names one of the elements that there are of its kind. -/
def OpValueReference.NamesExisting (size : StateType → Nat) : OpValueReference → Prop
  | .static _ => True
  | .rulePkt index type _ => 0 ≤ index ∧ index < size type

namespace RulePkt

/-- `getPredicatesNum`, `getNegationsNum` and `getAggregatesNum`. -/
def size (pkt : RulePkt) : StateType → Nat
  | .state => pkt.predicates.length
  | .neg => pkt.negations.length
  | .agg => pkt.aggregates.length

/-- The rule has an element of the kind at the index. -/
def Exists (pkt : RulePkt) (type : StateType) (index : Int) : Prop :=
  0 ≤ index ∧ index < pkt.size type

/-- The bounds of a negation or an aggregate: an upper state and either a time span before it or a
lower state. -/
def Spans (pkt : RulePkt) (lowerId upperId : Int) : Prop :=
  pkt.Exists .state upperId ∧ (lowerId = -1 ∨ pkt.Exists .state lowerId)

structure WellFormed (pkt : RulePkt) : Prop where
  /-- Predicate 0 is a root, and no other predicate is one. -/
  root : ∀ p, pkt.predicates[0]? = some p → p.refersTo = -1
  refersTo : pkt.RefersBack
  few : ∀ type, pkt.size type ≤ maxRuleFields
  negations : ∀ n ∈ pkt.negations, pkt.Spans n.lowerId n.upperId
  aggregates : ∀ a ∈ pkt.aggregates, pkt.Spans a.lowerId a.upperId
  parameters : ∀ par ∈ pkt.parameters, pkt.Exists .state par.evIndex1 ∧
    pkt.Exists par.type par.evIndex2
  complexParameters : ∀ par ∈ pkt.complexParameters, ∀ ref ∈ par.refs, ref.NamesExisting pkt.size
  consuming : ∀ i ∈ pkt.consuming, pkt.Exists .state i

/-! ## What a call adds -/

namespace BuilderCall

def predicate? : BuilderCall → Option Predicate
  | .addRootPredicate eventType constraints =>
    some { eventType, constraints, refersTo := -1, win := 0, kind := .eachWithin }
  | .addPredicate eventType constraints refersTo win kind =>
    some { eventType, constraints, refersTo, win, kind }
  | _ => none

def negation? : BuilderCall → Option Negation
  | .addTimeBasedNegation eventType constraints referenceId win =>
    some { eventType, constraints, lowerId := -1, lowerTime := win, upperId := referenceId }
  | .addNegationBetweenStates eventType constraints id1 id2 now =>
    some { eventType, constraints, lowerId := max id1 id2, lowerTime := now
           upperId := min id1 id2 }
  | _ => none

def aggregate? : BuilderCall → Option Aggregate
  | .addTimeBasedAggregate eventType constraints referenceId win name fun_ =>
    some { eventType, constraints, lowerId := -1, lowerTime := win, upperId := referenceId
           fun_, name }
  | .addAggregateBetweenStates eventType constraints id1 id2 now name fun_ =>
    some { eventType, constraints, lowerId := max id1 id2, lowerTime := now, upperId := min id1 id2
           fun_, name }
  | _ => none

/-- The parameter is stored under the largest index of its own kind that the trees name. -/
def complexParameter? : BuilderCall → Option CPUParameter
  | .addComplexParameter operation vtype leftTree rightTree =>
    some { operation, type := .state, vtype, leftTree, rightTree
           lastIndex := max (findLastState leftTree) (findLastState rightTree) }
  | .addComplexParameterForNegation operation vtype leftTree rightTree =>
    some { operation, type := .neg, vtype, leftTree, rightTree
           lastIndex := max (findNegation leftTree) (findNegation rightTree) }
  | .addComplexParameterForAggregate operation vtype leftTree rightTree =>
    some { operation, type := .agg, vtype, leftTree, rightTree
           lastIndex := max (findAggregate leftTree) (findAggregate rightTree) }
  | _ => none

/-- The leaves of the trees that a call brings along. -/
def refs (b : BuilderCall) : List OpValueReference :=
  (b.complexParameter?.map CPUParameter.refs).getD []

/-- The kind of element that a call adds to the rule. -/
def adds : BuilderCall → Option StateType
  | .addRootPredicate .. | .addPredicate .. => some .state
  | .addTimeBasedNegation .. | .addNegationBetweenStates .. => some .neg
  | .addTimeBasedAggregate .. | .addAggregateBetweenStates .. => some .agg
  | _ => none

/-- A predicate is not added with a negative reference. -/
def ReferenceNonneg : BuilderCall → Prop
  | .addPredicate _ _ refersTo _ _ => 0 ≤ refersTo
  | _ => True

end BuilderCall

/-- The calls of a sequence that return true. -/
def accepted (pkt : RulePkt) : List BuilderCall → List BuilderCall
  | [] => []
  | b :: rest =>
    match pkt.call b with
    | none => pkt.accepted rest
    | some pkt' => b :: pkt'.accepted rest

/-- How many elements of a kind the calls add. -/
def added (cs : List BuilderCall) (type : StateType) : Nat :=
  cs.countP fun b => b.adds = some type

/-- What the builder leaves to its caller. -/
structure Careful (cs : List BuilderCall) : Prop where
  reference : ∀ b ∈ cs, b.ReferenceNonneg
  few : ∀ type, added cs type ≤ maxRuleFields
  trees : ∀ b ∈ cs, ∀ ref ∈ b.refs, ref.NamesExisting (added cs)

/-- The lists of the packet after an accepted call. -/
structure Appends (pkt : RulePkt) (b : BuilderCall) (pkt' : RulePkt) : Prop where
  predicates : pkt'.predicates = pkt.predicates ++ b.predicate?.toList
  negations : pkt'.negations = pkt.negations ++ b.negation?.toList
  aggregates : pkt'.aggregates = pkt.aggregates ++ b.aggregate?.toList
  complexParameters : pkt'.complexParameters =
    pkt.complexParameters ++ b.complexParameter?.toList

variable {pkt pkt' : RulePkt}

/-! The calls that the others are made of, with what they check. -/

theorem addNegation_eq_some {eventType lowerId upperId : Int} {constraints : List Constraint}
    {lowerTime : Nat}
    (accepted : pkt.addNegation eventType constraints lowerId lowerTime upperId = some pkt') :
    pkt' = { pkt with negations := pkt.negations ++
      [{ eventType, constraints, lowerId, lowerTime, upperId }] } := by
  simp only [addNegation] at accepted
  repeat (split at accepted; · cases accepted)
  cases accepted
  rfl

theorem addAggregate_eq_some {eventType lowerId upperId : Int} {constraints : List Constraint}
    {lowerTime : Nat} {name : CString} {fun_ : AggregateFun}
    (accepted :
      pkt.addAggregate eventType constraints lowerId lowerTime upperId name fun_ = some pkt') :
    pkt' = { pkt with aggregates := pkt.aggregates ++
      [{ eventType, constraints, lowerId, lowerTime, upperId, fun_, name }] } := by
  simp only [addAggregate] at accepted
  repeat (split at accepted; · cases accepted)
  cases accepted
  rfl

theorem addParameter_exists {index1 index2 : Int} {name1 name2 : CString} {type : StateType}
    (accepted : pkt.addParameter index1 name1 index2 name2 type = some pkt') :
    pkt' = { pkt with parameters := pkt.parameters ++ [⟨index1, name1, index2, name2, type⟩] } ∧
      pkt.Exists .state index1 ∧ pkt.Exists type index2 := by
  simp only [addParameter] at accepted
  repeat (split at accepted; · cases accepted)
  cases accepted
  refine ⟨rfl, ⟨by omega, by simp only [size]; omega⟩, ⟨by omega, ?_⟩⟩
  cases type with
  | state => simp only [size]; simp only [true_and] at *; omega
  | neg => simp only [size]; simp only [true_and] at *; omega
  | agg => simp only [size]; simp only [true_and] at *; omega

theorem addComplexParameterWith_some {find : OpTree → Int} {type : StateType} {operation : Op}
    {vtype : ValType} {leftTree rightTree : OpTree}
    (accepted : pkt.addComplexParameterWith find type operation vtype leftTree rightTree =
      some pkt') :
    pkt' = { pkt with complexParameters := pkt.complexParameters ++
      [{ operation, type, vtype, leftTree, rightTree
         lastIndex := max (find leftTree) (find rightTree) }] } ∧
      0 ≤ max (find leftTree) (find rightTree) := by
  simp only [addComplexParameterWith] at accepted
  split at accepted
  case isTrue => cases accepted
  case isFalse nonneg =>
    cases accepted
    exact ⟨rfl, by omega⟩

theorem call_appends {b : BuilderCall} (accepted : pkt.call b = some pkt') :
    pkt.Appends b pkt' := by
  have nothing : ∀ {α : Type} (l : List α), l = l ++ [] := fun l => (List.append_nil l).symm
  cases b with
  | addRootPredicate t cs =>
      simp only [call, addRootPredicate] at accepted
      split at accepted
      · cases accepted
      · cases accepted
        exact ⟨rfl, nothing _, nothing _, nothing _⟩
  | addPredicate t cs r w k =>
      simp only [call, addPredicate] at accepted
      split at accepted
      · cases accepted
      · cases accepted
        exact ⟨rfl, nothing _, nothing _, nothing _⟩
  | addTimeBasedNegation t cs r w =>
      rw [addNegation_eq_some accepted]
      exact ⟨nothing _, rfl, nothing _, nothing _⟩
  | addNegationBetweenStates t cs i j now =>
      simp only [call, addNegationBetweenStates, sorted_pair] at accepted
      rw [addNegation_eq_some accepted]
      exact ⟨nothing _, rfl, nothing _, nothing _⟩
  | addTimeBasedAggregate t cs r w n f =>
      rw [addAggregate_eq_some accepted]
      exact ⟨nothing _, nothing _, rfl, nothing _⟩
  | addAggregateBetweenStates t cs i j now n f =>
      simp only [call, addAggregateBetweenStates, sorted_pair] at accepted
      rw [addAggregate_eq_some accepted]
      exact ⟨nothing _, nothing _, rfl, nothing _⟩
  | addParameterBetweenStates i n j m =>
      simp only [call, addParameterBetweenStates] at accepted
      split at accepted
      · rw [(addParameter_exists accepted).1]
        exact ⟨nothing _, nothing _, nothing _, nothing _⟩
      · rw [(addParameter_exists accepted).1]
        exact ⟨nothing _, nothing _, nothing _, nothing _⟩
  | addParameterForNegation i n j m =>
      rw [(addParameter_exists accepted).1]
      exact ⟨nothing _, nothing _, nothing _, nothing _⟩
  | addParameterForAggregate i n j m =>
      rw [(addParameter_exists accepted).1]
      exact ⟨nothing _, nothing _, nothing _, nothing _⟩
  | addComplexParameter o v l r =>
      rw [(addComplexParameterWith_some accepted).1]
      exact ⟨nothing _, nothing _, nothing _, rfl⟩
  | addComplexParameterForNegation o v l r =>
      rw [(addComplexParameterWith_some accepted).1]
      exact ⟨nothing _, nothing _, nothing _, rfl⟩
  | addComplexParameterForAggregate o v l r =>
      rw [(addComplexParameterWith_some accepted).1]
      exact ⟨nothing _, nothing _, nothing _, rfl⟩
  | addConsuming i =>
      simp only [call, addConsuming] at accepted
      split at accepted
      · cases accepted
      · cases accepted
        exact ⟨nothing _, nothing _, nothing _, nothing _⟩
  | setCompositeEventTemplate t =>
      cases accepted
      exact ⟨nothing _, nothing _, nothing _, nothing _⟩

/-! ## What a sequence of calls adds -/

/-- A list that every accepted call extends by what it adds holds in the end what all of them
add. -/
theorem calls_appends {α : Type} {get : RulePkt → List α} {piece : BuilderCall → Option α}
    (step : ∀ {pkt pkt' : RulePkt} {b : BuilderCall}, pkt.call b = some pkt' →
      get pkt' = get pkt ++ (piece b).toList) (pkt : RulePkt) (bs : List BuilderCall) :
    get (pkt.calls bs) = get pkt ++ (pkt.accepted bs).filterMap piece := by
  induction bs generalizing pkt with
  | nil => simp [calls, accepted]
  | cons b rest ih =>
      rw [calls, accepted, ih]
      cases answer : pkt.call b with
      | none => rfl
      | some pkt' =>
          rw [Option.getD_some, step answer, List.append_assoc, List.filterMap_cons]
          cases piece b <;> rfl

/-- A property that every accepted call adds a condition to holds in the end if it held before and
all accepted calls meet their conditions. -/
theorem calls_iff {P : RulePkt → Prop} {Q : BuilderCall → Prop}
    (step : ∀ {pkt pkt' : RulePkt} {b : BuilderCall}, pkt.call b = some pkt' →
      (P pkt' ↔ P pkt ∧ Q b)) (pkt : RulePkt) (bs : List BuilderCall) :
    P (pkt.calls bs) ↔ P pkt ∧ ∀ b ∈ pkt.accepted bs, Q b := by
  induction bs generalizing pkt with
  | nil => simp [calls, accepted]
  | cons b rest ih =>
      rw [calls, accepted, ih]
      cases answer : pkt.call b with
      | none => rfl
      | some pkt' => simp [step answer, and_assoc]

theorem call_size {b : BuilderCall} (accepted : pkt.call b = some pkt') (type : StateType) :
    pkt'.size type = pkt.size type + if b.adds = some type then 1 else 0 := by
  have appends := call_appends accepted
  cases type with
  | state =>
      rw [size, appends.predicates, List.length_append, size]
      cases b <;> rfl
  | neg =>
      rw [size, appends.negations, List.length_append, size]
      cases b <;> rfl
  | agg =>
      rw [size, appends.aggregates, List.length_append, size]
      cases b <;> rfl

theorem calls_size (pkt : RulePkt) (bs : List BuilderCall) (type : StateType) :
    (pkt.calls bs).size type = pkt.size type + added (pkt.accepted bs) type := by
  induction bs generalizing pkt with
  | nil => rfl
  | cons b rest ih =>
      rw [calls, accepted, ih]
      cases answer : pkt.call b with
      | none => rfl
      | some pkt' =>
          have counted : added (b :: pkt'.accepted rest) type =
              added (pkt'.accepted rest) type + if b.adds = some type then 1 else 0 := by
            simp only [added, List.countP_cons, decide_eq_true_eq]
          simp only [Option.getD_some, call_size answer, counted]
          omega

/-! ## References -/

theorem refersBack_snoc {p : Predicate} (nonempty : 0 < pkt.predicates.length) :
    RefersBack { pkt with predicates := pkt.predicates ++ [p] } ↔
      pkt.RefersBack ∧ 0 ≤ p.refersTo ∧ p.refersTo < (pkt.predicates.length : Int) := by
  constructor
  · intro back
    refine ⟨fun i q lookup pos => ?_, ?_⟩
    · have lt := (List.getElem?_eq_some_iff.mp lookup).1
      exact back i q ((List.getElem?_append_left lt).trans lookup) pos
    · exact back pkt.predicates.length p List.getElem?_concat_length nonempty
  · rintro ⟨back, new⟩ i q lookup pos
    rcases Nat.lt_or_ge i pkt.predicates.length with lt | ge
    · exact back i q ((List.getElem?_append_left lt).symm.trans lookup) pos
    · have lt := (List.getElem?_eq_some_iff.mp lookup).1
      simp only [List.length_append, List.length_singleton] at lt
      have last : i = pkt.predicates.length := by omega
      subst last
      cases List.getElem?_concat_length.symm.trans lookup
      exact new

/-- An accepted call keeps the references to earlier states unless it brings a negative one. -/
theorem call_refersBack {b : BuilderCall} (accepted : pkt.call b = some pkt') :
    pkt'.RefersBack ↔ pkt.RefersBack ∧ b.ReferenceNonneg := by
  have same : b.predicate? = none → (pkt'.RefersBack ↔ pkt.RefersBack) := by
    intro none
    have predicates := (call_appends accepted).predicates
    rw [none, Option.toList_none, List.append_nil] at predicates
    rw [RefersBack, RefersBack, predicates]
  cases b with
  | addRootPredicate t cs =>
      simp only [call, addRootPredicate] at accepted
      split at accepted
      · cases accepted
      case isFalse empty =>
        cases accepted
        have none : pkt.predicates = [] := List.length_eq_zero_iff.mp (by omega)
        have single : ∀ (i : Nat) (q : Predicate) {ps : List Predicate}, ps.length ≤ 1 →
            ps[i]? = some q → ¬ 1 ≤ i := by
          intro i q ps short lookup pos
          have := (List.getElem?_eq_some_iff.mp lookup).1
          omega
        constructor
        · intro _
          refine ⟨fun i q lookup pos => ?_, trivial⟩
          exact absurd pos (single i q (by simp [none]) lookup)
        · intro _ i q lookup pos
          exact absurd pos (single i q (by simp [none]) lookup)
  | addPredicate t cs r w k =>
      simp only [call, addPredicate] at accepted
      split at accepted
      · cases accepted
      case isFalse checked =>
        cases accepted
        rw [refersBack_snoc (by omega)]
        apply and_congr_right
        intro _
        simp only [BuilderCall.ReferenceNonneg]
        omega
  | _ => simp [same rfl, BuilderCall.ReferenceNonneg]

/-! ## What the checks establish -/

theorem Exists.mono {type : StateType} {index : Int} (le : pkt.size type ≤ pkt'.size type)
    (exist : pkt.Exists type index) : pkt'.Exists type index := by
  obtain ⟨nonneg, lt⟩ := exist
  exact ⟨nonneg, by omega⟩

/-- The simple parameters name existing elements. -/
def ParametersExist (pkt : RulePkt) : Prop :=
  ∀ par ∈ pkt.parameters, pkt.Exists .state par.evIndex1 ∧ pkt.Exists par.type par.evIndex2

theorem ParametersExist.call {b : BuilderCall} (exist : pkt.ParametersExist)
    (accepted : pkt.call b = some pkt') : pkt'.ParametersExist := by
  have grows : ∀ type, pkt.size type ≤ pkt'.size type := by
    intro type
    rw [call_size accepted]
    exact Nat.le_add_right _ _
  have new : ∀ par ∈ b.parameter?, pkt.Exists .state par.evIndex1 ∧
      pkt.Exists par.type par.evIndex2 := by
    intro par mem
    cases b with
    | addParameterBetweenStates i n j m =>
        simp only [RulePkt.call, addParameterBetweenStates] at accepted
        simp only [BuilderCall.parameter?] at mem
        split at accepted
        case isTrue lt =>
          rw [if_pos lt, Option.mem_some_iff] at mem
          exact mem ▸ (addParameter_exists accepted).2
        case isFalse ge =>
          rw [if_neg ge, Option.mem_some_iff] at mem
          exact mem ▸ (addParameter_exists accepted).2
    | addParameterForNegation i n j m =>
        cases mem
        exact (addParameter_exists accepted).2
    | addParameterForAggregate i n j m =>
        cases mem
        exact (addParameter_exists accepted).2
    | _ => cases mem
  intro par mem
  rw [call_parameters accepted] at mem
  rcases List.mem_append.mp mem with old | added
  · exact ⟨(exist par old).1.mono (grows _), (exist par old).2.mono (grows _)⟩
  · have found := new par (Option.mem_toList.mp added)
    exact ⟨found.1.mono (grows _), found.2.mono (grows _)⟩

/-- Negations and aggregates that come from builder calls have a time span or ordered bounds. -/
theorem spans_of_inBounds {lowerId upperId : Int}
    (bounds : InBounds pkt.predicates.length lowerId upperId)
    (ordered : lowerId = -1 ∨ upperId ≤ lowerId) : pkt.Spans lowerId upperId := by
  obtain ⟨nonneg, upper, lower, -⟩ := bounds
  refine ⟨⟨nonneg, upper⟩, ?_⟩
  rcases ordered with timed | le
  · exact .inl timed
  · exact .inr ⟨by omega, lower⟩

theorem ordered_of_negation? {b : BuilderCall} {n : Negation} (adds : b.negation? = some n) :
    n.lowerId = -1 ∨ n.upperId ≤ n.lowerId := by
  cases b with
  | addTimeBasedNegation t cs r w =>
      cases adds
      exact .inl rfl
  | addNegationBetweenStates t cs i j now =>
      cases adds
      exact .inr min_le_max
  | _ => cases adds

theorem ordered_of_aggregate? {b : BuilderCall} {a : Aggregate} (adds : b.aggregate? = some a) :
    a.lowerId = -1 ∨ a.upperId ≤ a.lowerId := by
  cases b with
  | addTimeBasedAggregate t cs r w n f =>
      cases adds
      exact .inl rfl
  | addAggregateBetweenStates t cs i j now n f =>
      cases adds
      exact .inr min_le_max
  | _ => cases adds

theorem Built.calls {pkt : RulePkt} (built : pkt.Built) (bs : List BuilderCall) :
    (pkt.calls bs).Built := by
  induction bs generalizing pkt with
  | nil => exact built
  | cons b rest ih =>
      rw [RulePkt.calls]
      cases answer : pkt.call b with
      | none => exact ih built
      | some pkt' => exact ih (.call b built answer)

theorem ParametersExist.calls (exist : pkt.ParametersExist) (bs : List BuilderCall) :
    (pkt.calls bs).ParametersExist := by
  induction bs generalizing pkt with
  | nil => exact exist
  | cons b rest ih =>
      rw [RulePkt.calls]
      cases answer : pkt.call b with
      | none => exact ih exist
      | some pkt' => exact ih (exist.call answer)

/-! ## The rules that the builder accepts -/

/-- The leaves of the complex parameters are those of the trees that the accepted calls bring. -/
theorem forall_refs_calls (pkt : RulePkt) (start : pkt.complexParameters = [])
    (bs : List BuilderCall) (P : OpValueReference → Prop) :
    (∀ par ∈ (pkt.calls bs).complexParameters, ∀ ref ∈ par.refs, P ref) ↔
      ∀ b ∈ pkt.accepted bs, ∀ ref ∈ b.refs, P ref := by
  have parameters :=
    calls_appends (fun accepted => (call_appends accepted).complexParameters) pkt bs
  rw [parameters, start, List.nil_append]
  constructor
  · intro holds b mem ref inRefs
    cases brings : b.complexParameter? with
    | none => simp [BuilderCall.refs, brings] at inRefs
    | some par =>
        rw [BuilderCall.refs, brings] at inRefs
        exact holds par (List.mem_filterMap.mpr ⟨b, mem, brings⟩) ref inRefs
  · intro holds par mem ref inRefs
    obtain ⟨b, inCalls, brings⟩ := List.mem_filterMap.mp mem
    refine holds b inCalls ref ?_
    rw [BuilderCall.refs, brings]
    exact inRefs

/-- The rule that any sequence of builder calls leaves, refused calls changing nothing, is well
formed exactly when the accepted calls are careful. -/
theorem calls_wellFormed_iff (resetCount : Bool) (lastId : Nat) (bs : List BuilderCall) :
    ((RulePkt.new resetCount lastId).1.calls bs).WellFormed ↔
      Careful ((RulePkt.new resetCount lastId).1.accepted bs) := by
  have built : ((RulePkt.new resetCount lastId).1.calls bs).Built :=
    (Built.new resetCount lastId).calls bs
  have exist : ((RulePkt.new resetCount lastId).1.calls bs).ParametersExist :=
    ParametersExist.calls (fun par mem => by cases mem) bs
  have bounded := built.bounded
  have size : ((RulePkt.new resetCount lastId).1.calls bs).size =
      added ((RulePkt.new resetCount lastId).1.accepted bs) := by
    funext type
    rw [calls_size]
    cases type <;> exact Nat.zero_add _
  have back : ((RulePkt.new resetCount lastId).1.calls bs).RefersBack ↔
      ∀ b ∈ (RulePkt.new resetCount lastId).1.accepted bs, b.ReferenceNonneg := by
    rw [calls_iff call_refersBack]
    exact and_iff_right fun i p lookup => by cases lookup
  have refs := forall_refs_calls (RulePkt.new resetCount lastId).1 rfl bs
  have negations := calls_appends (fun accepted => (call_appends accepted).negations)
    (RulePkt.new resetCount lastId).1 bs
  have aggregates := calls_appends (fun accepted => (call_appends accepted).aggregates)
    (RulePkt.new resetCount lastId).1 bs
  constructor
  · intro wellFormed
    refine ⟨back.mp wellFormed.refersTo, fun type => size ▸ wellFormed.few type, ?_⟩
    rw [← size]
    exact (refs _).mp wellFormed.complexParameters
  · intro careful
    refine ⟨bounded.root, back.mpr careful.reference, fun type => size ▸ careful.few type, ?_, ?_,
      exist, ?_, fun i mem => ⟨by omega, by exact_mod_cast bounded.consuming i mem⟩⟩
    · intro n mem
      refine spans_of_inBounds (bounded.negations n mem) ?_
      rw [negations] at mem
      obtain ⟨b, -, adds⟩ := List.mem_filterMap.mp mem
      exact ordered_of_negation? adds
    · intro a mem
      refine spans_of_inBounds (bounded.aggregates a mem) ?_
      rw [aggregates] at mem
      obtain ⟨b, -, adds⟩ := List.mem_filterMap.mp mem
      exact ordered_of_aggregate? adds
    · rw [refs, size]
      exact careful.trees

/-- A second root is accepted. -/
theorem two_roots_accepted :
    ¬ ∀ bs : List BuilderCall, ((RulePkt.new true 0).1.calls bs).WellFormed := by
  intro all
  have wellFormed := all [.addRootPredicate 1 [], .addPredicate 2 [] (-1) 10 .eachWithin]
  have later := wellFormed.refersTo 1
    { eventType := 2, constraints := [], refersTo := -1, win := 10, kind := .eachWithin } rfl le_rfl
  exact absurd later.1 (by decide)

end RulePkt

end TRex
