import TRex.Lib.Appending
import TRex.RuleBuilding

/-!
# Received rules, whole or in part

`Unmarshaller::decodeRulePkt` rebuilds a rule from what it has read, but nothing looks at what the
builder returns. `WireRule` is what was read, element by element and before any map drops a repeated
key; `installed_whole_iff` says for which of these the rule that comes out has every element at its
index.
-/

namespace TRex

open Wire Appending

deriving instance DecidableEq for ComplexParameter

/-- The elements of a rule with their indexes, in the order of the body. -/
structure WireRule where
  predicates : List (Int × Predicate)
  parameters : List (Int × ComplexParameter)
  aggregates : List (Int × Aggregate)
  negations : List (Int × Negation)
  template : CompositeEventTemplate
  consuming : List Int
  deriving DecidableEq

namespace Unmarshaller

/-! ## Reading before building -/

def readEntries {α : Type} (decode : Decoder α) : Decoder (List (Int × α)) := do
  let num ← decodeInt
  times (do
    let key ← decodeInt
    let value ← decode
    return (key, value)) num.toNat

def readIndexes : Decoder (List Int) := do
  let num ← decodeInt
  times decodeInt num.toNat

/-- The first half of `decodeRulePkt`. -/
def readRule (pad : Nat) (junk : Constraint) : Decoder WireRule := do
  let predicates ← readEntries (decodeEventPredicate junk)
  let parameters ← readEntries (decodeParameter pad)
  let aggregates ← readEntries (decodeAggregate junk)
  let negations ← readEntries (decodeNegation junk)
  let template ← decodeEventTemplate pad
  let consuming ← readIndexes
  return { predicates, parameters, aggregates, negations, template, consuming }

/-- The second half. -/
def install (now lastId : Nat) (wire : WireRule) : RulePkt :=
  buildRulePkt now lastId (mapOf wire.predicates) (mapOf wire.parameters) (mapOf wire.aggregates)
    (mapOf wire.negations) wire.template (wire.consuming.foldl (fun s e => OrdSet.insert e s) [])

theorem decodeMap_eq {α : Type} (decode : Decoder α) :
    decodeMap decode = do return mapOf (← readEntries decode) := by
  unfold decodeMap readEntries
  rw [bind_assoc]
  rfl

theorem decodeIntSet_eq :
    decodeIntSet = do return (← readIndexes).foldl (fun s e => OrdSet.insert e s) [] := by
  unfold decodeIntSet readIndexes
  rw [bind_assoc]

theorem decodeRulePkt_eq (now pad lastId : Nat) (junk : Constraint) :
    decodeRulePkt now pad lastId junk = do return install now lastId (← readRule pad junk) := by
  unfold decodeRulePkt readRule
  simp only [decodeMap_eq, decodeIntSet_eq, bind_assoc, pure_bind]
  rfl

/-! ## The loops -/

section Loops

variable (now : Nat)

theorem appends_predicates :
    Appends addPredicate RulePkt.predicates placedPredicate PredicateAccepted fun _ => True := by
  refine ⟨fun _ _ => trivial, ?_, ?_⟩
  · intro pkt it _ accepted
    rw [addPredicate_spec, if_pos accepted]
  · intro pkt it _ refused
    rw [addPredicate_spec, if_neg refused]

theorem appends_aggregates (n : Nat) :
    Appends (addAggregate now) RulePkt.aggregates (fun it => placedAggregate now it.2)
      (fun _ it => BoundsAccepted n it.2.lowerId it.2.upperId)
      fun pkt => pkt.predicates.length = n := by
  refine ⟨?_, ?_, ?_⟩
  · intro pkt it size
    rw [addAggregate_spec]
    split <;> exact size
  · intro pkt it size accepted
    rw [addAggregate_spec, size, if_pos accepted]
  · intro pkt it size refused
    rw [addAggregate_spec, size, if_neg refused]

theorem appends_negations (n : Nat) :
    Appends (addNegation now) RulePkt.negations (fun it => placedNegation now it.2)
      (fun _ it => BoundsAccepted n it.2.lowerId it.2.upperId)
      fun pkt => pkt.predicates.length = n := by
  refine ⟨?_, ?_, ?_⟩
  · intro pkt it size
    rw [addNegation_spec]
    split <;> exact size
  · intro pkt it size accepted
    rw [addNegation_spec, size, if_pos accepted]
  · intro pkt it size refused
    rw [addNegation_spec, size, if_neg refused]

theorem appends_parameters :
    Appends addParameter RulePkt.complexParameters (fun it => placedParameter it.2)
      (fun _ it => ParameterAccepted it.2) fun _ => True := by
  refine ⟨fun _ _ => trivial, ?_, ?_⟩
  · intro pkt it _ accepted
    rw [addParameter_spec, if_pos accepted]
  · intro pkt it _ refused
    rw [addParameter_spec, if_neg refused]

/-! Each loop changes one member of the packet. -/

theorem only_predicates (its : List (Int × Predicate)) (pkt : RulePkt) :
    ({ its.foldl addPredicate pkt with predicates := [] } : RulePkt) =
      { pkt with predicates := [] } := by
  have one : ∀ (pkt : RulePkt) (it : Int × Predicate),
      ({ addPredicate pkt it with predicates := [] } : RulePkt) =
        { pkt with predicates := [] } := by
    intro pkt it
    rw [addPredicate_spec]
    split <;> rfl
  exact foldl_keeps (fun pkt => { pkt with predicates := [] }) one its pkt

theorem only_aggregates (its : List (Int × Aggregate)) (pkt : RulePkt) :
    ({ its.foldl (addAggregate now) pkt with aggregates := [] } : RulePkt) =
      { pkt with aggregates := [] } := by
  have one : ∀ (pkt : RulePkt) (it : Int × Aggregate),
      ({ addAggregate now pkt it with aggregates := [] } : RulePkt) =
        { pkt with aggregates := [] } := by
    intro pkt it
    rw [addAggregate_spec]
    split <;> rfl
  exact foldl_keeps (fun pkt => { pkt with aggregates := [] }) one its pkt

theorem only_negations (its : List (Int × Negation)) (pkt : RulePkt) :
    ({ its.foldl (addNegation now) pkt with negations := [] } : RulePkt) =
      { pkt with negations := [] } := by
  have one : ∀ (pkt : RulePkt) (it : Int × Negation),
      ({ addNegation now pkt it with negations := [] } : RulePkt) =
        { pkt with negations := [] } := by
    intro pkt it
    rw [addNegation_spec]
    split <;> rfl
  exact foldl_keeps (fun pkt => { pkt with negations := [] }) one its pkt

theorem only_parameters (its : List (Int × ComplexParameter)) (pkt : RulePkt) :
    ({ its.foldl addParameter pkt with complexParameters := [] } : RulePkt) =
      { pkt with complexParameters := [] } := by
  have one : ∀ (pkt : RulePkt) (it : Int × ComplexParameter),
      ({ addParameter pkt it with complexParameters := [] } : RulePkt) =
        { pkt with complexParameters := [] } := by
    intro pkt it
    rw [addParameter_spec]
    split <;> rfl
  exact foldl_keeps (fun pkt => { pkt with complexParameters := [] }) one its pkt

theorem only_consuming (indexes : List Int) (pkt : RulePkt) :
    ({ indexes.foldl addConsuming pkt with consuming := [] } : RulePkt) =
      { pkt with consuming := [] } := by
  have one : ∀ (pkt : RulePkt) (i : Int),
      ({ addConsuming pkt i with consuming := [] } : RulePkt) = { pkt with consuming := [] } := by
    intro pkt i
    rw [addConsuming_spec]
    split <;> rfl
  exact foldl_keeps (fun pkt => { pkt with consuming := [] }) one indexes pkt

theorem mem_foldl_addConsuming {indexes : List Int} {pkt : RulePkt} {i : Nat} :
    i ∈ (indexes.foldl addConsuming pkt).consuming ↔
      i ∈ pkt.consuming ∨ (i : Int) ∈ indexes ∧ i < pkt.predicates.length := by
  induction indexes generalizing pkt with
  | nil => simp
  | cons j rest ih =>
      rw [List.foldl_cons, ih, addConsuming_spec, List.mem_cons]
      by_cases inRange : 0 ≤ j ∧ j < pkt.predicates.length
      · have same : i = j.toNat ↔ (i : Int) = j := by omega
        rw [if_pos inRange]
        simp only [List.mem_insert_iff, same]
        constructor
        · intro mem
          rcases mem with (rfl | old) | later
          · exact .inr ⟨.inl rfl, by omega⟩
          · exact .inl old
          · exact .inr ⟨.inr later.1, later.2⟩
        · intro mem
          rcases mem with old | ⟨rfl | later, less⟩
          · exact .inl (.inr old)
          · exact .inl (.inl rfl)
          · exact .inr ⟨later, less⟩
      · have other : (i : Int) = j → ¬ i < pkt.predicates.length := by omega
        rw [if_neg inRange]
        constructor
        · intro mem
          rcases mem with old | later
          · exact .inl old
          · exact .inr ⟨.inr later.1, later.2⟩
        · intro mem
          rcases mem with old | ⟨same | later, less⟩
          · exact .inl old
          · exact absurd less (other same)
          · exact .inr ⟨later, less⟩

end Loops

/-! ## The packet after each loop -/

section Stages

variable (now lastId : Nat) (wire : WireRule)

def withPredicates : RulePkt :=
  (mapOf wire.predicates).foldl addPredicate (RulePkt.new false lastId).1

def withAggregates : RulePkt :=
  (mapOf wire.aggregates).foldl (addAggregate now) (withPredicates lastId wire)

def withNegations : RulePkt :=
  (mapOf wire.negations).foldl (addNegation now) (withAggregates now lastId wire)

def withParameters : RulePkt :=
  (mapOf wire.parameters).foldl addParameter (withNegations now lastId wire)

theorem only_install : ({ install now lastId wire with consuming := [] } : RulePkt) =
    { withParameters now lastId wire with
      ceTemplate := some wire.template, consuming := [] } :=
  only_consuming _ _

theorem withAggregates_predicates :
    (withAggregates now lastId wire).predicates = (withPredicates lastId wire).predicates := by
  have kept := only_aggregates now (mapOf wire.aggregates) (withPredicates lastId wire)
  have same := congrArg RulePkt.predicates kept
  exact same

theorem withNegations_predicates :
    (withNegations now lastId wire).predicates = (withPredicates lastId wire).predicates := by
  have kept := only_negations now (mapOf wire.negations) (withAggregates now lastId wire)
  rw [← withAggregates_predicates now]
  have same := congrArg RulePkt.predicates kept
  exact same

theorem withParameters_predicates :
    (withParameters now lastId wire).predicates = (withPredicates lastId wire).predicates := by
  have kept := only_parameters (mapOf wire.parameters) (withNegations now lastId wire)
  rw [← withNegations_predicates now]
  have same := congrArg RulePkt.predicates kept
  exact same

theorem install_predicates :
    (install now lastId wire).predicates = (withPredicates lastId wire).predicates := by
  rw [← withParameters_predicates now]
  have kept := congrArg RulePkt.predicates (only_install now lastId wire)
  exact kept

theorem install_aggregates :
    (install now lastId wire).aggregates = (withAggregates now lastId wire).aggregates := by
  have negations := congrArg RulePkt.aggregates
    (only_negations now (mapOf wire.negations) (withAggregates now lastId wire))
  have parameters := congrArg RulePkt.aggregates
    (only_parameters (mapOf wire.parameters) (withNegations now lastId wire))
  have kept := congrArg RulePkt.aggregates (only_install now lastId wire)
  exact kept.trans (parameters.trans negations)

theorem install_negations :
    (install now lastId wire).negations = (withNegations now lastId wire).negations := by
  have parameters := congrArg RulePkt.negations
    (only_parameters (mapOf wire.parameters) (withNegations now lastId wire))
  have kept := congrArg RulePkt.negations (only_install now lastId wire)
  exact kept.trans parameters

theorem install_parameters : (install now lastId wire).complexParameters =
    (withParameters now lastId wire).complexParameters := by
  have kept := congrArg RulePkt.complexParameters (only_install now lastId wire)
  exact kept

theorem withPredicates_aggregates : (withPredicates lastId wire).aggregates = [] := by
  have kept := congrArg RulePkt.aggregates
    (only_predicates (mapOf wire.predicates) (RulePkt.new false lastId).1)
  exact kept

theorem withAggregates_negations : (withAggregates now lastId wire).negations = [] := by
  have predicates := congrArg RulePkt.negations
    (only_predicates (mapOf wire.predicates) (RulePkt.new false lastId).1)
  have kept := congrArg RulePkt.negations
    (only_aggregates now (mapOf wire.aggregates) (withPredicates lastId wire))
  exact kept.trans predicates

theorem withNegations_parameters : (withNegations now lastId wire).complexParameters = [] := by
  have predicates := congrArg RulePkt.complexParameters
    (only_predicates (mapOf wire.predicates) (RulePkt.new false lastId).1)
  have aggregates := congrArg RulePkt.complexParameters
    (only_aggregates now (mapOf wire.aggregates) (withPredicates lastId wire))
  have kept := congrArg RulePkt.complexParameters
    (only_negations now (mapOf wire.negations) (withAggregates now lastId wire))
  exact kept.trans (aggregates.trans predicates)

theorem withParameters_consuming : (withParameters now lastId wire).consuming = [] := by
  have predicates := congrArg RulePkt.consuming
    (only_predicates (mapOf wire.predicates) (RulePkt.new false lastId).1)
  have aggregates := congrArg RulePkt.consuming
    (only_aggregates now (mapOf wire.aggregates) (withPredicates lastId wire))
  have negations := congrArg RulePkt.consuming
    (only_negations now (mapOf wire.negations) (withAggregates now lastId wire))
  have kept := congrArg RulePkt.consuming
    (only_parameters (mapOf wire.parameters) (withNegations now lastId wire))
  exact kept.trans (negations.trans (aggregates.trans predicates))

theorem mem_install_consuming {i : Nat} : i ∈ (install now lastId wire).consuming ↔
    (i : Int) ∈ wire.consuming ∧ i < (install now lastId wire).predicates.length := by
  have added : ∀ pkt : RulePkt, pkt.consuming = [] →
      (i ∈ ((wire.consuming.foldl (fun s e => OrdSet.insert e s) []).foldl addConsuming
        pkt).consuming ↔ (i : Int) ∈ wire.consuming ∧ i < pkt.predicates.length) := by
    intro pkt empty
    rw [mem_foldl_addConsuming, empty, OrdSet.mem_foldl_insert]
    simp
  rw [install_predicates, ← withParameters_predicates now]
  exact added _ (withParameters_consuming now lastId wire)

end Stages

end Unmarshaller

open Unmarshaller

/-! ## Whole rules -/

/-- Every element that was read is in the packet, at its index and as the builder places it. -/
structure WireRule.InstalledWhole (wire : WireRule) (now : Nat) (pkt : RulePkt) : Prop where
  predicates : Whole placedPredicate wire.predicates pkt.predicates
  parameters : Whole (fun it => placedParameter it.2) wire.parameters pkt.complexParameters
  aggregates : Whole (fun it => placedAggregate now it.2) wire.aggregates pkt.aggregates
  negations : Whole (fun it => placedNegation now it.2) wire.negations pkt.negations
  consuming : ∀ i ∈ wire.consuming, 0 ≤ i ∧ i.toNat ∈ pkt.consuming

/-- Indexes are 0, 1, …, every state but the root refers to an earlier one or to a negative index,
bounds and consumed states exist, and every parameter refers to an element of its kind. -/
structure WireRule.Acceptable (wire : WireRule) : Prop where
  predicateKeys : Keyed wire.predicates
  parameterKeys : Keyed wire.parameters
  aggregateKeys : Keyed wire.aggregates
  negationKeys : Keyed wire.negations
  refersTo : ∀ it ∈ wire.predicates, it.1 ≠ 0 → it.2.refersTo < it.1
  parameters : ∀ it ∈ wire.parameters, ParameterAccepted it.2
  aggregates : ∀ it ∈ wire.aggregates,
    BoundsAccepted wire.predicates.length it.2.lowerId it.2.upperId
  negations : ∀ it ∈ wire.negations,
    BoundsAccepted wire.predicates.length it.2.lowerId it.2.upperId
  consuming : ∀ i ∈ wire.consuming, 0 ≤ i ∧ i < wire.predicates.length

/-- A rule that is not installed whole is not installed. -/
def WireRule.WholeOrRejected (wire : WireRule) (now pad lastId : Nat) (junk : Constraint)
    (body : Bytes) : Prop :=
  ∀ pkt rest, decodeRulePkt now pad lastId junk body = some (pkt, rest) →
    wire.InstalledWhole now pkt

section Install

variable (now lastId : Nat) (wire : WireRule)

theorem predicateAccepted_iff {it : Int × Predicate} (nonneg : 0 ≤ it.1) :
    PredicateAccepted it.1.toNat it ↔ (it.1 ≠ 0 → it.2.refersTo < it.1) := by
  unfold PredicateAccepted
  split
  · omega
  · omega

theorem whole_predicates_iff :
    Whole placedPredicate wire.predicates (install now lastId wire).predicates ↔
      Keyed wire.predicates ∧ ∀ it ∈ wire.predicates, it.1 ≠ 0 → it.2.refersTo < it.1 := by
  rw [install_predicates]
  refine (whole_iff appends_predicates trivial rfl wire.predicates).trans ?_
  refine and_congr_right fun keyed => forall₂_congr fun it mem => ?_
  exact predicateAccepted_iff (keyed.getElem? mem).1

theorem whole_parameters_iff :
    Whole (fun it => placedParameter it.2) wire.parameters
        (install now lastId wire).complexParameters ↔
      Keyed wire.parameters ∧ ∀ it ∈ wire.parameters, ParameterAccepted it.2 := by
  rw [install_parameters]
  exact whole_iff appends_parameters trivial (withNegations_parameters now lastId wire) _

theorem whole_aggregates_iff :
    Whole (fun it => placedAggregate now it.2) wire.aggregates
        (install now lastId wire).aggregates ↔
      Keyed wire.aggregates ∧ ∀ it ∈ wire.aggregates,
        BoundsAccepted (install now lastId wire).predicates.length it.2.lowerId it.2.upperId := by
  rw [install_aggregates, install_predicates]
  exact whole_iff (appends_aggregates now _) rfl (withPredicates_aggregates lastId wire) _

theorem whole_negations_iff :
    Whole (fun it => placedNegation now it.2) wire.negations
        (install now lastId wire).negations ↔
      Keyed wire.negations ∧ ∀ it ∈ wire.negations,
        BoundsAccepted (install now lastId wire).predicates.length it.2.lowerId it.2.upperId := by
  rw [install_negations, install_predicates, ← withAggregates_predicates now]
  exact whole_iff (appends_negations now _) rfl (withAggregates_negations now lastId wire) _

theorem install_consuming_iff :
    (∀ i ∈ wire.consuming, 0 ≤ i ∧ i.toNat ∈ (install now lastId wire).consuming) ↔
      ∀ i ∈ wire.consuming, 0 ≤ i ∧ i < (install now lastId wire).predicates.length := by
  refine forall₂_congr fun i mem => and_congr_right fun nonneg => ?_
  rw [mem_install_consuming, Int.toNat_of_nonneg nonneg]
  constructor
  · intro both
    omega
  · intro less
    exact ⟨mem, by omega⟩

/-- The builder's checks on what was read. -/
theorem installedWhole_iff :
    wire.InstalledWhole now (install now lastId wire) ↔ wire.Acceptable := by
  constructor
  · intro whole
    obtain ⟨predicateKeys, refersTo⟩ := (whole_predicates_iff now lastId wire).mp whole.predicates
    obtain ⟨parameterKeys, parameters⟩ :=
      (whole_parameters_iff now lastId wire).mp whole.parameters
    obtain ⟨aggregateKeys, aggregates⟩ :=
      (whole_aggregates_iff now lastId wire).mp whole.aggregates
    obtain ⟨negationKeys, negations⟩ := (whole_negations_iff now lastId wire).mp whole.negations
    have consuming := (install_consuming_iff now lastId wire).mp whole.consuming
    rw [whole.predicates.1] at aggregates negations consuming
    exact ⟨predicateKeys, parameterKeys, aggregateKeys, negationKeys, refersTo, parameters,
      aggregates, negations, consuming⟩
  · intro acceptable
    have predicates := (whole_predicates_iff now lastId wire).mpr
      ⟨acceptable.predicateKeys, acceptable.refersTo⟩
    refine ⟨predicates, ?_, ?_, ?_, ?_⟩
    · exact (whole_parameters_iff now lastId wire).mpr
        ⟨acceptable.parameterKeys, acceptable.parameters⟩
    · apply (whole_aggregates_iff now lastId wire).mpr
      rw [predicates.1]
      exact ⟨acceptable.aggregateKeys, acceptable.aggregates⟩
    · apply (whole_negations_iff now lastId wire).mpr
      rw [predicates.1]
      exact ⟨acceptable.negationKeys, acceptable.negations⟩
    · apply (install_consuming_iff now lastId wire).mpr
      rw [predicates.1]
      exact acceptable.consuming

end Install

/-- A rule whose body is read is installed whole or rejected if and only if the builder accepts
every element at its index: nothing is ever rejected once it is read. -/
theorem whole_or_rejected_iff (now pad lastId : Nat) (junk : Constraint) (body rest : Bytes)
    (wire : WireRule) (read : readRule pad junk body = some (wire, rest)) :
    wire.WholeOrRejected now pad lastId junk body ↔ wire.Acceptable := by
  have decoded : decodeRulePkt now pad lastId junk body =
      some (install now lastId wire, rest) := by
    rw [decodeRulePkt_eq]
    exact bind_eq_some.mpr ⟨wire, rest, read, rfl⟩
  rw [← installedWhole_iff now lastId wire]
  constructor
  · intro wholeOrRejected
    exact wholeOrRejected _ _ decoded
  · intro whole pkt rest' decoded'
    rw [decoded] at decoded'
    cases decoded'
    exact whole

/-- A predicate with its index: no constraints, the last event within 9 ms. -/
def wirePredicate (key eventType refersTo : Int) : Bytes :=
  Marshaller.encodeInt key ++ Marshaller.encodeInt eventType ++ [0, 0, 0, 0] ++
    Marshaller.encodeInt refersTo ++ [0, 0, 0, 0, 0, 0, 0, 9, 2]

/-- Predicates alone, for composite events of type 10. -/
def wireBody (predicates : List Bytes) : Bytes :=
  Marshaller.encodeInt predicates.length ++ predicates.flatten ++ List.replicate 12 0 ++
    [0, 0, 0, 10] ++ List.replicate 12 0

/-- State 1 refers to itself. -/
def selfReferringBody : Bytes :=
  wireBody [wirePredicate 0 1 (-1), wirePredicate 1 2 1, wirePredicate 2 3 0]

/-- State 1 is dropped and state 2 takes its place. -/
theorem selfReferring_shifted :
    ∃ wire rest, readRule 0 Java.hot selfReferringBody = some (wire, rest) ∧
      ¬ wire.WholeOrRejected 5 0 0 Java.hot selfReferringBody := by
  have sizes : (readRule 0 Java.hot selfReferringBody).map (fun x => x.1.predicates.length) =
      some 3 := by decide +kernel
  have installed : (decodeRulePkt 5 0 0 Java.hot selfReferringBody).map
      (fun x => x.1.predicates.map Predicate.eventType) = some [1, 3] := by decide +kernel
  obtain ⟨⟨wire, rest⟩, read, three⟩ := Option.map_eq_some_iff.mp sizes
  obtain ⟨⟨pkt, rest'⟩, decoded, types⟩ := Option.map_eq_some_iff.mp installed
  refine ⟨wire, rest, read, fun whole => ?_⟩
  have length := (whole pkt rest' decoded).predicates.1
  have two := congrArg List.length types
  rw [List.length_map, length, three] at two
  exact absurd two (by decide)

def twoStatesBody : Bytes := wireBody [wirePredicate 1 2 0, wirePredicate 0 1 (-1)]

theorem twoStates_whole :
    ∃ wire rest, readRule 0 Java.hot twoStatesBody = some (wire, rest) ∧
      wire.WholeOrRejected 5 0 0 Java.hot twoStatesBody := by
  let wire : WireRule :=
    { predicates := [
        (1, { eventType := 2, constraints := [], refersTo := 0, win := 9, kind := .lastWithin }),
        (0, { eventType := 1, constraints := [], refersTo := -1, win := 9, kind := .lastWithin })]
      parameters := [], aggregates := [], negations := [], template := ⟨10, [], []⟩
      consuming := [] }
  have read : readRule 0 Java.hot twoStatesBody = some (wire, []) := by decide +kernel
  refine ⟨wire, [], read, (whole_or_rejected_iff 5 0 0 Java.hot _ _ _ read).mpr ?_⟩
  refine ⟨List.Perm.swap 0 1 [], .nil, .nil, .nil, ?_, ?_, ?_, ?_, ?_⟩
  · intro it mem
    rcases List.mem_pair.mp mem with rfl | rfl <;> decide
  all_goals exact fun it mem => nomatch mem

end TRex
