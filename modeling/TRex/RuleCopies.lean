import TRex.BuilderChecks
import TRex.TRexEngine

/-!
# Copies of rule packets

`RulePkt::copy` builds the predicates of the rule again and takes over its template. What it leaves
out, negations, aggregates, both kinds of parameters and the consuming set, the copy does not have.
-/

namespace TRex

/-! ## Detection without the id -/

namespace StacksRule

variable (r : StacksRule) (id : Nat)

def withId : StacksRule := { r with ruleId := id }

theorem winLoop_withId (st : Stacks) (index : Nat) (mode : CompKind) (pe : PartialEvent)
    (pkts : List PubPktPtr) (results : List PartialEvent) :
    (r.withId id).winLoop st index mode pe pkts results =
      r.winLoop st index mode pe pkts results := by
  induction pkts generalizing results with
  | nil => rfl
  | cons pkt rest ih =>
      rw [winLoop, winLoop, ih, ih]
      rfl

theorem getWinEvents_withId : (r.withId id).getWinEvents = r.getWinEvents := by
  funext st results index tsUp mode pe
  simp only [getWinEvents, winLoop_withId]
  rfl

theorem statesLoop_withId (st : Stacks) (states : List Nat) (pes : List PartialEvent) :
    (r.withId id).statesLoop st states pes = r.statesLoop st states pes := by
  induction states generalizing pes with
  | nil => rfl
  | cons state rest ih =>
      simp only [statesLoop, ih, extend, getWinEvents_withId]
      rfl

theorem computationWith_withId (clear : Stacks → Stacks) :
    (r.withId id).computationWith clear = r.computationWith clear := by
  have found : (r.withId id).getPartialResults = r.getPartialResults := by
    funext st pkt
    simp only [getPartialResults, statesLoop_withId]
    rfl
  funext st pkt
  simp only [computationWith, found]
  rfl

/-- What a rule detects does not depend on its id. -/
theorem computationsWith_withId (clear : Stacks → Stacks) (st : Stacks) (calls : List Call) :
    (r.withId id).computationsWith clear st calls = r.computationsWith clear st calls := by
  have step : (r.withId id).stepWith clear = r.stepWith clear := by
    funext st c
    cases c with
    | startComputation pkt =>
        exact congrArg (fun run => Computation.after (run st pkt))
          (r.computationWith_withId id clear)
    | _ => rfl
  induction calls generalizing st with
  | nil => rfl
  | cons c rest ih =>
      cases c with
      | startComputation pkt =>
          rw [computationsWith, computationsWith, ih, step, computationWith_withId]
      | _ => exact (ih _).trans (by rw [step]; rfl)

/-- The composite events that a run generates, computation by computation. -/
def detected (calls : List Call) : List (List PubPkt) :=
  (r.computationsWith r.clearStacks .initial calls).map Computation.results

theorem detected_withId (calls : List Call) : (r.withId id).detected calls = r.detected calls :=
  congrArg (List.map Computation.results)
    (r.computationsWith_withId id r.clearStacks .initial calls)

end StacksRule

namespace RulePkt

/-! ## Copies -/

/-- The two rules differ at most in their ids. -/
structure SameDefinition (pkt copy : RulePkt) : Prop where
  predicates : copy.predicates = pkt.predicates
  negations : copy.negations = pkt.negations
  aggregates : copy.aggregates = pkt.aggregates
  parameters : copy.parameters = pkt.parameters
  complexParameters : copy.complexParameters = pkt.complexParameters
  ceTemplate : copy.ceTemplate = pkt.ceTemplate
  consuming : copy.consuming = pkt.consuming

/-- There is a copy, defined as the rule is, and on every run it detects what the rule detects. -/
def CopiedExactly (pkt : RulePkt) (lastId : Nat) : Prop :=
  ∃ copy lastId', pkt.copy lastId = some (copy, lastId') ∧ pkt.SameDefinition copy ∧
    ∀ calls, (StacksRule.new copy).detected calls = (StacksRule.new pkt).detected calls

/-- The rule has a root and nothing but predicates and its template. -/
structure OnlyPredicates (pkt : RulePkt) : Prop where
  root : pkt.predicates ≠ []
  negations : pkt.negations = []
  aggregates : pkt.aggregates = []
  parameters : pkt.parameters = []
  complexParameters : pkt.complexParameters = []
  consuming : pkt.consuming = []

theorem SameDefinition.detected_eq {pkt copy : RulePkt} (same : pkt.SameDefinition copy)
    (calls : List Call) :
    (StacksRule.new copy).detected calls = (StacksRule.new pkt).detected calls := by
  have filed : StacksRule.parametersUnder copy = StacksRule.parametersUnder pkt := by
    funext type index
    rw [StacksRule.parametersUnder, StacksRule.parametersUnder, same.complexParameters]
  have new : StacksRule.new copy = (StacksRule.new pkt).withId copy.ruleId := by
    simp only [StacksRule.new, StacksRule.withId, filed, same.predicates, same.negations,
      same.aggregates, same.parameters, same.ceTemplate, same.consuming]
  rw [new, StacksRule.detected_withId]

/-- The builder makes the root with the values that `copy` takes for granted. -/
theorem Built.rootOnly {pkt : RulePkt} (built : pkt.Built) {root : Predicate}
    (first : pkt.predicates.head? = some root) :
    root.refersTo = -1 ∧ root.win = 0 ∧ root.kind = .eachWithin := by
  induction built with
  | new resetCount lastId => cases first
  | @call pkt pkt' b before accepted ih =>
      rw [(call_appends accepted).predicates, List.head?_append] at first
      rcases Option.or_eq_some_iff.mp first with old | ⟨none, new⟩
      · exact ih old
      · have empty : pkt.predicates.length = 0 :=
          List.length_eq_zero_iff.mpr (List.head?_eq_none_iff.mp none)
        cases b with
        | addRootPredicate eventType constraints =>
            cases new
            exact ⟨rfl, rfl, rfl⟩
        | addPredicate eventType constraints refersTo win kind =>
            -- without a root the call is refused
            rw [RulePkt.call, addPredicate, if_pos (.inl (by omega))] at accepted
            cases accepted
        | _ => cases new

/-- The loop of `copy`, each predicate referring to one before it. -/
theorem foldl_addPredicate_eq (rest : List Predicate) (copy : RulePkt)
    (nonempty : 0 < copy.predicates.length)
    (back : ∀ (i : Nat) (p : Predicate), rest[i]? = some p →
      p.refersTo < ((copy.predicates.length + i : Nat) : Int)) :
    rest.foldl (fun copy p =>
      (copy.addPredicate p.eventType p.constraints p.refersTo p.win p.kind).getD copy) copy =
        { copy with predicates := copy.predicates ++ rest } := by
  induction rest generalizing copy with
  | nil => rw [List.foldl_nil, List.append_nil]
  | cons p rest ih =>
      have less := back 0 p rfl
      have accepted : copy.addPredicate p.eventType p.constraints p.refersTo p.win p.kind =
          some { copy with predicates := copy.predicates ++ [p] } :=
        if_neg (by omega)
      rw [List.foldl_cons, accepted, Option.getD_some, ih, List.append_assoc, List.singleton_append]
      · rw [List.length_append]
        omega
      · intro i q found
        have less := back (i + 1) q found
        rw [List.length_append, List.length_singleton]
        omega

/-- The copy of a rule has its predicates and its template. -/
theorem Built.copy_eq {pkt : RulePkt} (built : pkt.Built) (nonempty : pkt.predicates ≠ [])
    (lastId : Nat) : pkt.copy lastId = some
      ({ (RulePkt.new false lastId).1 with
          predicates := pkt.predicates, ceTemplate := pkt.ceTemplate }, lastId + 1) := by
  obtain ⟨root, rest, preds⟩ := List.exists_cons_of_ne_nil nonempty
  obtain ⟨refersTo, win, kind⟩ := built.rootOnly (congrArg List.head? preds)
  have back : ∀ (i : Nat) (p : Predicate), rest[i]? = some p →
      p.refersTo < ((1 + i : Nat) : Int) := by
    intro i p found
    rcases built.bounded.refersTo (i + 1) p (preds ▸ found) with less | first
    · omega
    · omega
  have isRoot : (RulePkt.new false lastId).1.addRootPredicate root.eventType root.constraints =
      some { (RulePkt.new false lastId).1 with predicates := [root] } := by
    cases root
    simp only at refersTo win kind
    subst refersTo win kind
    rfl
  have loops : pkt.copy lastId = some ({ rest.foldl (fun copy p =>
      (copy.addPredicate p.eventType p.constraints p.refersTo p.win p.kind).getD copy)
        (((RulePkt.new false lastId).1.addRootPredicate root.eventType root.constraints).getD
          (RulePkt.new false lastId).1) with ceTemplate := pkt.ceTemplate }, lastId + 1) := by
    rw [copy, preds]
    rfl
  have rebuilt := foldl_addPredicate_eq rest
    { (RulePkt.new false lastId).1 with predicates := [root] } Nat.one_pos back
  rw [loops, isRoot, Option.getD_some, rebuilt, preds]
  rfl

/-- `copy` is exact for the rules that are only predicates and a template. -/
theorem copiedExactly_iff {pkt : RulePkt} (built : pkt.Built) (lastId : Nat) :
    pkt.CopiedExactly lastId ↔ pkt.OnlyPredicates := by
  constructor
  · rintro ⟨copy, lastId', copied, same, -⟩
    have root : pkt.predicates ≠ [] := by
      intro empty
      rw [RulePkt.copy, empty] at copied
      cases copied
    rw [built.copy_eq root, Option.some.injEq, Prod.mk.injEq] at copied
    obtain ⟨rfl, -⟩ := copied
    exact ⟨root, same.negations.symm, same.aggregates.symm, same.parameters.symm,
      same.complexParameters.symm, same.consuming.symm⟩
  · intro only
    have same : pkt.SameDefinition { (RulePkt.new false lastId).1 with
        predicates := pkt.predicates, ceTemplate := pkt.ceTemplate } :=
      ⟨rfl, only.negations.symm, only.aggregates.symm, only.parameters.symm,
        only.complexParameters.symm, rfl, only.consuming.symm⟩
    exact ⟨_, _, built.copy_eq only.root lastId, same, same.detected_eq⟩

/-- Smoke within five minutes after a high temperature. -/
def smokeRule : RulePkt :=
  { RulePkt.fireRule with negations := [], consuming := [], complexParameters := [] }

theorem smokeRule_built : smokeRule.Built :=
  .call (.setCompositeEventTemplate ⟨4, [], []⟩)
    (.call (.addPredicate 2 [] 0 300 .lastWithin)
      (.call (.addRootPredicate 1 []) (.new true 0) rfl) rfl) rfl

theorem smokeRule_copiedExactly : smokeRule.CopiedExactly 1 :=
  (copiedExactly_iff smokeRule_built 1).mpr
    ⟨List.cons_ne_nil _ _, rfl, rfl, rfl, rfl, rfl⟩

/-- The copy of the fire rule has forgotten the rain. -/
theorem fireRule_not_copiedExactly : ¬ fireRule.CopiedExactly 1 := by
  rintro ⟨copy, lastId', copied, same, -⟩
  cases copied
  cases same.negations

end RulePkt

end TRex
