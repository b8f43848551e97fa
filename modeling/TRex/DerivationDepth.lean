import TRex.RecursiveProcessing

/-!
# Recursion depth

A composite event has a derivation depth: the number of rule applications that lead to it from the
packet published. `MAX_RECURSION_DEPTH` is documented as a limit on the depth, but the counter
compared with it counts calls, so events of small depth are dropped as soon as ten others were
processed before them. `fedBackByDepth_iff` says for which packets this makes no difference.
-/

namespace TRex

open Feedback

/-! ## Packets that no rule uses -/

/-- Some rule has an element, be it a predicate, a negation or an aggregate, of the type with which
a generated packet is processed. -/
def TakenAsInput (rules : List RulePkt) (pkt : PubPkt) : Prop :=
  ∃ r ∈ rules, ∃ element ∈ r.elements, element.eventType = pkt.copy.eventType

namespace TRexEngine

variable {alloc : Nat → Nat} {rules : List RulePkt} {engine : TRexEngine}

theorem allCalls_eq_nil (table : engine.indexingTable = IndexingTable.installed alloc rules)
    {pkt : PubPkt} (unused : ∀ r ∈ rules, ∀ element ∈ r.elements, element.eventType ≠ pkt.eventType)
    (ptr : PubPktPtr) :
    engine.allCalls (engine.indexingTable.processMessage pkt .empty) ptr = [] := by
  have nothing : ∀ i type,
      (engine.indexingTable.processMessage pkt .empty).matching type i = [] := by
    intro i type
    by_contra nonempty
    obtain ⟨index, mem⟩ := List.exists_mem_of_ne_nil _ nonempty
    rw [table, IndexingTable.mem_matching_installed] at mem
    obtain ⟨tp, element, isEntry, -, sameType, -⟩ := mem
    obtain ⟨⟨r, inRules, -, isElement⟩, -⟩ := IndexingTable.mem_entries isEntry
    exact unused r inRules element isElement sameType
  unfold allCalls workerCalls callsOf
  refine List.flatMap_eq_nil_iff.mpr fun w _ => ?_
  split
  · refine List.flatMap_eq_nil_iff.mpr fun i _ => ?_
    rw [ruleCalls_eq_nil (nothing i)]
    rfl
  · rfl

/-- A packet of a type that no element has changes nothing and generates nothing. -/
theorem evaluate_of_unused (table : engine.indexingTable = IndexingTable.installed alloc rules)
    {pkt : PubPkt} (unused : ∀ r ∈ rules, ∀ element ∈ r.elements, element.eventType ≠ pkt.eventType)
    (place : Placement) (order : SetOrder) (c : Contents) :
    engine.evaluate place order c pkt = (c, []) := by
  unfold evaluate
  simp only
  rw [allCalls_eq_nil table unused]
  have empty : order.arrange c.delivered.length [] = [] := (order.perm _ []).eq_nil
  simp [Interleave.run, empty]

theorem react_of_unused (table : engine.indexingTable = IndexingTable.installed alloc rules)
    {pkt : PubPkt} (unused : ¬ TakenAsInput rules pkt) (place : Placement) (order : SetOrder)
    (c : Contents) : (engine.feedback place order).react c pkt = (c, []) := by
  refine evaluate_of_unused table ?_ place order c
  intro r inRules element isElement sameType
  exact unused ⟨r, inRules, element, isElement, sameType⟩

end TRexEngine

namespace RecursiveEngine

/-! ## The rules of a run -/

section Runs

variable {alloc : Nat → Nat} {place : Placement} {order : SetOrder} {numProc : Nat}

theorem step_processPubPkt (e : RecursiveEngine) (pkt : PubPkt) :
    e.step alloc place order (.processPubPkt pkt) = some (e.withWalk (walkOf place order e pkt)) :=
  e.processPubPkt_eq_walk (Nat.lt_succ_self _) pkt

/-- Every sequence of operations comes to its end. -/
theorem run_ne_none (e : RecursiveEngine) (ops : List Operation) :
    run alloc place order e ops ≠ none := by
  induction ops generalizing e with
  | nil => exact Option.some_ne_none e
  | cons op rest ih =>
      cases op with
      | processRulePkt pkt => exact ih (e.processRulePkt alloc pkt)
      | processPubPkt pkt =>
          unfold run
          rw [List.foldlM_cons, step_processPubPkt]
          exact ih _

/-- Publications leave the rules as they are. -/
theorem toTRexEngine_run {ops : List Operation} {start e : RecursiveEngine}
    (fresh : start.toTRexEngine = TRexEngine.finalize numProc)
    (reached : run alloc place order start ops = some e) :
    e.toTRexEngine = TRexEngine.installAll alloc numProc (rulesOf ops) := by
  induction ops using List.reverseRecOn generalizing e with
  | nil =>
      cases reached
      exact fresh
  | append_singleton ops op ih =>
      obtain ⟨mid, before, now⟩ := run_concat alloc place order reached
      rw [rulesOf_append]
      cases op with
      | processRulePkt pkt =>
          cases now
          rw [toTRexEngine_processRulePkt, ih before]
          exact (TRexEngine.installAll_concat alloc numProc (rulesOf ops) pkt).symm
      | processPubPkt pkt =>
          rw [step_processPubPkt] at now
          cases now
          exact (ih before).trans (congrArg _ (List.append_nil _).symm)

theorem table_run {ops : List Operation} {e : RecursiveEngine}
    (reached : run alloc place order (.finalize numProc) ops = some e) :
    e.indexingTable = IndexingTable.installed alloc (rulesOf ops) := by
  rw [toTRexEngine_run rfl reached]
  exact TRexEngine.indexingTable_installAll alloc numProc (rulesOf ops)

end Runs

/-! ## A limit on the depth alone -/

section Depth

variable (place : Placement) (order : SetOrder)

/-- Every composite event within the limit on the depth is fed back if some rule takes it as
input. -/
def FedBackByDepth (rules : List RulePkt) (e : RecursiveEngine) (pkt : PubPkt) : Prop :=
  ∃ e', e.processPubPkt place order (maxRecursionDepth + 1) 0 pkt false = some e' ∧
    ∀ decision ∈ e'.decisions, decision.depth ≤ maxRecursionDepth →
      TakenAsInput rules decision.event → decision.fed = true

/-- The evaluation of a packet that feeds back all composite events within the limit on the depth,
however many. -/
def depthLimited (e : RecursiveEngine) (pkt : PubPkt) : Walk Contents PubPkt :=
  let (contents, result) := e.evaluate place order e.contents pkt
  walk (e.feedback place order) (fun _ => true) maxRecursionDepth 1 ⟨contents, 0, []⟩ result

/-- The number of composite events that the engine feeds back at most. -/
def budget (e : RecursiveEngine) : Nat := if e.recursionNeeded then maxRecursionDepth else 0

theorem feedsBack_iff (e : RecursiveEngine) (c : Nat) : e.feedsBack c = true ↔ c < e.budget := by
  unfold feedsBack budget
  cases e.recursionNeeded <;> simp

end Depth

end RecursiveEngine

open RecursiveEngine (FedBackByDepth depthLimited rulesOf)

/-- The counter drops no composite event within the limit that some rule takes as input, just if the
evaluation limited by depth alone feeds back no such event after as many as the counter allows. -/
theorem fedBackByDepth_iff (alloc : Nat → Nat) (place : Placement) (order : SetOrder)
    (numProc : Nat) (ops : List RecursiveEngine.Operation) (e : RecursiveEngine)
    (reached : RecursiveEngine.run alloc place order (.finalize numProc) ops = some e)
    (pkt : PubPkt) :
    FedBackByDepth place order (rulesOf ops) e pkt ↔
      ∀ x ∈ (fedEvents (depthLimited place order e pkt).trace).drop e.budget,
        ¬ TakenAsInput (rulesOf ops) x := by
  have inert : ∀ c x, ¬ TakenAsInput (rulesOf ops) x →
      ((e.feedback place order).react c x).2 = [] := by
    intro c x unused
    rw [TRexEngine.react_of_unused (RecursiveEngine.table_run reached) unused place order c]
  have returned := @RecursiveEngine.processPubPkt_eq_walk place order (maxRecursionDepth + 1)
    (Nat.lt_succ_self _) e pkt
  have compared := @budget_iff _ _ (e.feedback place order) e.feedsBack
    (TakenAsInput (rulesOf ops)) maxRecursionDepth e.budget
    (e.evaluate place order e.contents pkt).1 (e.evaluate place order e.contents pkt).2
    e.feedsBack_iff inert
  refine Iff.trans ⟨?_, ?_⟩ compared
  · rintro ⟨e', ran, kept⟩
    cases returned.symm.trans ran
    exact kept
  · intro kept
    exact ⟨_, returned, kept⟩

/-! Each smoke within the window of an alarm causes a warning, each warning a call. -/

/-- A rule with one predicate and a template without attributes. -/
def singleRule (ruleId : Nat) (input output : Int) : RulePkt :=
  { ruleId, parameters := [], negations := [], aggregates := [], consuming := []
    complexParameters := []
    predicates := [
      { eventType := input, constraints := [], refersTo := -1, win := 0, kind := .eachWithin }]
    ceTemplate := some ⟨output, [], []⟩ }

def warningRule : RulePkt :=
  { singleRule 0 1 2 with
    predicates := [
      { eventType := 1, constraints := [], refersTo := -1, win := 0, kind := .eachWithin },
      { eventType := 5, constraints := [], refersTo := 0, win := 100, kind := .eachWithin }] }

/-- The two rules and a number of smoke events. -/
def smokes (n : Nat) : List RecursiveEngine.Operation :=
  [.processRulePkt warningRule, .processRulePkt (singleRule 1 2 3)] ++
    (List.range' 1 n).map fun time => .processPubPkt (PubPkt.new 5 [] time)

def afterSmokes (n : Nat) : RecursiveEngine :=
  (RecursiveEngine.run id .above .asGenerated (.finalize 2) (smokes n)).getD (.finalize 2)

def alarm : PubPkt := PubPkt.new 1 [] 50

/-- Six warnings at once: five of them and their calls use up the budget, the last warning is not
processed. -/
theorem lastWarning_lost :
    RecursiveEngine.run id .above .asGenerated (.finalize 2) (smokes 6) = some (afterSmokes 6) ∧
      ¬ FedBackByDepth .above .asGenerated (rulesOf (smokes 6)) (afterSmokes 6) alarm := by
  refine ⟨(Option.getD_of_ne_none (RecursiveEngine.run_ne_none _ _) _).symm, ?_⟩
  rintro ⟨e', ran, kept⟩
  have dropped : (((afterSmokes 6).processPubPkt .above .asGenerated (maxRecursionDepth + 1) 0 alarm
      false).any fun e => e.decisions.contains ⟨1, PubPkt.new 2 [] 50, false⟩) = true := by
    decide +kernel
  rw [ran, Option.any_some, List.contains_iff_mem] at dropped
  have taken : TakenAsInput (rulesOf (smokes 6)) (PubPkt.new 2 [] 50) :=
    ⟨singleRule 1 2 3, by simp [rulesOf, smokes, RecursiveEngine.Operation.rule?],
      ⟨.state, 0, 2, []⟩, by decide, rfl⟩
  exact absurd (kept _ dropped (by decide) taken) (by decide)

theorem twoWarnings_fedBack :
    FedBackByDepth .above .asGenerated (rulesOf (smokes 2)) (afterSmokes 2) alarm := by
  have reached : RecursiveEngine.run id .above .asGenerated (.finalize 2) (smokes 2) =
      some (afterSmokes 2) := (Option.getD_of_ne_none (RecursiveEngine.run_ne_none _ _) _).symm
  apply (fedBackByDepth_iff id .above .asGenerated 2 (smokes 2) (afterSmokes 2) reached alarm).mpr
  have none : (fedEvents (depthLimited .above .asGenerated (afterSmokes 2) alarm).trace).drop
      (afterSmokes 2).budget = [] := by decide +kernel
  rw [none]
  exact fun x mem => nomatch mem

end TRex
