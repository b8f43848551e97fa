import TRex.DerivationDepth

/-!
# When composite events are fed back

`setRecursionNeeded` is meant to switch recursion on only if the output of some rule is an input of
another one. It looks at the types of predicates only, and compares the types of the templates as
they are written in the rules, while a generated packet stores its type in 16 bits. The flag is an
optimisation as long as rules that use a generated type are detected this way
(`flag_unobservable`).
-/

namespace TRex

open Feedback

/-! ## Types that rules use and generate -/

/-- The type of a rule's template. -/
def RulePkt.outputType (pkt : RulePkt) : Int :=
  (pkt.ceTemplate.map CompositeEventTemplate.eventType).getD 0

/-- Some element of a rule, be it a predicate, a negation or an aggregate, has the type of packets
that some rule generates. -/
def UsesGenerated (rules : List RulePkt) : Prop :=
  ∃ r ∈ rules, ∃ element ∈ r.elements, ∃ r' ∈ rules, element.eventType = r'.outputType % 2 ^ 16

/-- Some predicate of a rule has the type of some template. -/
def Detected (rules : List RulePkt) : Prop :=
  ∃ r ∈ rules, ∃ p ∈ r.predicates, ∃ r' ∈ rules, p.eventType = r'.outputType

theorem Detected.append {rules : List RulePkt} (detected : Detected rules) (more : List RulePkt) :
    Detected (rules ++ more) := by
  obtain ⟨r, inRules, p, isPredicate, r', inRules', same⟩ := detected
  exact ⟨r, List.mem_append_left _ inRules, p, isPredicate, r', List.mem_append_left _ inRules',
    same⟩

/-- The packets of a computation have the type of the rule's template. -/
theorem eventType_of_mem_results {pkt : RulePkt} {st : Stacks} {ptr : PubPktPtr} {x : PubPkt}
    (mem : x ∈ ((StacksRule.new pkt).startComputation st ptr).results) :
    (x.eventType : Int) = pkt.outputType % 2 ^ 16 := by
  obtain ⟨pe, -, rfl⟩ := List.mem_map.mp mem
  have template : (StacksRule.new pkt).ceTemplate.eventType = pkt.outputType := by
    unfold StacksRule.new RulePkt.outputType
    cases pkt.ceTemplate <;> rfl
  have stored : ∀ (attributes : List Attribute) (now : Nat),
      ((PubPkt.new pkt.outputType attributes now).eventType : Int) = pkt.outputType % 2 ^ 16 := by
    intro attributes now
    exact Int.toNat_of_nonneg (Int.emod_nonneg _ (by decide))
  split
  case isTrue nonneg =>
    have typeOnly : (StacksRule.new pkt).compositeEventId = pkt.outputType := by
      rw [← template]
      simp only [StacksRule.new] at nonneg ⊢
      split at nonneg
      · rename_i bare
        rw [if_pos bare]
      · omega
    rw [typeOnly]
    exact stored _ _
  case isFalse =>
    unfold generateCompositeEvent
    rw [template]
    exact stored _ _

namespace TRexEngine

/-- The rules of the engine are made from the packets installed. -/
theorem mem_stacksRules_installAll {alloc : Nat → Nat} {numProc : Nat} {rules : List RulePkt}
    {entry : Nat × StacksRule} (mem : entry ∈ (installAll alloc numProc rules).stacksRules) :
    ∃ pkt ∈ rules, entry = (pkt.ruleId, StacksRule.new pkt) := by
  induction rules using List.reverseRecOn with
  | nil => cases mem
  | append_singleton rules pkt ih =>
      rw [installAll_concat] at mem
      rcases OrdMap.mem_of_mem_insert mem with rfl | old
      · exact ⟨pkt, List.mem_append_right _ List.mem_cons_self, rfl⟩
      · obtain ⟨pkt', inRules, same⟩ := ih old
        exact ⟨pkt', List.mem_append_left _ inRules, same⟩

/-- A generated packet has the type of some template. -/
theorem eventType_of_mem_evaluate {alloc : Nat → Nat} {numProc : Nat} {rules : List RulePkt}
    {place : Placement} {order : SetOrder} {c : Contents} {pkt x : PubPkt}
    (mem : x ∈ ((installAll alloc numProc rules).evaluate place order c pkt).2) :
    ∃ r ∈ rules, (x.eventType : Int) = r.outputType % 2 ^ 16 := by
  have generated := (order.perm _ _).mem_iff.mp mem
  obtain ⟨⟨i, call⟩, -, st, put⟩ := Interleave.mem_run_snd generated
  unfold system at put
  simp only at put
  cases found : (installAll alloc numProc rules).ruleOf i with
  | none =>
      rw [found] at put
      cases put
  | some r =>
      obtain ⟨entry, first, rfl⟩ := Option.map_eq_some_iff.mp found
      obtain ⟨pkt', inRules, rfl⟩ := mem_stacksRules_installAll (List.mem_of_find?_eq_some first)
      rw [found] at put
      cases call with
      | startComputation ptr => exact ⟨pkt', inRules, eventType_of_mem_results put⟩
      | addToStack ptr index => cases put
      | addToNegationStack ptr index => cases put
      | addToAggregateStack ptr index => cases put

/-- Without a rule that uses a generated type, no generated packet is taken as input. -/
theorem not_takenAsInput_of_mem_evaluate {alloc : Nat → Nat} {numProc : Nat}
    {rules : List RulePkt} {place : Placement} {order : SetOrder} {c : Contents} {pkt x : PubPkt}
    (unused : ¬ UsesGenerated rules)
    (mem : x ∈ ((installAll alloc numProc rules).evaluate place order c pkt).2) :
    ¬ TakenAsInput rules x := by
  rintro ⟨r, inRules, element, isElement, sameType⟩
  obtain ⟨r', inRules', type⟩ := eventType_of_mem_evaluate mem
  refine unused ⟨r, inRules, element, isElement, r', inRules', ?_⟩
  have copied : (x.copy.eventType : Int) = x.eventType := by
    unfold PubPkt.copy PubPkt.new
    simp only
    omega
  rw [sameType, copied, type]

end TRexEngine

namespace RecursiveEngine

/-! ## The flag -/

/-- What the flag and the two sets say of the rules installed. -/
structure FlagInv (rules : List RulePkt) (e : RecursiveEngine) : Prop where
  detected : e.recursionNeeded = true → Detected rules
  undetected : e.recursionNeeded = false → ¬ Detected rules
  input : e.recursionNeeded = false →
    ∀ type, type ∈ e.inputEvents ↔ ∃ r ∈ rules, ∃ p ∈ r.predicates, p.eventType = type
  output : e.recursionNeeded = false →
    ∀ type, type ∈ e.outputEvents ↔ ∃ r ∈ rules, r.outputType = type

theorem flagInv_finalize (numProc : Nat) : (finalize numProc).FlagInv [] := by
  refine ⟨?_, ?_, ?_, ?_⟩
  · intro needed
    cases needed
  · rintro - ⟨r, inRules, -⟩
    cases inRules
  · intro _ type
    simp [finalize]
  · intro _ type
    simp [finalize]

theorem FlagInv.processRulePkt {rules : List RulePkt} {e : RecursiveEngine}
    (inv : e.FlagInv rules) (alloc : Nat → Nat) (pkt : RulePkt) :
    (e.processRulePkt alloc pkt).FlagInv (rules ++ [pkt]) := by
  cases needed : e.recursionNeeded with
  | true =>
      have kept : (e.processRulePkt alloc pkt).recursionNeeded = true := by
        simp [RecursiveEngine.processRulePkt, setRecursionNeeded, needed]
      refine ⟨fun _ => (inv.detected needed).append [pkt], ?_, ?_, ?_⟩ <;> simp [kept]
  | false =>
      have input : ∀ type, type ∈ (e.processRulePkt alloc pkt).inputEvents ↔
          ∃ r ∈ rules ++ [pkt], ∃ p ∈ r.predicates, p.eventType = type := by
        intro type
        have entered : (e.processRulePkt alloc pkt).inputEvents =
            (pkt.predicates.map Predicate.eventType).foldl (fun s type => OrdSet.insert type s)
              e.inputEvents := by
          simp [RecursiveEngine.processRulePkt, setRecursionNeeded, needed]
        rw [entered, OrdSet.mem_foldl_insert, inv.input needed]
        simp [or_and_right, exists_or, or_comm]
      have output : ∀ type, type ∈ (e.processRulePkt alloc pkt).outputEvents ↔
          ∃ r ∈ rules ++ [pkt], r.outputType = type := by
        intro type
        have entered : (e.processRulePkt alloc pkt).outputEvents =
            OrdSet.insert pkt.outputType e.outputEvents := by
          simp [RecursiveEngine.processRulePkt, setRecursionNeeded, needed, RulePkt.outputType]
        rw [entered, OrdSet.mem_insert, inv.output needed]
        simp [or_and_right, exists_or, or_comm, eq_comm]
      have flag : (e.processRulePkt alloc pkt).recursionNeeded = true ↔
          Detected (rules ++ [pkt]) := by
        have searched : (e.processRulePkt alloc pkt).recursionNeeded =
            (e.processRulePkt alloc pkt).inputEvents.any fun type =>
              (e.processRulePkt alloc pkt).outputEvents.contains type := by
          simp [RecursiveEngine.processRulePkt, setRecursionNeeded, needed]
        rw [searched, List.any_eq_true]
        simp only [List.contains_iff_mem, input, output]
        constructor
        · rintro ⟨type, ⟨r, inRules, p, isPredicate, rfl⟩, r', inRules', same⟩
          exact ⟨r, inRules, p, isPredicate, r', inRules', same.symm⟩
        · rintro ⟨r, inRules, p, isPredicate, r', inRules', same⟩
          exact ⟨p.eventType, ⟨r, inRules, p, isPredicate, rfl⟩, r', inRules', same.symm⟩
      refine ⟨flag.mp, fun off => ?_, fun _ => input, fun _ => output⟩
      rw [← flag, off]
      exact Bool.false_ne_true

section Runs

variable {alloc : Nat → Nat} {place : Placement} {order : SetOrder} {numProc : Nat}

theorem FlagInv.withWalk {rules : List RulePkt} {e : RecursiveEngine} (inv : e.FlagInv rules)
    (w : Walk Contents PubPkt) : (e.withWalk w).FlagInv rules :=
  ⟨inv.detected, inv.undetected, inv.input, inv.output⟩

/-- The flag is set just if the predicates show that composite events are used. -/
theorem flagInv_run {ops : List Operation} {e : RecursiveEngine}
    (reached : run alloc place order (.finalize numProc) ops = some e) :
    e.FlagInv (rulesOf ops) := by
  induction ops using List.reverseRecOn generalizing e with
  | nil =>
      cases reached
      exact flagInv_finalize numProc
  | append_singleton ops op ih =>
      obtain ⟨mid, before, now⟩ := run_concat alloc place order reached
      rw [rulesOf_append]
      cases op with
      | processRulePkt pkt =>
          cases now
          exact (ih before).processRulePkt alloc pkt
      | processPubPkt pkt =>
          rw [step_processPubPkt] at now
          cases now
          have same : rulesOf ops ++ rulesOf [.processPubPkt pkt] = rulesOf ops := List.append_nil _
          rw [same]
          exact (ih before).withWalk _

/-! ## The engine that always feeds back -/

def alwaysFeeding (numProc : Nat) : RecursiveEngine :=
  { finalize numProc with recursionNeeded := true }

theorem recursionNeeded_run_alwaysFeeding {ops : List Operation} {a : RecursiveEngine}
    (reached : run alloc place order (alwaysFeeding numProc) ops = some a) :
    a.recursionNeeded = true := by
  induction ops using List.reverseRecOn generalizing a with
  | nil =>
      cases reached
      rfl
  | append_singleton ops op ih =>
      obtain ⟨mid, before, now⟩ := run_concat alloc place order reached
      cases op with
      | processRulePkt pkt =>
          cases now
          simp [processRulePkt, setRecursionNeeded, ih before]
      | processPubPkt pkt =>
          have kept : mid.recursionNeeded = true := ih before
          rw [step_processPubPkt] at now
          cases now
          exact kept

/-- One publication, with and without feeding back, if the flag is set or no rule uses a generated
type. -/
theorem walkOf_state_eq {rules : List RulePkt} {e a : RecursiveEngine}
    (engine : e.toTRexEngine = TRexEngine.installAll alloc numProc rules)
    (sameEngine : a.toTRexEngine = e.toTRexEngine) (sameContents : a.contents = e.contents)
    (always : a.recursionNeeded = true)
    (condition : e.recursionNeeded = true ∨ ¬ UsesGenerated rules) (pkt : PubPkt) :
    (walkOf place order a pkt).state = (walkOf place order e pkt).state := by
  unfold walkOf
  simp only [sameEngine, sameContents]
  rcases condition with needed | unused
  · have sameFlag : a.feedsBack = e.feedsBack := by
      funext c
      rw [feedsBack, feedsBack, always, needed]
    rw [sameFlag]
  · have inert : ∀ x ∈ (e.evaluate place order e.contents pkt).2, ∀ c,
        (e.feedback place order).react c x = (c, []) := by
      intro x mem c
      rw [engine] at mem ⊢
      exact TRexEngine.react_of_unused (TRexEngine.indexingTable_installAll alloc numProc rules)
        (TRexEngine.not_takenAsInput_of_mem_evaluate unused mem) place order c
    rw [state_walk_inert inert, state_walk_inert inert]

/-- Composite events that some rule uses are detected at every publication of a run. -/
def DetectsUse (ops : List Operation) : Prop :=
  ∀ before pkt after, ops = before ++ .processPubPkt pkt :: after →
    UsesGenerated (rulesOf before) → Detected (rulesOf before)

theorem contents_run_eq {ops : List Operation} {e a : RecursiveEngine} (detects : DetectsUse ops)
    (reached : run alloc place order (.finalize numProc) ops = some e)
    (reached' : run alloc place order (alwaysFeeding numProc) ops = some a) :
    a.contents = e.contents := by
  induction ops using List.reverseRecOn generalizing e a with
  | nil =>
      cases reached
      cases reached'
      rfl
  | append_singleton ops op ih =>
      obtain ⟨mid, before, now⟩ := run_concat alloc place order reached
      obtain ⟨mid', before', now'⟩ := run_concat alloc place order reached'
      have detectsBefore : DetectsUse ops := by
        rintro earlier pkt later rfl
        exact detects earlier pkt (later ++ [op]) (by simp)
      have same : mid'.contents = mid.contents := ih detectsBefore before before'
      cases op with
      | processRulePkt pkt =>
          cases now
          cases now'
          rw [contents_processRulePkt, contents_processRulePkt, same]
      | processPubPkt pkt =>
          have engine := toTRexEngine_run rfl before
          have sameEngine := (toTRexEngine_run rfl before').trans engine.symm
          have always := recursionNeeded_run_alwaysFeeding before'
          have condition : mid.recursionNeeded = true ∨ ¬ UsesGenerated (rulesOf ops) := by
            cases needed : mid.recursionNeeded with
            | true => exact .inl rfl
            | false =>
                refine .inr fun uses => ?_
                exact (flagInv_run before).undetected needed (detects ops pkt [] rfl uses)
          rw [step_processPubPkt] at now now'
          cases now
          cases now'
          exact walkOf_state_eq engine sameEngine same always condition pkt

/-- The engine hands out the same composite events as one that always feeds them back. -/
def FlagUnobservable (alloc : Nat → Nat) (place : Placement) (order : SetOrder) (numProc : Nat)
    (ops : List Operation) : Prop :=
  ∃ e a, run alloc place order (.finalize numProc) ops = some e ∧
    run alloc place order (alwaysFeeding numProc) ops = some a ∧
    e.contents.delivered = a.contents.delivered

end Runs

end RecursiveEngine

open RecursiveEngine (FlagUnobservable DetectsUse)

/-- In every run in which the use of composite events is detected at every publication, the flag is
never observable. -/
theorem flag_unobservable (alloc : Nat → Nat) (place : Placement) (order : SetOrder)
    (numProc : Nat) (ops : List RecursiveEngine.Operation) (detects : DetectsUse ops)
    (done : List RecursiveEngine.Operation) (reached : done <+: ops) :
    FlagUnobservable alloc place order numProc done := by
  obtain ⟨rest, rfl⟩ := reached
  obtain ⟨e, ran⟩ := Option.ne_none_iff_exists'.mp
    (RecursiveEngine.run_ne_none (.finalize numProc) done)
  obtain ⟨a, ran'⟩ := Option.ne_none_iff_exists'.mp
    (RecursiveEngine.run_ne_none (RecursiveEngine.alwaysFeeding numProc) done)
  have detectsDone : DetectsUse done := by
    rintro before pkt after rfl
    exact detects before pkt (after ++ rest) (by simp)
  refine ⟨e, a, ran, ran', ?_⟩
  rw [RecursiveEngine.contents_run_eq detectsDone ran ran']

/-! An alarm without a warning before it. -/

def quietRule : RulePkt :=
  { singleRule 1 3 4 with
    negations := [{ eventType := 2, constraints := [], lowerId := -1, lowerTime := 100
                    upperId := 0 }] }

/-- The negation is of the type that the first rule generates. -/
def quietRun : List RecursiveEngine.Operation :=
  [.processRulePkt (singleRule 0 1 2), .processRulePkt quietRule,
    .processPubPkt (PubPkt.new 1 [] 10), .processPubPkt (PubPkt.new 3 [] 20)]

theorem not_flagUnobservable_quietRun : ¬ FlagUnobservable id .above .asGenerated 1 quietRun := by
  rintro ⟨e, a, ran, ran', same⟩
  have types : (RecursiveEngine.run id .above .asGenerated (.finalize 1) quietRun).map
      (fun e => e.contents.delivered.map PubPkt.eventType) = some [2, 4] := by decide +kernel
  have types' : (RecursiveEngine.run id .above .asGenerated (.alwaysFeeding 1) quietRun).map
      (fun e => e.contents.delivered.map PubPkt.eventType) = some [2] := by decide +kernel
  rw [ran, Option.map_some] at types
  rw [ran', Option.map_some, ← same] at types'
  exact absurd (types.symm.trans types') (by decide)

theorem smokes_flagUnobservable :
    FlagUnobservable id .above .asGenerated 2 (smokes 2 ++ [.processPubPkt alarm]) := by
  refine flag_unobservable id .above .asGenerated 2 _ ?_ _ (List.prefix_refl _)
  intro before pkt after split _
  -- both rules are installed before the first publication
  rcases before with _ | ⟨first, _ | ⟨second, rest⟩⟩
  · simp [smokes] at split
  · simp [smokes] at split
  · obtain ⟨rfl, rfl, -⟩ : first = .processRulePkt warningRule ∧
        second = .processRulePkt (singleRule 1 2 3) ∧ _ := by
      simpa [smokes, eq_comm] using split
    exact ⟨singleRule 1 2 3, List.mem_cons_of_mem _ List.mem_cons_self, _, List.mem_cons_self,
      warningRule, List.mem_cons_self, rfl⟩

end TRex
