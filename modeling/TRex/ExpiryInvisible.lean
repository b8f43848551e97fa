import Mathlib.Data.List.Forall2
import TRex.Expiry

/-!
# Expiry is invisible

A run of calls compared with the same run in which nothing expires. While the stacks are related by
`Simulates`, a computation finds the same partial results and the same packets in the window of
every aggregate, so consumption removes the same packets and the relation holds again after it
(`computations_sameOutcome`).

A negation between two states is measured by `clearStacks` with the window of its lower state. That
is the right span only when the lower state refers to the upper one, which is assumed here.
-/

namespace TRex

/-- The spans `clearStacks` keeps are the spans the rule looks back: aggregates are time based, and
negations are time based or between a state and the state it refers to. -/
structure RulePkt.LooksBackLocally (pkt : RulePkt) : Prop where
  refersTo : pkt.RefersBack
  negations : ∀ n ∈ pkt.negations, n.lowerId < 0 ∨
    ∃ p, pkt.predicates[n.lowerId.toNat]? = some p ∧ p.refersTo = n.upperId
  aggregates : ∀ a ∈ pkt.aggregates, a.lowerId < 0

namespace StacksRule

/-- The same partial results, the same packets in the aggregates' windows and the same events. -/
structure SameOutcome (r : StacksRule) (c c' : Computation) : Prop where
  partialResults : c.partialResults = c'.partialResults
  windows : ∀ pe ∈ c.partialResults,
    (r.aggregatesOf c.during).SameWindows (r.aggregatesOf c'.during) pe
  results : c.results = c'.results

section Search

variable {r : StacksRule} {now : Nat} {cur full : Stacks}

/-! ## Negations -/

/-- A negation whose interval starts after everything forgotten gives the same answer. -/
theorem Simulates.checkNegation_eq (sim : r.Simulates now cur full) {k : Nat} {n : Negation}
    {pe : PartialEvent} (lookup : r.negations[k]? = some n)
    (before : ∀ e, r.obsoleteNeg now cur k e → e.getTimeStamp ≤ (negationBounds n pe).1) :
    r.checkNegation full k pe = r.checkNegation cur k pe := by
  rw [Bool.eq_iff_iff, r.checkNegation_iff (sim.negs k).invFull lookup,
    r.checkNegation_iff (sim.negs k).invCur lookup, (sim.negs k).between_eq _ _ before]

variable {pkt : RulePkt} (built : pkt.Built) (lookBack : pkt.LooksBackLocally)

include built lookBack

/-- The interval of a negation linked to state `i` starts after everything forgotten, once state `i`
holds a stored packet of its window. -/
theorem negationBounds_after_obsolete {i k : Nat} {n : Negation} {pe : PartialEvent} {e : PubPktPtr}
    (lookup : pkt.negations[k]? = some n) (linked : linkedState n = i)
    (supported : Supported cur (i + 1) pe)
    (window : 1 ≤ i → pe.timeOf ((new pkt).refersTo i) - (new pkt).getWindow i < pe.timeOf i)
    (obsolete : (new pkt).obsoleteNeg now cur k e) :
    e.getTimeStamp ≤ (negationBounds n pe).1 := by
  have current := (obsolete n lookup).current
  unfold linkedState at linked
  unfold negationWindow at current
  simp only [negationBounds]
  by_cases timed : n.lowerId < 0
  · rw [if_pos timed] at linked current ⊢
    obtain ⟨q, mem, time⟩ := supported.timeOf (i := n.upperId) (by omega) (by omega)
    rw [time]
    exact current q mem
  · rw [if_neg timed] at linked current ⊢
    obtain ⟨p, lower, refers⟩ : ∃ p, pkt.predicates[n.lowerId.toNat]? = some p ∧
        p.refersTo = n.upperId := by
      rcases lookBack.negations n (List.mem_of_getElem? lookup) with negative | found
      · exact absurd negative timed
      · exact found
    rw [show n.lowerId.toNat = i by omega] at lower current
    have pos : 1 ≤ i := by
      obtain ⟨nonneg, -, -, ordered⟩ :=
        built.bounded.negations n (List.mem_of_getElem? lookup)
      omega
    have back := lookBack.refersTo i p lower pos
    rw [new_refersTo lower, refers] at window
    have inside := window pos
    obtain ⟨q, mem, time⟩ := supported.timeOf (i := n.upperId) (by omega) (by omega)
    have bound := current q mem
    rw [linked]
    omega

/-! ## States -/

/-- The checks of the negations linked to a state give the same answers. -/
theorem Simulates.linkedNegations_eq (sim : (new pkt).Simulates now cur full) {i : Nat}
    {pe : PartialEvent} (lt : i < pkt.predicates.length) (supported : Supported cur (i + 1) pe)
    (window : 1 ≤ i → pe.timeOf ((new pkt).refersTo i) - (new pkt).getWindow i < pe.timeOf i) :
    ((new pkt).getLinkedNegations i).any (fun neg => (new pkt).checkNegation full neg pe) =
      ((new pkt).getLinkedNegations i).any fun neg => (new pkt).checkNegation cur neg pe := by
  have same : ∀ k ∈ (new pkt).getLinkedNegations i,
      (new pkt).checkNegation full k pe = (new pkt).checkNegation cur k pe := by
    intro k mem
    obtain ⟨n, lookup, linked⟩ := (mem_new_getLinkedNegations lt).mp mem
    exact sim.checkNegation_eq lookup fun e obsolete =>
      negationBounds_after_obsolete built lookBack lookup linked supported window obsolete
  rw [Bool.eq_iff_iff, List.any_eq_true, List.any_eq_true]
  exact exists_congr fun k => and_congr_right fun mem => by rw [same k mem]

/-- A state extends a partial result made of stored packets in the same ways. -/
theorem Simulates.extendOne_eq (sim : (new pkt).Simulates now cur full) {i : Nat}
    {pe : PartialEvent} (pos : 1 ≤ i) (lt : i < pkt.predicates.length)
    (supported : Supported cur i pe) :
    (new pkt).extendOne full i pe = (new pkt).extendOne cur i pe := by
  have lookup := List.getElem?_eq_getElem lt
  have back := lookBack.refersTo i _ lookup pos
  have refers := new_refersTo lookup
  have reference : (new pkt).referenceState i = (new pkt).refersTo i := by
    rw [new_referenceState lookup back.1, refers]
  obtain ⟨q, stored, time⟩ := supported.timeOf (i := (new pkt).refersTo i) (by omega) (by omega)
  unfold extendOne extensions
  rw [reference]
  -- the window of the state holds the same packets
  rw [(sim.states i).between_eq _ _ fun e obsolete => ?_]
  rotate_left
  · rw [time]
    exact obsolete.current q stored
  congr 2
  apply List.filter_congr
  intro e inWindow
  obtain ⟨mem, after, -⟩ := mem_between.mp inWindow
  unfold accepts
  rw [sim.linkedNegations_eq built lookBack lt (supported.set mem) fun _ => ?_]
  -- assigning state `i` does not change the time of the state it refers to
  have unchanged : (pe.set i e).timeOf ((new pkt).refersTo i) =
      pe.timeOf ((new pkt).refersTo i) := by
    unfold PartialEvent.timeOf
    rw [PartialEvent.set_of_ne pe e (by omega)]
  have assigned : (pe.set i e).timeOf i = e.getTimeStamp :=
    PartialEvent.timeOf_of_some (by simp)
  rw [unchanged, assigned]
  exact after

/-- The loop over the states finds the same partial results, all made of stored packets. -/
theorem Simulates.statesLoop_eq (sim : (new pkt).Simulates now cur full) {pe : PartialEvent}
    (supported : Supported cur 1 pe) {k : Nat} (le : k + 1 ≤ pkt.predicates.length ∨ k = 0) :
    (List.range' 1 k).foldl (fun events i => events.flatMap ((new pkt).extendOne full i)) [pe] =
        (List.range' 1 k).foldl (fun events i => events.flatMap ((new pkt).extendOne cur i)) [pe] ∧
      ∀ pe' ∈ (List.range' 1 k).foldl
        (fun events i => events.flatMap ((new pkt).extendOne cur i)) [pe],
        Supported cur (k + 1) pe' := by
  induction k with
  | zero => exact ⟨rfl, fun pe' mem => by rw [List.mem_singleton.mp mem]; exact supported⟩
  | succ k ih =>
      obtain ⟨same, made⟩ := ih (by omega)
      rw [List.range'_1_concat, List.foldl_concat, List.foldl_concat, same, Nat.add_comm 1 k]
      refine ⟨List.flatMap_congr fun pe' mem => ?_, fun pe' mem => ?_⟩
      · exact sim.extendOne_eq built lookBack (by omega) (by omega) (made pe' mem)
      · obtain ⟨front, inFront, extended⟩ := List.mem_flatMap.mp mem
        exact (new pkt).supported_of_mem_extendOne (made front inFront) extended

theorem Simulates.getPartialResults_eq (sim : (new pkt).Simulates now cur full) {t : PubPktPtr}
    (terminator : t ∈ (cur.states 0).received) :
    (new pkt).getPartialResults full t = (new pkt).getPartialResults cur t ∧
      ∀ pe ∈ (new pkt).getPartialResults cur t,
        Supported cur (pkt.predicates.length - 1 + 1) pe := by
  have root : Supported cur 1 (PartialEvent.empty.set 0 t) :=
    @Supported.set cur 0 PartialEvent.empty (by intro j lt; omega) t terminator
  have loop := sim.statesLoop_eq built lookBack root (k := pkt.predicates.length - 1) (by omega)
  rw [(new pkt).getPartialResults_eq fun i => (sim.states i).invFull,
    (new pkt).getPartialResults_eq fun i => (sim.states i).invCur, new_stacksNum]
  rcases Nat.eq_zero_or_pos pkt.predicates.length with none | some
  · have noLinks : (new pkt).getLinkedNegations 0 = [] := by
      simp [getLinkedNegations, new, List.length_eq_zero_iff.mp none]
    simpa only [noLinks, List.any_nil, Bool.false_eq_true, if_false] using loop
  · rw [sim.linkedNegations_eq built lookBack some root fun pos => by omega]
    split
    · exact ⟨rfl, by simp⟩
    · exact loop

/-! ## Aggregates -/

omit built lookBack in
/-- The window of an aggregate holds the packets strictly inside its interval. -/
theorem window_eq {st : Stacks} {k : Nat} (inv : (st.aggs k).Inv) (a : Aggregate)
    (pe : PartialEvent) :
    (r.aggregatesOf st).window k a pe =
      let packets := between (Aggregates.bounds a pe).1 (Aggregates.bounds a pe).2
        (st.aggs k).received
      if packets.isEmpty then none else some packets := by
  simp only [Aggregates.window, aggregatesOf, inv.size]
  rcases aggregateRange_spec inv.sorted (Aggregates.bounds a pe).1 (Aggregates.bounds a pe).2 with
    ⟨answer, nothing⟩ | ⟨range, answer, visited, nonempty⟩
  · rw [answer, nothing]
    rfl
  · rw [answer, if_neg (by rwa [List.isEmpty_iff]), Option.map_some, visited]

theorem Simulates.sameWindows (sim : (new pkt).Simulates now cur full) {pe : PartialEvent}
    (supported : Supported cur (pkt.predicates.length - 1 + 1) pe) :
    ((new pkt).aggregatesOf cur).SameWindows ((new pkt).aggregatesOf full) pe := by
  refine ⟨rfl, rfl, fun k a lookup => ?_⟩
  have listed := List.mem_of_getElem? lookup
  obtain ⟨nonneg, upper, -, -⟩ := built.bounded.aggregates a listed
  have timed := lookBack.aggregates a listed
  obtain ⟨q, stored, time⟩ := supported.timeOf (i := a.upperId) (by omega) (by omega)
  have same := (sim.aggs k).between_eq (Aggregates.bounds a pe).1 (Aggregates.bounds a pe).2
    fun e obsolete => by
      simp only [Aggregates.bounds, if_pos timed, time]
      exact (obsolete a lookup).current q stored
  rw [window_eq (sim.aggs k).invCur, window_eq (sim.aggs k).invFull, same]

end Search

/-! ## Runs -/

section Runs

variable {pkt : RulePkt} (built : pkt.Built) (lookBack : pkt.LooksBackLocally) {now : Nat}
  {cur full : Stacks}

include built lookBack

/-- A computation has the same outcome in both runs, and leaves related stacks behind. -/
theorem Simulates.computation (sim : (new pkt).Simulates now cur full) {p : PubPktPtr}
    (le : now ≤ p.getTimeStamp) (idle : (full.states 0).received = []) :
    (new pkt).SameOutcome ((new pkt).computationWith (new pkt).clearStacks cur p)
        ((new pkt).computationWith id full p) ∧
      (new pkt).Simulates p.getTimeStamp
        ((new pkt).computationWith (new pkt).clearStacks cur p).after
        ((new pkt).computationWith id full p).after := by
  have idleCur : (cur.states 0).received = [] := by
    apply List.eq_nil_iff_forall_not_mem.mpr
    intro q mem
    have := (sim.states 0).mem_full mem
    rw [idle] at this
    cases this
  have during : (new pkt).Simulates p.getTimeStamp
      ((new pkt).clearStacks (cur.pushTerminator p)) (full.pushTerminator p) :=
    (sim.pushTerminator le idleCur idle).clearStacks
  have terminator : (((new pkt).clearStacks (cur.pushTerminator p)).states 0).received = [p] := by
    rw [clearStacks_states_zero]
    simp [Stacks.pushTerminator, idleCur]
  obtain ⟨same, made⟩ :=
    during.getPartialResults_eq built lookBack (terminator ▸ List.mem_singleton.mpr rfl)
  have windows := fun pe mem => during.sameWindows built lookBack (made pe mem)
  refine ⟨⟨same.symm, windows, ?_⟩, ?_⟩
  · simp only [computationWith, id_eq, same]
    apply List.map_congr_left
    intro pe mem
    split
    · rw [terminator]
      simp [Stacks.pushTerminator, idle]
    · exact generateCompositeEvent_congr (windows pe (List.mem_of_mem_filter mem)) _
  · simp only [computationWith, id_eq, same]
    exact (during.removeConsumedEvent _).popTerminator

omit lookBack built in
theorem after_idle (r : StacksRule) (clear : Stacks → Stacks) (st : Stacks) (p : PubPktPtr) :
    ((r.computationWith clear st p).after.states 0).received = [] := by
  simp [computationWith, Stacks.popTerminator]

/-- The computations of two related runs have the same outcomes. -/
theorem Simulates.computations (sim : (new pkt).Simulates now cur full)
    (idle : (full.states 0).received = []) {calls : List Call}
    (valid : ∀ c ∈ calls, c.Valid (new pkt)) (from_now : ∀ c ∈ calls, now ≤ c.getTimeStamp)
    (ordered : calls.Pairwise fun c c' => c.getTimeStamp ≤ c'.getTimeStamp) :
    List.Forall₂ (new pkt).SameOutcome
      ((new pkt).computationsWith (new pkt).clearStacks cur calls)
      ((new pkt).computationsWith id full calls) := by
  induction calls generalizing now cur full with
  | nil => exact .nil
  | cons c rest ih =>
      obtain ⟨first, rest_ordered⟩ := List.pairwise_cons.mp ordered
      have le := from_now c List.mem_cons_self
      have rest_valid := fun c' mem => valid c' (List.mem_cons_of_mem c mem)
      cases c with
      | addToStack p i =>
          have pos : 1 ≤ i := (valid _ List.mem_cons_self).1
          refine ih (sim.addToStack le i) ?_ rest_valid first rest_ordered
          simp only [stepWith, Stacks.addToStack]
          rw [Function.update_of_ne (by omega)]
          exact idle
      | addToNegationStack p k =>
          exact ih (sim.addToNegationStack le k) idle rest_valid first rest_ordered
      | addToAggregateStack p k =>
          exact ih (sim.addToAggregateStack le k) idle rest_valid first rest_ordered
      | startComputation p =>
          obtain ⟨same, after⟩ := sim.computation built lookBack le idle
          exact .cons same (ih after (after_idle _ _ _ _) rest_valid first rest_ordered)

end Runs

end StacksRule

/-- Expiry is invisible: in a run whose timestamps never decrease, every computation has the partial
results, the packets in the aggregates' windows and the generated events that it would have if
nothing ever expired. -/
theorem computations_sameOutcome (pkt : RulePkt) (calls : List Call) (built : pkt.Built)
    (lookBack : pkt.LooksBackLocally) (valid : ∀ c ∈ calls, c.Valid (StacksRule.new pkt))
    (ordered : calls.Pairwise fun c c' => c.getTimeStamp ≤ c'.getTimeStamp) :
    List.Forall₂ (StacksRule.new pkt).SameOutcome
      ((StacksRule.new pkt).computationsWith (StacksRule.new pkt).clearStacks .initial calls)
      ((StacksRule.new pkt).computationsWith id .initial calls) :=
  StacksRule.Simulates.initial.computations built lookBack rfl valid
    (fun _ _ => Nat.zero_le _) ordered

theorem fireRule_looksBackLocally : RulePkt.fireRule.LooksBackLocally := by
  refine ⟨RulePkt.fireRule_refersBack, ?_, by simp [RulePkt.fireRule]⟩
  intro n mem
  simp only [RulePkt.fireRule, List.mem_singleton] at mem
  subst mem
  exact .inr ⟨_, rfl, rfl⟩

/-- A temperature too old for the first smoke, and one that rain separates from the second. -/
def expiringCalls : List Call :=
  [.addToStack (reading 1 2 10) 1, .startComputation (reading 2 1 400),
    .addToStack (reading 3 2 500) 1, .addToNegationStack (reading 4 3 520) 0,
    .startComputation (reading 5 1 600)]

theorem fireRule_computations_sameOutcome :
    (((StacksRule.new RulePkt.fireRule).runWith id .initial expiringCalls).states 1).received ≠
        (((StacksRule.new RulePkt.fireRule).run .initial expiringCalls).states 1).received ∧
      List.Forall₂ (StacksRule.new RulePkt.fireRule).SameOutcome
        ((StacksRule.new RulePkt.fireRule).computationsWith
          (StacksRule.new RulePkt.fireRule).clearStacks .initial expiringCalls)
        ((StacksRule.new RulePkt.fireRule).computationsWith id .initial expiringCalls) :=
  ⟨by decide, computations_sameOutcome _ _ RulePkt.fireRule_built fireRule_looksBackLocally (by
    intro c mem
    simp only [expiringCalls, List.mem_cons, List.not_mem_nil, or_false] at mem
    rcases mem with rfl | rfl | rfl | rfl | rfl <;> simp [Call.Valid, RulePkt.fireRule])
      (by decide)⟩

end TRex
