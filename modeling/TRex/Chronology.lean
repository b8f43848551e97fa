import TRex.EngineDetection
import TRex.PartialResults
import TRex.StacksInvariant

/-!
# The time of composite events

A composite event has the timestamp of the packet that its rule's root took. A packet that is fed
back has its composite event's timestamp, so all that a publication makes the engine hand out, fed
back or not, has the publication's time (`delivered_times`). -/

namespace TRex

open Feedback

namespace StacksRule

variable {r : StacksRule} {st : Stacks} {p : PubPktPtr} {x : PubPkt}

theorem time_of_mem_results (inv : st.Inv) (mem : x ∈ (r.startComputation st p).results) :
    x.timeStamp = p.getTimeStamp := by
  have ordered : (r.clearStacks (st.pushTerminator p)).Ordered :=
    r.clearStacks_ordered (inv.pushTerminator p)
  have root : ((r.clearStacks (st.pushTerminator p)).states 0).received = [p] := by
    rw [clearStacks_states_zero]
    simp [Stacks.pushTerminator, inv.terminator]
  obtain ⟨pe, valid, rfl⟩ := List.mem_map.mp mem
  split
  case isTrue =>
    show timeAt ((r.clearStacks (st.pushTerminator p)).states 0).received 0 = p.getTimeStamp
    rw [root]
    rfl
  case isFalse =>
    have found := mem_partials_of_mem_getPartialResults ordered.states
      (List.mem_of_mem_filter valid)
    exact PartialEvent.timeOf_of_some (indexes_zero_of_mem found)

end StacksRule

section Engine

variable {alloc : Nat → Nat} {numProc : Nat} {rules : List RulePkt} {place : Placement}
  {order : SetOrder} {before : List PubPkt} {c : Contents} {pkt : PubPkt}

open TRexEngine (installAll)

/-- The stacks are sorted, and what was delivered since `before` happened at one time. -/
structure AtTime (now : Nat) (before : List PubPkt) (c : Contents) : Prop where
  inv : ∀ id, (c.stacks id).Inv
  since : ∃ block, c.delivered = before ++ block ∧ ∀ x ∈ block, x.timeStamp = now

/-- A call for a packet keeps the stacks sorted and generates packets of the packet's time. -/
theorem act_time (ids : (rules.map RulePkt.ruleId).Nodup) {ptr : PubPktPtr} {x : Nat × Call}
    (mem : x ∈ (installAll alloc numProc rules).allCalls
      ((installAll alloc numProc rules).indexingTable.processMessage ptr.pkt .empty) ptr)
    {st : Stacks} (inv : st.Inv) :
    ((installAll alloc numProc rules).system.act x st).1.Inv ∧
      ∀ y ∈ ((installAll alloc numProc rules).system.act x st).2,
        y.timeStamp = ptr.getTimeStamp := by
  obtain ⟨w, -, isCall⟩ := List.mem_flatMap.mp mem
  obtain ⟨forPtr, -, r, found, made⟩ := made_of_mem_workerCalls ids isCall
  rw [TRexEngine.act_fst found]
  refine ⟨r.step_inv inv made.valid, fun y generated => ?_⟩
  obtain ⟨id, call⟩ := x
  simp only [TRexEngine.system, found] at generated
  cases call with
  | startComputation p =>
      subst forPtr
      exact StacksRule.time_of_mem_results inv generated
  | addToStack p i => cases generated
  | addToNegationStack p i => cases generated
  | addToAggregateStack p i => cases generated

theorem AtTime.evaluate (ids : (rules.map RulePkt.ruleId).Nodup)
    (atTime : AtTime pkt.timeStamp before c) :
    AtTime pkt.timeStamp before ((installAll alloc numProc rules).evaluate place order c pkt).1 ∧
      ∀ x ∈ ((installAll alloc numProc rules).evaluate place order c pkt).2,
        x.timeStamp = pkt.timeStamp := by
  obtain ⟨inv, block, added, times⟩ := atTime
  have keeps := fun ptr x mem st inv =>
    @act_time alloc numProc rules ids ptr x mem st inv
  generalize installAll alloc numProc rules = engine at *
  let ptr : PubPktPtr := ⟨place.pick ((engine.held c.stacks).map PubPktPtr.addr), pkt⟩
  have generated := @Interleave.forall_mem_run _ _ _ _ _ engine.system (fun _ st => st.Inv)
    (fun y => y.timeStamp = ptr.getTimeStamp) _ (keeps ptr) c.stacks inv
  have result : ∀ x ∈ (engine.evaluate place order c pkt).2, x.timeStamp = pkt.timeStamp :=
    fun x mem => generated x ((order.perm _ _).mem_iff.mp mem)
  refine ⟨⟨fun id => ?_, block ++ (engine.evaluate place order c pkt).2, ?_, ?_⟩, result⟩
  · exact @Interleave.run_induct _ _ _ _ _ engine.system (fun _ st => st.Inv) _
      (fun x mem st inv => (keeps ptr x mem st inv).1) c.stacks inv id
  · rw [delivered_evaluate, added, List.append_assoc]
  · exact List.forall_mem_append.mpr ⟨times, result⟩

theorem AtTime.walk (ids : (rules.map RulePkt.ruleId).Nodup) {now limit depth : Nat}
    {admits : Nat → Bool} {w : Walk Contents PubPkt} (atTime : AtTime now before w.state)
    {events : List PubPkt} (all : ∀ x ∈ events, x.timeStamp = now) :
    AtTime now before (Feedback.walk ((installAll alloc numProc rules).feedback place order) admits
      limit depth w events).state := by
  have keeps : ∀ c x, x.timeStamp = now → AtTime now before c →
      AtTime now before (((installAll alloc numProc rules).feedback place order).react c x).1 ∧
        ∀ y ∈ (((installAll alloc numProc rules).feedback place order).react c x).2,
          y.timeStamp = now := by
    intro c x isNow atTime
    subst isNow
    exact @AtTime.evaluate alloc numProc rules place order before c x.copy ids atTime
  exact walk_keeps keeps atTime all

end Engine

open RecursiveEngine (Operation rulesOf)

/-! ## What each publication makes the engine hand out -/

section Runs

variable (alloc : Nat → Nat) (place : Placement) (order : SetOrder) (numProc : Nat)

/-- A run, with the packets that each publication of it adds to those delivered. -/
inductive HandsOut : List Operation → RecursiveEngine → List (PubPkt × List PubPkt) → Prop
  | start : HandsOut [] (.finalize numProc) []
  | processRulePkt {ops : List Operation} {e : RecursiveEngine}
      {handed : List (PubPkt × List PubPkt)} (rule : RulePkt) (before : HandsOut ops e handed) :
      HandsOut (ops ++ [.processRulePkt rule]) (e.processRulePkt alloc rule) handed
  | processPubPkt {ops : List Operation} {e e' : RecursiveEngine}
      {handed : List (PubPkt × List PubPkt)} {pkt : PubPkt} {block : List PubPkt}
      (before : HandsOut ops e handed)
      (now : e.step alloc place order (.processPubPkt pkt) = some e')
      (added : e'.contents.delivered = e.contents.delivered ++ block) :
      HandsOut (ops ++ [.processPubPkt pkt]) e' (handed ++ [(pkt, block)])

end Runs

/-- All that a publication hands out has its time. -/
def AtTheirTimes (handed : List (PubPkt × List PubPkt)) : Prop :=
  ∀ x ∈ handed, ∀ y ∈ x.2, y.timeStamp = x.1.timeStamp

section Runs

variable {alloc : Nat → Nat} {place : Placement} {order : SetOrder} {numProc : Nat}
  {ops : List Operation} {e : RecursiveEngine} {handed : List (PubPkt × List PubPkt)}

namespace HandsOut

theorem run (handsOut : HandsOut alloc place order numProc ops e handed) :
    RecursiveEngine.run alloc place order (.finalize numProc) ops = some e := by
  induction handsOut with
  | start => rfl
  | processRulePkt rule before ih => exact RecursiveEngine.run_snoc ih rfl
  | processPubPkt before now added ih => exact RecursiveEngine.run_snoc ih now

theorem publications (handsOut : HandsOut alloc place order numProc ops e handed) :
    handed.map Prod.fst = publicationsOf ops := by
  induction handsOut with
  | start => rfl
  | processRulePkt rule before ih =>
      rw [publicationsOf_append, ih]
      exact (List.append_nil _).symm
  | processPubPkt before now added ih =>
      rw [publicationsOf_append, ← ih, List.map_append]
      rfl

/-- What is delivered is one block for each publication, in their order. -/
theorem delivered (handsOut : HandsOut alloc place order numProc ops e handed) :
    e.contents.delivered = handed.flatMap Prod.snd := by
  induction handsOut with
  | start => rfl
  | processRulePkt rule before ih => rw [RecursiveEngine.contents_processRulePkt, ih]
  | processPubPkt before now added ih =>
      rw [added, ih, List.flatMap_append, List.flatMap_singleton]

end HandsOut

/-- Publications in the order of time hand out packets in the order of time. -/
theorem AtTheirTimes.pairwise (atTimes : AtTheirTimes handed)
    (times : (handed.map Prod.fst).Pairwise fun pkt later => pkt.timeStamp ≤ later.timeStamp) :
    (handed.flatMap Prod.snd).Pairwise fun x y => x.timeStamp ≤ y.timeStamp := by
  induction handed with
  | nil => exact .nil
  | cons first rest ih =>
      obtain ⟨here, there⟩ := List.forall_mem_cons.mp atTimes
      obtain ⟨notLater, times'⟩ := List.pairwise_cons.mp times
      rw [List.flatMap_cons, List.pairwise_append]
      refine ⟨?_, ih there times', fun x isHere y isThere => ?_⟩
      · exact List.pairwise_of_forall_mem_list fun x isHere y isHere' =>
          Nat.le_of_eq ((here x isHere).trans (here y isHere').symm)
      · obtain ⟨z, isBlock, mem⟩ := List.mem_flatMap.mp isThere
        rw [here x isHere, there z isBlock y mem]
        exact notLater z.1 (List.mem_map_of_mem isBlock)

/-- A publication that finds the stacks sorted leaves them sorted, and what it hands out has its
time. -/
theorem exists_handsOut (ids : ((rulesOf ops).map RulePkt.ruleId).Nodup)
    (reached : RecursiveEngine.run alloc place order (.finalize numProc) ops = some e) :
    (∀ id, (e.contents.stacks id).Inv) ∧
      ∃ handed, HandsOut alloc place order numProc ops e handed ∧ AtTheirTimes handed := by
  induction ops using List.reverseRecOn generalizing e with
  | nil =>
      cases reached
      exact ⟨fun _ => Stacks.inv_initial, [], .start, fun x mem => nomatch mem⟩
  | append_singleton ops op ih =>
      obtain ⟨mid, run, now⟩ := RecursiveEngine.run_concat alloc place order reached
      have engine := RecursiveEngine.toTRexEngine_run rfl run
      have idsBefore : ((rulesOf ops).map RulePkt.ruleId).Nodup := by
        rw [RecursiveEngine.rulesOf_append, List.map_append] at ids
        exact (List.nodup_append.mp ids).1
      obtain ⟨inv, handed, handsOut, atTimes⟩ := ih idsBefore run
      cases op with
      | processRulePkt rule =>
          cases now
          rw [RecursiveEngine.contents_processRulePkt]
          exact ⟨inv, handed, handsOut.processRulePkt rule, atTimes⟩
      | processPubPkt pkt =>
          have walked : AtTime pkt.timeStamp mid.contents.delivered e.contents := by
            have start : AtTime pkt.timeStamp mid.contents.delivered mid.contents :=
              ⟨inv, [], (List.append_nil _).symm, fun x mem => nomatch mem⟩
            obtain ⟨first, results⟩ :=
              @AtTime.evaluate alloc numProc _ place order _ _ _ idsBefore start
            rw [RecursiveEngine.step_processPubPkt] at now
            cases now
            show AtTime _ _ (RecursiveEngine.walkOf place order mid pkt).state
            rw [RecursiveEngine.walkOf_eq, engine]
            exact AtTime.walk idsBefore first results
          obtain ⟨block, added, times⟩ := walked.since
          exact ⟨walked.inv, handed ++ [(pkt, block)], handsOut.processPubPkt now added,
            List.forall_mem_append.mpr ⟨atTimes, List.forall_mem_singleton.mpr times⟩⟩

end Runs

/-- All that a publication makes the engine hand out has the publication's time, and what is
delivered comes in the order of the publications. -/
theorem delivered_times (alloc : Nat → Nat) (place : Placement) (order : SetOrder) (numProc : Nat)
    (ops : List Operation) (ids : ((rulesOf ops).map RulePkt.ruleId).Nodup) :
    ∃ e handed, RecursiveEngine.run alloc place order (.finalize numProc) ops = some e ∧
      HandsOut alloc place order numProc ops e handed ∧
      handed.map Prod.fst = publicationsOf ops ∧
      e.contents.delivered = handed.flatMap Prod.snd ∧ AtTheirTimes handed ∧
      (((publicationsOf ops).Pairwise fun pkt later => pkt.timeStamp ≤ later.timeStamp) →
        e.contents.delivered.Pairwise fun x y => x.timeStamp ≤ y.timeStamp) := by
  obtain ⟨e, reached⟩ := Option.ne_none_iff_exists'.mp
    (@RecursiveEngine.run_ne_none alloc place order (.finalize numProc) ops)
  obtain ⟨-, handed, handsOut, atTimes⟩ := exists_handsOut ids reached
  refine ⟨e, handed, reached, handsOut, handsOut.publications, handsOut.delivered, atTimes, ?_⟩
  intro times
  rw [handsOut.delivered]
  exact atTimes.pairwise (handsOut.publications ▸ times)

/-! Two warnings and their calls, all at the time of the alarm. -/

theorem alarm_delivered_times :
    ((RecursiveEngine.run id .above .asGenerated (.finalize 2)
        (smokes 2 ++ [.processPubPkt alarm])).map
        fun e => e.contents.delivered.map PubPkt.timeStamp) = some [50, 50, 50, 50] ∧
      ∃ e handed, RecursiveEngine.run id .above .asGenerated (.finalize 2)
          (smokes 2 ++ [.processPubPkt alarm]) = some e ∧
        HandsOut id .above .asGenerated 2 (smokes 2 ++ [.processPubPkt alarm]) e handed ∧
        handed.map Prod.fst = publicationsOf (smokes 2 ++ [.processPubPkt alarm]) ∧
        e.contents.delivered = handed.flatMap Prod.snd ∧ AtTheirTimes handed ∧
        (((publicationsOf (smokes 2 ++ [.processPubPkt alarm])).Pairwise
            fun pkt later => pkt.timeStamp ≤ later.timeStamp) →
          e.contents.delivered.Pairwise fun x y => x.timeStamp ≤ y.timeStamp) :=
  ⟨by decide +kernel, delivered_times id .above .asGenerated 2 (smokes 2 ++ [.processPubPkt alarm])
    (by decide)⟩

end TRex
