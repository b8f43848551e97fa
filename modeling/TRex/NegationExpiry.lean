import Mathlib.Data.List.Induction
import TRex.Expiry
import TRex.PatternSemantics

/-!
# Expiry of a negation between two states

The events of two states may lie as far apart as the windows on all the links between them, the
span `getWinBetween` adds up. `clearStacks` keeps the events of a negation only for the window of
its lower state, so on a chain of several links it may drop an event that still separates the two
states. `negationSurvives_of_gapFree` shows that this is the only way an invalidated result is
returned: in a run that never stores a negation event in the gap between the two spans, no partial
result has a received event of the negation between its two states. `chainRule` is a rule on which a
run with such an event returns a result it should not.
-/

namespace TRex

open StacksRule (new)

/-! ## The span between two states -/

section Span

variable {pkt : RulePkt}

/-- Below the root there is nothing to reach. -/
theorem winBetweenLoop_eq_none (bounded : pkt.Bounded) {target : Int} (nonneg : 0 ≤ target)
    (fuel : Nat) {current : Int} (le : current ≤ 0) (ne : current ≠ target) (acc : Nat) :
    pkt.winBetweenLoop target fuel current acc = none := by
  induction fuel generalizing current acc with
  | zero => rfl
  | succ fuel ih =>
      rw [RulePkt.winBetweenLoop, if_neg ne, show current.toNat = 0 by omega]
      cases lookup : pkt.predicates[0]? with
      | none => rfl
      | some p =>
          simp only [bounded.root p lookup]
          exact ih (by omega) (by omega) _

/-- Each state's event is inside its window before the event it refers to. -/
def InWindows (pkt : RulePkt) (pe : PartialEvent) : Prop :=
  ∀ (i : Nat) (p : Predicate), pkt.predicates[i]? = some p → 1 ≤ i →
    pe.timeOf p.refersTo - p.win < pe.timeOf i

/-- The windows on the links add up. -/
theorem timeOf_lt_of_winBetweenLoop (bounded : pkt.Bounded) {pe : PartialEvent}
    (windows : InWindows pkt pe) {target : Int} (nonneg : 0 ≤ target) {fuel acc span : Nat}
    {current : Int} (met : pkt.winBetweenLoop target fuel current acc = some span) :
    acc ≤ span ∧ (current = target ∨ pe.timeOf target < pe.timeOf current + (span - acc)) := by
  induction fuel generalizing current acc with
  | zero => cases met
  | succ fuel ih =>
      by_cases arrived : current = target
      · rw [RulePkt.winBetweenLoop, if_pos arrived, Option.some.injEq] at met
        exact ⟨by omega, .inl arrived⟩
      rcases Int.lt_or_le 0 current with pos | le
      · rw [RulePkt.winBetweenLoop, if_neg arrived] at met
        cases lookup : pkt.predicates[current.toNat]? with
        | none =>
            rw [lookup] at met
            cases met
        | some p =>
            rw [lookup] at met
            obtain ⟨le, rest⟩ := ih met
            have window := windows current.toNat p lookup (by omega)
            rw [show ((current.toNat : Nat) : Int) = current by omega] at window
            refine ⟨by omega, .inr ?_⟩
            rcases rest with same | below
            · rw [same] at window
              omega
            · omega
      · rw [winBetweenLoop_eq_none bounded nonneg _ le arrived] at met
        cases met

/-- The lower state's event lies in the span of the chain before the upper state's. -/
theorem timeOf_sub_le_of_getWinBetween (bounded : pkt.Bounded) {pe : PartialEvent}
    (windows : InWindows pkt pe) {upper lower : Int} (nonneg : 0 ≤ upper) {span : Nat}
    (met : pkt.getWinBetween upper lower = some span) :
    pe.timeOf upper - span ≤ pe.timeOf lower := by
  obtain ⟨-, same | below⟩ := timeOf_lt_of_winBetweenLoop bounded windows nonneg met
  · rw [same]
    omega
  · omega

end Span

/-! ## What a partial result was checked for -/

/-- A partial result over the states up to `k`: made of stored packets of the right windows, and not
invalidated by the negations linked to each state when that state was assigned. -/
structure Traced (pkt : RulePkt) (st : Stacks) (k : Nat) (pe : PartialEvent) : Prop where
  supported : Supported st (k + 1) pe
  windows : ∀ (i : Nat) (p : Predicate), pkt.predicates[i]? = some p → 1 ≤ i → i ≤ k →
    pe.timeOf p.refersTo - p.win < pe.timeOf i
  checked : ∀ i, 1 ≤ i → i ≤ k → ∀ neg ∈ (new pkt).getLinkedNegations i,
    ∃ front : PartialEvent, front.AgreeBelow (i + 1) pe ∧
      (new pkt).checkNegation st neg front = false

section Traced

variable {pkt : RulePkt} {st : Stacks}

theorem agreeBelow_set (pe : PartialEvent) (i : Nat) (e : PubPktPtr) :
    pe.AgreeBelow i (pe.set i e) := by
  intro j lt
  rw [PartialEvent.set_of_ne pe e (by omega)]

/-- Extending a traced result by the next state. -/
theorem Traced.extend {k : Nat} {pe pe' : PartialEvent} (refersBack : pkt.RefersBack)
    (traced : Traced pkt st k pe) (mem : pe' ∈ (new pkt).extendOne st (k + 1) pe) :
    Traced pkt st (k + 1) pe' := by
  have supported := (new pkt).supported_of_mem_extendOne traced.supported mem
  obtain ⟨e, chosen, rfl⟩ := List.mem_map.mp mem
  have agree : pe.AgreeBelow (k + 1) (pe.set (k + 1) e) := agreeBelow_set pe (k + 1) e
  obtain ⟨-, after, -⟩ := mem_between.mp ((new pkt).mem_between_of_mem_extensions chosen)
  have accepted := (List.mem_filter.mp (StacksRule.mem_of_mem_picks chosen)).2
  refine ⟨supported, ?_, ?_⟩
  · intro i p lookup pos le
    have back := refersBack i p lookup pos
    have reference : (pe.set (k + 1) e).timeOf p.refersTo = pe.timeOf p.refersTo :=
      (agree.timeOf (by omega) (by omega)).symm
    rw [reference]
    rcases Nat.lt_or_eq_of_le le with less | rfl
    · rw [← agree.timeOf (by omega) (by omega)]
      exact traced.windows i p lookup pos (by omega)
    · have assigned : (pe.set (k + 1) e).timeOf ((k + 1 : Nat) : Int) = e.getTimeStamp :=
        PartialEvent.timeOf_of_some (by simp)
      rw [assigned, ← StacksRule.new_getWindow lookup,
        ← StacksRule.new_referenceState lookup back.1]
      exact after
  · intro i pos le neg linked
    rcases Nat.lt_or_eq_of_le le with less | rfl
    · obtain ⟨front, same, valid⟩ := traced.checked i pos (by omega) neg linked
      refine ⟨front, fun j lt => ?_, valid⟩
      rw [same j lt, agree j (by omega)]
    · refine ⟨pe.set (k + 1) e, fun j _ => rfl, ?_⟩
      unfold StacksRule.accepts at accepted
      simp only [Bool.and_eq_true, Bool.not_eq_true', List.any_eq_false] at accepted
      exact Bool.eq_false_iff.mpr (accepted.2 neg linked)

/-- Every partial result is traced. -/
theorem traced_of_mem_getPartialResults (refersBack : pkt.RefersBack)
    (states : ∀ i, (st.states i).Inv) {t : PubPktPtr} (terminator : t ∈ (st.states 0).received)
    {pe : PartialEvent} (mem : pe ∈ (new pkt).getPartialResults st t) :
    Traced pkt st (pkt.predicates.length - 1) pe := by
  have loop : ∀ k, ∀ pe ∈ (List.range' 1 k).foldl
      (fun events i => events.flatMap ((new pkt).extendOne st i)) [PartialEvent.empty.set 0 t],
      Traced pkt st k pe := by
    intro k
    induction k with
    | zero =>
        intro pe mem
        rw [List.mem_singleton.mp mem]
        exact ⟨@Supported.set st 0 PartialEvent.empty (by intro j lt; omega) t terminator,
          by intros; omega, by intros; omega⟩
    | succ k ih =>
        intro pe mem
        rw [List.range'_1_concat, List.foldl_concat, Nat.add_comm 1 k] at mem
        obtain ⟨front, inFront, extended⟩ := List.mem_flatMap.mp mem
        exact (ih front inFront).extend refersBack extended
  rw [(new pkt).getPartialResults_eq states, StacksRule.new_stacksNum] at mem
  split at mem
  · cases mem
  · exact loop _ pe mem

/-- No stored event of a negation between states invalidates a traced result, if the negation's
parameters read nothing that is assigned after its lower state. -/
theorem Traced.not_invalidated (built : pkt.Built) (negs : ∀ k, (st.negs k).Inv) {pe : PartialEvent}
    (traced : Traced pkt st (pkt.predicates.length - 1) pe) {k : Nat} {n : Negation}
    (lookup : pkt.negations[k]? = some n) (states : 0 ≤ n.lowerId)
    (reads : ∀ par ∈ pkt.complexParameters, par.type = .neg → par.lastIndex = k →
      par.ReadsNegationOrStatesUpTo n.lowerId) :
    ¬ Invalidated pkt st pe k n := by
  have bounds := built.bounded.negations n (List.mem_of_getElem? lookup)
  obtain ⟨nonneg, -, exists_, ordered⟩ := id bounds
  have linked : n.LinkedTo n.lowerId.toNat := .inl (by omega)
  have listed : k ∈ (new pkt).getLinkedNegations n.lowerId.toNat :=
    (StacksRule.mem_new_getLinkedNegations (by omega)).mpr
      ⟨n, lookup, linkedState_eq_iff.mpr linked⟩
  obtain ⟨front, agree, valid⟩ := traced.checked n.lowerId.toNat (by omega) (by omega) k listed
  rintro ⟨e, stored, after, before, parameters⟩
  -- the same event invalidates the result as it was when the negation was checked
  have found : (new pkt).checkNegation st k front = true := by
    rw [(new pkt).checkNegation_iff (negs k) lookup, negationBounds_congr bounds linked agree]
    refine ⟨e, mem_between.mpr ⟨stored, after, before⟩, ?_⟩
    refine (parametersHold_iff .neg k e).mpr fun par mem type filed => ?_
    have read := reads par mem type filed
    rw [show n.lowerId = (n.lowerId.toNat : Int) by omega] at read
    rw [checkComplexParameter_congr (read.sameSources agree)]
    exact parameters par mem type filed
  rw [valid] at found
  cases found

end Traced

/-! ## The history of a negation -/

/-- The packets a run adds to the stack of a negation, in order. -/
def negsReceived (k : Nat) (calls : List Call) : List PubPktPtr :=
  calls.filterMap fun
    | .addToNegationStack p j => if j = k then some p else none
    | _ => none

theorem mem_negsReceived {k : Nat} {calls : List Call} {p : PubPktPtr} :
    p ∈ negsReceived k calls ↔ .addToNegationStack p k ∈ calls := by
  unfold negsReceived
  rw [List.mem_filterMap]
  constructor
  · rintro ⟨c, mem, kept⟩
    cases c with
    | addToNegationStack q j =>
        simp only [Option.ite_none_right_eq_some, Option.some.injEq] at kept
        rw [← kept.1, ← kept.2]
        exact mem
    | addToStack q i => cases kept
    | addToAggregateStack q i => cases kept
    | startComputation q => cases kept
  · intro mem
    exact ⟨_, mem, by simp⟩

/-- What `clearStacks` is about to drop from the negation's stack lies outside the whole span: no
stored event is as old as the cutoff and still within `span` of the oldest event of the upper state,
once the stacks of the states have been cleared. -/
def GapFree (r : StacksRule) (k : Nat) (n : Negation) (span : Nat) (st : Stacks) (p : PubPktPtr) :
    Prop :=
  let upper := (r.clearStates (st.pushTerminator p)).states n.upperId.toNat
  upper.size ≠ 0 → ∀ e ∈ (st.negs k).received,
    e.getTimeStamp ≤ timeAt upper.received 0 - r.negationWindow n →
      e.getTimeStamp ≤ timeAt upper.received 0 - span

/-- The stacks of a run in which the negation has received `history`: what is missing from its stack
lies outside the span of every present and future event of the upper state. -/
structure NegationWatched (k : Nat) (n : Negation) (span now : Nat) (history : List PubPktPtr)
    (st : Stacks) : Prop where
  past : ∀ i, ∀ q ∈ (st.states i).received, q.getTimeStamp ≤ now
  kept : Trims (Obsolete now span (st.states n.upperId.toNat)) now (st.negs k)
    ⟨history.length, history⟩

namespace NegationWatched

variable {r : StacksRule} {k : Nat} {n : Negation} {span now now' : Nat}
  {history : List PubPktPtr} {st st' : Stacks}

theorem initial : NegationWatched k n span 0 [] .initial :=
  ⟨by simp [Stacks.initial, Column.empty],
    Trims.refl Column.inv_empty (by simp [Stacks.initial, Column.empty])⟩

/-- The negation's stack stays, and the packets of the states were there before or are new. -/
theorem ofStates (watched : NegationWatched k n span now history st) (le : now ≤ now')
    (origin : ∀ i, ∀ q ∈ (st'.states i).received,
      q ∈ (st.states i).received ∨ (now ≤ q.getTimeStamp ∧ q.getTimeStamp ≤ now'))
    (same : st'.negs k = st.negs k) : NegationWatched k n span now' history st' := by
  refine ⟨fun i q mem => ?_, ?_⟩
  · rcases origin i q mem with old | ⟨-, new⟩
    · exact (watched.past i q old).trans le
    · exact new
  · rw [same]
    refine watched.kept.mono le fun e obsolete => obsolete.mono le fun q mem => ?_
    rcases origin _ q mem with old | ⟨new, -⟩
    · exact .inl old
    · exact .inr new

theorem addToStack (watched : NegationWatched k n span now history st) {p : PubPktPtr}
    (le : now ≤ p.getTimeStamp) (i : Nat) :
    NegationWatched k n span p.getTimeStamp history (st.addToStack p i) := by
  refine watched.ofStates le (fun j q mem => ?_) rfl
  rcases Stacks.mem_addToStack mem with old | ⟨-, rfl⟩
  · exact .inl old
  · exact .inr ⟨le, le_rfl⟩

/-- The negation itself receives a packet. -/
theorem addToNegationStack_self (watched : NegationWatched k n span now history st) {p : PubPktPtr}
    (le : now ≤ p.getTimeStamp) :
    NegationWatched k n span p.getTimeStamp (history ++ [p]) (st.addToNegationStack p k) := by
  have later : NegationWatched k n span p.getTimeStamp history st :=
    watched.ofStates le (fun _ _ mem => .inl mem) rfl
  refine ⟨later.past, ?_⟩
  have added := later.kept.add le_rfl
  rw [later.kept.invFull.add_newest later.kept.past] at added
  simpa [Stacks.addToNegationStack] using added

theorem addToNegationStack_of_ne (watched : NegationWatched k n span now history st) {p : PubPktPtr}
    (le : now ≤ p.getTimeStamp) {j : Nat} (ne : k ≠ j) :
    NegationWatched k n span p.getTimeStamp history (st.addToNegationStack p j) :=
  watched.ofStates le (fun _ _ mem => .inl mem) (Function.update_of_ne ne _ _)

/-! ### A computation -/

theorem pushTerminator (watched : NegationWatched k n span now history st) (inv : st.Inv)
    {p : PubPktPtr} (le : now ≤ p.getTimeStamp) :
    NegationWatched k n span p.getTimeStamp history (st.pushTerminator p) := by
  refine watched.ofStates le (fun j q mem => ?_) rfl
  simp only [Stacks.pushTerminator, inv.terminator] at mem
  rcases eq_or_ne j 0 with rfl | ne
  · rw [Function.update_self] at mem
    rw [List.mem_singleton.mp mem]
    exact .inr ⟨le, le_rfl⟩
  · rw [Function.update_of_ne ne] at mem
    exact .inl mem

/-- The expiry of the states drops packets of the states only. -/
theorem clearStates (watched : NegationWatched k n span now history st) :
    NegationWatched k n span now history (r.clearStates st) :=
  watched.ofStates le_rfl (fun _ _ mem => .inl (r.mem_clearStates mem))
    (congrFun (r.clearStates_negs st) k)

/-- The turn of the negation itself, when nothing in the gap is dropped. -/
theorem clearNegation_self (watched : NegationWatched k n span now history st)
    (inv : (st.states n.upperId.toNat).Inv) (lookup : r.negations[k]? = some n)
    (gapFree : (st.states n.upperId.toNat).size ≠ 0 → ∀ e ∈ (st.negs k).received,
      e.getTimeStamp ≤ timeAt (st.states n.upperId.toNat).received 0 - r.negationWindow n →
        e.getTimeStamp ≤ timeAt (st.states n.upperId.toNat).received 0 - span) :
    NegationWatched k n span now history (r.clearNegation st k) := by
  unfold StacksRule.clearNegation
  simp only [lookup]
  split
  case isTrue => exact watched
  case isFalse nonempty =>
    refine ⟨watched.past, ?_⟩
    simp only [Function.update_self]
    exact watched.kept.removeOld fun e mem old =>
      obsolete_of_le_cutoff inv nonempty (watched.past _) (gapFree nonempty e mem old)

theorem mem_of_mem_clearNegation {j : Nat} {e : PubPktPtr}
    (mem : e ∈ ((r.clearNegation st j).negs j).received) : e ∈ (st.negs j).received := by
  rcases r.clearNegation_cases st j with same | ⟨minTS, dropped⟩
  · rwa [same] at mem
  · rw [dropped] at mem
    simp only [Function.update_self] at mem
    exact Column.mem_removeOld mem

/-- The turns of the other negations. -/
theorem clearNegation_of_ne {j : Nat} (ne : k ≠ j) :
    (r.clearNegation st j).negs k = st.negs k := by
  rcases r.clearNegation_cases st j with same | ⟨minTS, dropped⟩
  · rw [same]
  · rw [dropped]
    exact Function.update_of_ne ne _ _

/-- The expiry of the negations, when nothing in the gap is dropped. -/
theorem clearNegations (watched : NegationWatched k n span now history st) (ordered : st.Ordered)
    (lookup : r.negations[k]? = some n)
    (gapFree : (st.states n.upperId.toNat).size ≠ 0 → ∀ e ∈ (st.negs k).received,
      e.getTimeStamp ≤ timeAt (st.states n.upperId.toNat).received 0 - r.negationWindow n →
        e.getTimeStamp ≤ timeAt (st.states n.upperId.toNat).received 0 - span) :
    NegationWatched k n span now history (r.clearNegations st) := by
  -- the loop leaves the states alone, and its turns can only shrink the stack
  have loop : (r.clearNegations st).Ordered ∧ (r.clearNegations st).states = st.states ∧
      (∀ e ∈ ((r.clearNegations st).negs k).received, e ∈ (st.negs k).received) ∧
      NegationWatched k n span now history (r.clearNegations st) := by
    refine @List.foldlRecOn _ _ (fun st' : Stacks => st'.Ordered ∧ st'.states = st.states ∧
      (∀ e ∈ (st'.negs k).received, e ∈ (st.negs k).received) ∧
      NegationWatched k n span now history st') _ _ _ ⟨ordered, rfl, fun _ mem => mem, watched⟩ ?_
    rintro st' ⟨ordered', states, sub, watched'⟩ j -
    refine ⟨r.clearNegation_ordered j ordered', (r.clearNegation_states st' j).trans states, ?_⟩
    rcases eq_or_ne k j with rfl | ne
    · refine ⟨fun e mem => sub e (mem_of_mem_clearNegation mem),
        watched'.clearNegation_self (ordered'.states _) lookup ?_⟩
      rw [states]
      exact fun nonempty e mem => gapFree nonempty e (sub e mem)
    · rw [clearNegation_of_ne ne]
      refine ⟨sub, watched'.ofStates le_rfl (fun i q mem => .inl ?_) (clearNegation_of_ne ne)⟩
      rwa [r.clearNegation_states] at mem
  exact loop.2.2.2

theorem clearAggregates (watched : NegationWatched k n span now history st) :
    NegationWatched k n span now history (r.clearAggregates st) := by
  refine watched.ofStates le_rfl (fun i q mem => .inl ?_) (congrFun (r.clearAggregates_negs st) k)
  rwa [r.clearAggregates_states] at mem

/-- The stacks while the partial results are collected. -/
theorem during (watched : NegationWatched k n span now history st) (inv : st.Inv)
    (lookup : r.negations[k]? = some n) {p : PubPktPtr} (le : now ≤ p.getTimeStamp)
    (gapFree : GapFree r k n span st p) :
    NegationWatched k n span p.getTimeStamp history (r.clearStacks (st.pushTerminator p)) := by
  have pushed := inv.pushTerminator p
  have states : NegationWatched k n span p.getTimeStamp history
      (r.clearStates (st.pushTerminator p)) := (watched.pushTerminator inv le).clearStates
  refine (states.clearNegations (r.clearStates_ordered pushed) lookup ?_).clearAggregates
  rw [r.clearStates_negs]
  exact gapFree

/-- Consumption and the end of the computation only remove packets of the states. -/
theorem after (watched : NegationWatched k n span now history st)
    (partialEvents : List PartialEvent) : NegationWatched k n span now history
      (r.removeConsumedEvent st partialEvents).popTerminator := by
  refine watched.ofStates le_rfl (fun i q mem => .inl ?_)
    (congrFun (r.removeConsumedEvent_negs partialEvents st) k)
  simp only [Stacks.popTerminator] at mem
  rcases eq_or_ne i 0 with rfl | ne
  · simp at mem
  · rw [Function.update_of_ne ne] at mem
    exact r.mem_removeConsumedEvent mem

end NegationWatched

/-! ## Runs -/

/-- In the run, no computation returns a partial result that a received event of the negation
invalidates. -/
def NegationSurvives (pkt : RulePkt) (k : Nat) (n : Negation) (calls : List Call) : Prop :=
  ∀ (pre post : List Call) (p : PubPktPtr), calls = pre ++ .startComputation p :: post →
    ∀ pe ∈ ((new pkt).startComputation ((new pkt).run .initial pre) p).partialResults,
      ∀ e ∈ negsReceived k calls, ¬ (pe.timeOf n.lowerId < e.getTimeStamp ∧
        e.getTimeStamp < pe.timeOf n.upperId ∧ ParametersHold pkt .neg pe k e)

/-- Every computation of the run finds the gap empty. -/
def AlwaysGapFree (pkt : RulePkt) (k : Nat) (n : Negation) (span : Nat) (calls : List Call) :
    Prop :=
  ∀ (pre post : List Call) (p : PubPktPtr), calls = pre ++ .startComputation p :: post →
    GapFree (new pkt) k n span ((new pkt).run .initial pre) p

section Runs

variable {pkt : RulePkt} {k : Nat} {n : Negation} {span : Nat}

/-- One call keeps the negation watched. -/
theorem NegationWatched.step {now : Nat} {history : List PubPktPtr} {st : Stacks}
    (watched : NegationWatched k n span now history st) (inv : st.Inv)
    (lookup : pkt.negations[k]? = some n) {c : Call} (le : now ≤ c.getTimeStamp)
    (gapFree : ∀ p, c = .startComputation p → GapFree (new pkt) k n span st p) :
    NegationWatched k n span c.getTimeStamp (history ++ negsReceived k [c])
      ((new pkt).step st c) := by
  cases c with
  | addToStack p i =>
      rw [show negsReceived k [.addToStack p i] = [] from rfl, List.append_nil]
      exact watched.addToStack le i
  | addToNegationStack p j =>
      rcases eq_or_ne k j with rfl | ne
      · rw [show negsReceived k [.addToNegationStack p k] = [p] by simp [negsReceived]]
        exact watched.addToNegationStack_self le
      · rw [show negsReceived k [.addToNegationStack p j] = [] by simp [negsReceived, ne.symm],
          List.append_nil]
        exact watched.addToNegationStack_of_ne le ne
  | addToAggregateStack p j =>
      rw [show negsReceived k [.addToAggregateStack p j] = [] from rfl, List.append_nil]
      exact watched.ofStates le (fun _ _ mem => .inl mem) rfl
  | startComputation p =>
      rw [show negsReceived k [.startComputation p] = [] from rfl, List.append_nil]
      exact (watched.during inv lookup le (gapFree p rfl)).after _

/-- The negation stays watched along a run. -/
theorem run_watched (lookup : pkt.negations[k]? = some n) {calls : List Call}
    (valid : ∀ c ∈ calls, c.Valid (new pkt))
    (ordered : calls.Pairwise fun c c' => c.getTimeStamp ≤ c'.getTimeStamp)
    (gapFree : AlwaysGapFree pkt k n span calls) :
    ((new pkt).run .initial calls).Inv ∧
      ∃ now, (now = 0 ∨ ∃ c ∈ calls, c.getTimeStamp = now) ∧
        NegationWatched k n span now (negsReceived k calls) ((new pkt).run .initial calls) := by
  induction calls using List.reverseRecOn with
  | nil => exact ⟨Stacks.inv_initial, 0, .inl rfl, NegationWatched.initial⟩
  | append_singleton calls c ih =>
      obtain ⟨before, -, last⟩ := List.pairwise_append.mp ordered
      obtain ⟨inv, now, time, watched⟩ := ih
        (fun c' mem => valid c' (List.mem_append_left _ mem)) before
        (fun pre post p split => gapFree pre (post ++ [c]) p (by rw [split]; simp))
      have le : now ≤ c.getTimeStamp := by
        rcases time with rfl | ⟨c', mem, rfl⟩
        · exact Nat.zero_le _
        · exact last c' mem c (List.mem_singleton.mpr rfl)
      have step := watched.step inv lookup le fun p start => gapFree calls [] p (by rw [start])
      rw [show (new pkt).run .initial (calls ++ [c]) =
        (new pkt).step ((new pkt).run .initial calls) c by
          simp [StacksRule.run, StacksRule.runWith, StacksRule.step]]
      refine ⟨(new pkt).step_inv inv (valid c (by simp)), c.getTimeStamp, .inr ⟨c, by simp, rfl⟩,
        ?_⟩
      rw [show negsReceived k (calls ++ [c]) = negsReceived k calls ++ negsReceived k [c] from
        List.filterMap_append]
      exact step

/-- A partial result's events are not newer than its terminator. -/
theorem NegationWatched.timeOf_le {now : Nat} {history : List PubPktPtr} {st : Stacks} {bound : Nat}
    {pe : PartialEvent} (watched : NegationWatched k n span now history st)
    (supported : Supported st bound pe) {i : Int} (pos : 0 < bound) (lt : i < bound) :
    pe.timeOf i ≤ now := by
  obtain ⟨q, mem, time⟩ := supported.timeOf pos lt
  rw [time]
  exact watched.past _ q mem

end Runs

/-- A negation between states survives expiry in every run that leaves the gap empty. The span is
what `getWinBetween` adds up on the links from the lower state to the upper one, and the parameters
of the negation read only its event and states assigned when the lower state is. -/
theorem negationSurvives_of_gapFree (pkt : RulePkt) (k : Nat) (n : Negation) (span : Nat)
    (calls : List Call) (built : pkt.Built) (refersBack : pkt.RefersBack)
    (lookup : pkt.negations[k]? = some n) (states : 0 ≤ n.lowerId)
    (chain : pkt.getWinBetween n.upperId n.lowerId = some span)
    (reads : ∀ par ∈ pkt.complexParameters, par.type = .neg → par.lastIndex = k →
      par.ReadsNegationOrStatesUpTo n.lowerId)
    (valid : ∀ c ∈ calls, c.Valid (new pkt))
    (ordered : calls.Pairwise fun c c' => c.getTimeStamp ≤ c'.getTimeStamp)
    (gapFree : AlwaysGapFree pkt k n span calls) : NegationSurvives pkt k n calls := by
  intro pre post p split pe mem e received
  obtain ⟨nonneg, upper, lower, later⟩ := built.bounded.negations n (List.mem_of_getElem? lookup)
  have beforeLater := ordered
  rw [split] at beforeLater
  obtain ⟨preOrdered, fromHere, across⟩ := List.pairwise_append.mp beforeLater
  obtain ⟨inv, now, time, watched⟩ := run_watched lookup
    (fun c mem => valid c (by rw [split]; exact List.mem_append_left _ mem)) preOrdered
    (fun pre' post' p' split' => gapFree pre' (post' ++ .startComputation p :: post) p' (by
      rw [split, split']; simp))
  have le : now ≤ p.getTimeStamp := by
    rcases time with rfl | ⟨c, inPre, rfl⟩
    · exact Nat.zero_le _
    · exact across c inPre _ List.mem_cons_self
  -- the stacks the search reads
  have during := watched.during inv lookup le (gapFree pre post p split)
  have inOrder := (new pkt).clearStacks_ordered (inv.pushTerminator p)
  have terminator : p ∈ (((new pkt).clearStacks
      (((new pkt).run .initial pre).pushTerminator p)).states 0).received := by
    rw [StacksRule.clearStacks_states_zero]
    simp [Stacks.pushTerminator]
  have traced := traced_of_mem_getPartialResults refersBack inOrder.states terminator mem
  rintro ⟨after, before, parameters⟩
  have bounded := during.timeOf_le traced.supported (i := n.upperId) (by omega) (by omega)
  rcases List.mem_append.mp (split ▸ mem_negsReceived.mp received) with inPre | inRest
  · obtain ⟨old, history, allOld⟩ := during.kept.split
    have inHistory := mem_negsReceived.mpr inPre
    rw [show negsReceived k pre = _ from history] at inHistory
    rcases List.mem_append.mp inHistory with dropped | stored
    · -- a dropped event is outside the span of the chain
      obtain ⟨q, inUpper, upperTime⟩ :=
        traced.supported.timeOf (i := n.upperId) (by omega) (by omega)
      have outside := (allOld e dropped).current q inUpper
      have inside := timeOf_sub_le_of_getWinBetween built.bounded
        (fun i p lookup pos => traced.windows i p lookup pos (by
          have := (List.getElem?_eq_some_iff.mp lookup).1
          omega)) nonneg chain
      rw [← upperTime] at outside
      omega
    · refine traced.not_invalidated built inOrder.negs lookup states reads
        ⟨e, stored, ?_, ?_, parameters⟩
      · simpa [StacksRule.negationBounds, if_neg (show ¬ n.lowerId < 0 by omega)] using after
      · simpa [StacksRule.negationBounds] using before
  · -- an event received later is not older than the terminator
    rcases List.mem_cons.mp inRest with same | inPost
    · cases same
    · have := (List.pairwise_cons.mp fromHere).1 _ inPost
      simp only [Call.getTimeStamp, Call.pkt] at this
      omega

/-! ## A chain of two links -/

/-- An event, another within 100 before it, a third within 10 before that one, and no event of type
4 between the third and the first. -/
def chainRule : RulePkt :=
  { ruleId := 0
    predicates := [
      { eventType := 1, constraints := [], refersTo := -1, win := 0, kind := .eachWithin },
      { eventType := 2, constraints := [], refersTo := 0, win := 100, kind := .eachWithin },
      { eventType := 3, constraints := [], refersTo := 1, win := 10, kind := .eachWithin }]
    parameters := []
    negations := [{ eventType := 4, constraints := [], lowerId := 2, lowerTime := 0, upperId := 0 }]
    aggregates := []
    consuming := []
    complexParameters := []
    ceTemplate := none }

theorem chainRule_built : chainRule.Built :=
  .call (.addNegationBetweenStates 4 [] 0 2 0)
    (.call (.addPredicate 3 [] 1 10 .eachWithin)
      (.call (.addPredicate 2 [] 0 100 .eachWithin)
        (.call (.addRootPredicate 1 []) (.new true 0) rfl) rfl) rfl) rfl

theorem chainRule_refersBack : chainRule.RefersBack := by
  intro i p lookup pos
  have lt := (List.getElem?_eq_some_iff.mp lookup).1
  simp only [chainRule, List.length_cons, List.length_nil] at lt
  obtain rfl | rfl : i = 1 ∨ i = 2 := by omega
  · cases lookup
    decide
  · cases lookup
    decide

/-- The three events of the pattern, and one of the negation at time `t` between them. -/
def chainCalls (t : Nat) : List Call :=
  [.addToStack (reading 1 3 45) 2, .addToStack (reading 2 2 50) 1,
    .addToNegationStack (reading 3 4 t) 0, .startComputation (reading 4 1 100)]

theorem chainCalls_valid (t : Nat) : ∀ c ∈ chainCalls t, c.Valid (new chainRule) := by
  intro c mem
  simp only [chainCalls, List.mem_cons, List.not_mem_nil, or_false] at mem
  rcases mem with rfl | rfl | rfl | rfl <;> simp [Call.Valid, chainRule]

/-- The negation event at 60 is dropped, being more than 10 older than the terminator, although it
lies between the events at 45 and 100. -/
theorem chainRule_negation_lost :
    chainRule.Built ∧ chainRule.RefersBack ∧
      chainRule.negations[0]? = some ⟨4, [], 2, 0, 0⟩ ∧
      chainRule.getWinBetween 0 2 = some 110 ∧
      (∀ c ∈ chainCalls 60, c.Valid (new chainRule)) ∧
      (chainCalls 60).Pairwise (fun c c' => c.getTimeStamp ≤ c'.getTimeStamp) ∧
      ¬ NegationSurvives chainRule 0 ⟨4, [], 2, 0, 0⟩ (chainCalls 60) := by
  refine ⟨chainRule_built, chainRule_refersBack, rfl, by decide, chainCalls_valid 60, by decide, ?_⟩
  intro survives
  have returned : (((new chainRule).startComputation
      ((new chainRule).run .initial ((chainCalls 60).take 3)) (reading 4 1 100)).partialResults.any
        fun pe => pe.timeOf 2 = 45 && pe.timeOf 0 = 100) = true := by decide
  obtain ⟨pe, mem, times⟩ := List.any_eq_true.mp returned
  simp only [Bool.and_eq_true, decide_eq_true_eq] at times
  refine survives _ [] _ rfl pe mem (reading 3 4 60) (by decide) ⟨?_, ?_, ?_⟩
  · rw [times.1]
    decide
  · rw [times.2]
    decide
  · intro par inRule
    cases inRule

theorem chainRule_negationSurvives :
    NegationSurvives chainRule 0 ⟨4, [], 2, 0, 0⟩ (chainCalls 95) := by
  refine negationSurvives_of_gapFree chainRule 0 ⟨4, [], 2, 0, 0⟩ 110
    (chainCalls 95) chainRule_built
    chainRule_refersBack rfl (by decide) (by decide) (fun par mem => by cases mem)
    (chainCalls_valid 95) (by decide) ?_
  intro pre post p split
  obtain ⟨rfl, rfl⟩ : pre = (chainCalls 95).take 3 ∧ p = reading 4 1 100 := by
    rcases pre with _ | ⟨a, _ | ⟨b, _ | ⟨c, _ | ⟨d, rest⟩⟩⟩⟩ <;> simp_all [chainCalls]
  unfold GapFree
  decide

end TRex
