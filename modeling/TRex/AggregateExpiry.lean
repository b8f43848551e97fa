import Mathlib.Data.List.Induction
import TRex.BuilderChecks
import TRex.Consumption
import TRex.TimeSpan
import TRex.Trimming

/-!
# The expiry of aggregates between states

An aggregate between two states needs the events within the windows on the links from its lower
state up to its upper one, counted from the oldest event of the upper state. `clearStacks` takes the
span of a negation between states from the window of its lower state, and would do the same for an
aggregate whose `lowerTime` is negative. A time is never negative, and the builder leaves the
reading of the clock there. So the events are kept for as long as that reading says, and they are
kept exactly as long as needed where no stored event lies between the two cutoffs
(`keptAsNeeded_iff_cutoffFits`). -/

namespace TRex

open StacksRule

/-! ## What a run says about an aggregate -/

/-- The packets a run adds to the stack of an aggregate, in order. -/
def aggsReceived (k : Nat) (calls : List Call) : List PubPktPtr :=
  calls.filterMap fun
    | .addToAggregateStack p j => if j = k then some p else none
    | _ => none

/-- The aggregate at `k` is between two states, and `span` is the sum of the windows on the way from
its lower state up to its upper one. -/
structure BetweenStates (pkt : RulePkt) (k : Nat) (agg : Aggregate) (span : Nat) : Prop where
  lookup : pkt.aggregates[k]? = some agg
  nonneg : 0 ≤ agg.upperId
  later : agg.upperId < agg.lowerId
  climb : pkt.Climb agg.lowerId.toNat agg.upperId.toNat span

/-- The property holds at every computation of a run, of the calls before it and its terminator. -/
def AtEachComputation (P : List Call → PubPktPtr → Prop) (calls : List Call) : Prop :=
  ∀ (pre post : List Call) (p : PubPktPtr), calls = pre ++ .startComputation p :: post → P pre p

/-- If the upper state has events in the computation, what is left of the aggregate's events are
those of `history` after the span before the oldest of them. -/
def KeptAsNeeded (r : StacksRule) (k : Nat) (agg : Aggregate) (span : Nat)
    (history : List PubPktPtr) (st : Stacks) (p : PubPktPtr) : Prop :=
  let c := r.startComputation st p
  let upper := (c.during.states agg.upperId.toNat).received
  upper ≠ [] →
    (∀ e ∈ (c.after.aggs k).received, timeAt upper 0 - span < e.getTimeStamp) ∧
      ∀ e ∈ history, timeAt upper 0 - span < e.getTimeStamp → e ∈ (c.after.aggs k).received

/-- The cutoff that `lowerTime` gives leaves the same of the stored events as the span. -/
def CutoffFits (r : StacksRule) (k : Nat) (agg : Aggregate) (span : Nat) (st : Stacks)
    (p : PubPktPtr) : Prop :=
  let upper := ((r.clearStates (st.pushTerminator p)).states agg.upperId.toNat).received
  upper ≠ [] → ∀ e ∈ (st.aggs k).received,
    Column.Stays (st.aggs k).received (timeAt upper 0 - agg.lowerTime) e ↔
      timeAt upper 0 - span < e.getTimeStamp

/-! ## One computation -/

section Computation

variable {r : StacksRule} {k : Nat} {agg : Aggregate} {st : Stacks} {p : PubPktPtr}

theorem clearAggregate_self (lookup : r.aggregates[k]? = some agg) :
    (r.clearAggregate st k).aggs k =
      if (st.states agg.upperId.toNat).size = 0 then st.aggs k
      else (st.aggs k).removeOld
        (timeAt (st.states agg.upperId.toNat).received 0 - agg.lowerTime) := by
  simp only [clearAggregate, lookup]
  split
  · rfl
  · simp

theorem clearAggregate_of_ne {j : Nat} (ne : k ≠ j) :
    (r.clearAggregate st j).aggs k = st.aggs k := by
  rcases r.clearAggregate_cases st j with same | ⟨minTS, dropped⟩
  · rw [same]
  · rw [dropped]
    exact Function.update_of_ne ne _ _

/-- Each aggregate is cleared in its own turn. -/
theorem clearAggregates_aggs (lookup : r.aggregates[k]? = some agg) :
    (r.clearAggregates st).aggs k = (r.clearAggregate st k).aggs k := by
  have loop : ∀ n, ((List.range n).foldl r.clearAggregate st).states = st.states ∧
      ((List.range n).foldl r.clearAggregate st).aggs k =
        if k < n then (r.clearAggregate st k).aggs k else st.aggs k := by
    intro n
    induction n with
    | zero => exact ⟨rfl, rfl⟩
    | succ n ih =>
        obtain ⟨states, aggs⟩ := ih
        rw [List.range_succ, List.foldl_concat]
        refine ⟨(r.clearAggregate_states _ n).trans states, ?_⟩
        rcases Nat.lt_trichotomy k n with less | rfl | more
        · rw [clearAggregate_of_ne (by omega), aggs, if_pos less, if_pos (by omega)]
        · rw [if_neg (by omega)] at aggs
          rw [clearAggregate_self lookup, states, aggs, if_pos (Nat.lt_succ_self k),
            clearAggregate_self lookup]
        · rw [clearAggregate_of_ne (by omega), aggs, if_neg (by omega), if_neg (by omega)]
  rw [clearAggregates, (loop _).2, if_pos (List.getElem?_eq_some_iff.mp lookup).1]

/-- Consumption and the end of the computation keep only packets that were there. -/
theorem mem_after_states {st : Stacks} {i : Nat} {q : PubPktPtr}
    (mem : q ∈ ((r.startComputation st p).after.states i).received) :
    q ∈ ((r.startComputation st p).during.states i).received := by
  rcases Nat.eq_zero_or_pos i with rfl | pos
  · simp [startComputation, computationWith, Stacks.popTerminator] at mem
  · simp only [startComputation, computationWith, Stacks.popTerminator,
      Function.update_of_ne (Nat.ne_of_gt pos)] at mem ⊢
    exact r.mem_removeConsumedEvent mem

/-- What a computation leaves of an aggregate's events. -/
theorem mem_after_aggs (inv : st.Inv) (lookup : r.aggregates[k]? = some agg) {e : PubPktPtr} :
    e ∈ ((r.startComputation st p).after.aggs k).received ↔ e ∈ (st.aggs k).received ∧
      let upper := ((r.clearStates (st.pushTerminator p)).states agg.upperId.toNat).received
      (upper ≠ [] →
        Column.Stays (st.aggs k).received (timeAt upper 0 - agg.lowerTime) e) := by
  have pushed := inv.pushTerminator p
  have upperInv := (r.clearStates_ordered pushed).states agg.upperId.toNat
  have aggs : (r.startComputation st p).after.aggs =
      (r.clearStacks (st.pushTerminator p)).aggs :=
    r.removeConsumedEvent_aggs _ _
  have before : (r.clearNegations (r.clearStates (st.pushTerminator p))).aggs k = st.aggs k :=
    congrFun ((r.clearNegations_aggs _).trans (r.clearStates_aggs _)) k
  rw [aggs, clearStacks, clearAggregates_aggs lookup, clearAggregate_self lookup, before,
    r.clearNegations_states]
  have empty_iff : ((r.clearStates (st.pushTerminator p)).states agg.upperId.toNat).size = 0 ↔
      ((r.clearStates (st.pushTerminator p)).states agg.upperId.toNat).received = [] := by
    rw [upperInv.size]
    simp
  split
  case isTrue empty => simp [empty_iff.mp empty]
  case isFalse nonempty =>
    rw [(inv.aggs k).mem_removeOld_iff]
    exact and_congr_right fun _ =>
      ⟨fun stays _ => stays, fun stays => stays fun empty => nonempty (empty_iff.mpr empty)⟩

end Computation

/-! ## Events that are gone -/

/-- The stacks of a run in which the aggregate has received `history`: its stack holds received
events, and those that it does not hold lie outside the span of every present and future event of
the upper state. -/
structure AggregateWatched (k : Nat) (agg : Aggregate) (span now : Nat) (history : List PubPktPtr)
    (st : Stacks) : Prop where
  past : ∀ i, ∀ q ∈ (st.states i).received, q.getTimeStamp ≤ now
  stored : ∀ e ∈ (st.aggs k).received, e ∈ history
  gone : ∀ e ∈ history, e ∉ (st.aggs k).received →
    Obsolete now span (st.states agg.upperId.toNat) e

namespace AggregateWatched

variable {r : StacksRule} {k : Nat} {agg : Aggregate} {span now now' : Nat}
  {history : List PubPktPtr} {st st' : Stacks} {p : PubPktPtr}

theorem initial : AggregateWatched k agg span 0 [] .initial :=
  ⟨by simp [Stacks.initial, Column.empty], by simp [Stacks.initial, Column.empty], by simp⟩

/-- The aggregate's stack stays, and the packets of the states were there before or are new. -/
theorem ofStates (watched : AggregateWatched k agg span now history st) (le : now ≤ now')
    (origin : ∀ i, ∀ q ∈ (st'.states i).received,
      q ∈ (st.states i).received ∨ (now ≤ q.getTimeStamp ∧ q.getTimeStamp ≤ now'))
    (same : st'.aggs k = st.aggs k) : AggregateWatched k agg span now' history st' := by
  refine ⟨fun i q mem => ?_, same ▸ watched.stored, fun e received missing => ?_⟩
  · rcases origin i q mem with old | ⟨-, new⟩
    · exact (watched.past i q old).trans le
    · exact new
  · rw [same] at missing
    refine (watched.gone e received missing).mono le fun q mem => ?_
    rcases origin _ q mem with old | ⟨new, -⟩
    · exact .inl old
    · exact .inr new

theorem addToStack (watched : AggregateWatched k agg span now history st)
    (le : now ≤ p.getTimeStamp) (i : Nat) :
    AggregateWatched k agg span p.getTimeStamp history (st.addToStack p i) := by
  refine watched.ofStates le (fun j q mem => ?_) rfl
  rcases Stacks.mem_addToStack mem with old | ⟨-, rfl⟩
  · exact .inl old
  · exact .inr ⟨le, le_rfl⟩

/-- The aggregate itself receives a packet. -/
theorem addToAggregateStack_self (watched : AggregateWatched k agg span now history st)
    (inv : st.Inv) (le : now ≤ p.getTimeStamp) :
    AggregateWatched k agg span p.getTimeStamp (history ++ [p]) (st.addToAggregateStack p k) := by
  have stack : (st.addToAggregateStack p k).aggs k = (st.aggs k).add p := Function.update_self _ _ _
  have later : AggregateWatched k agg span p.getTimeStamp history st :=
    watched.ofStates le (fun _ _ mem => .inl mem) rfl
  obtain ⟨n, -, added, -, -⟩ := (inv.aggs k).add_received p
  refine ⟨later.past, fun e mem => ?_, fun e received missing => ?_⟩
  · rw [stack] at mem
    rcases Column.mem_add mem with old | rfl
    · exact List.mem_append_left _ (watched.stored e old)
    · exact List.mem_append_right _ (List.mem_singleton_self _)
  · rw [stack, added] at missing
    have others : e ∉ (st.aggs k).received ∧ e ≠ p := by
      rw [← List.take_append_drop n (st.aggs k).received]
      simp only [List.mem_append, List.mem_cons, not_or] at missing ⊢
      exact ⟨⟨missing.1, missing.2.2⟩, missing.2.1⟩
    rcases List.mem_append.mp received with old | new
    · exact later.gone e old others.1
    · exact absurd (List.mem_singleton.mp new) others.2

theorem addToAggregateStack_of_ne (watched : AggregateWatched k agg span now history st)
    (le : now ≤ p.getTimeStamp) {j : Nat} (ne : k ≠ j) :
    AggregateWatched k agg span p.getTimeStamp history (st.addToAggregateStack p j) :=
  watched.ofStates le (fun _ _ mem => .inl mem) (Function.update_of_ne ne _ _)

/-- Once the terminator is there and the states are cleared, what the states hold was there before
or is the terminator. -/
theorem mem_cleared (inv : st.Inv) (le : now ≤ p.getTimeStamp) (i : Nat) (q : PubPktPtr)
    (mem : q ∈ ((r.clearStates (st.pushTerminator p)).states i).received) :
    q ∈ (st.states i).received ∨ (now ≤ q.getTimeStamp ∧ q.getTimeStamp ≤ p.getTimeStamp) := by
  have pushed := r.mem_clearStates mem
  simp only [Stacks.pushTerminator, inv.terminator] at pushed
  rcases eq_or_ne i 0 with rfl | ne
  · rw [Function.update_self] at pushed
    rw [List.mem_singleton.mp pushed]
    exact .inr ⟨le, le_rfl⟩
  · rw [Function.update_of_ne ne] at pushed
    exact .inl pushed

/-- The oldest event of the upper state is one of its events. -/
theorem exists_timeAt_zero {column : List PubPktPtr} (nonempty : column ≠ []) :
    ∃ q ∈ column, timeAt column 0 = q.getTimeStamp := by
  have pos := List.length_pos_iff.mpr nonempty
  exact ⟨column[0], List.getElem_mem pos, timeAt_eq pos⟩

theorem keptAsNeeded_iff (watched : AggregateWatched k agg span now history st) (inv : st.Inv)
    (lookup : r.aggregates[k]? = some agg) (le : now ≤ p.getTimeStamp) :
    KeptAsNeeded r k agg span history st p ↔ CutoffFits r k agg span st p := by
  have during : (r.startComputation st p).during.states =
      (r.clearStates (st.pushTerminator p)).states := r.clearStacks_states _
  simp only [KeptAsNeeded, CutoffFits, during]
  refine forall_congr' fun nonempty => ?_
  have left_iff : ∀ e, e ∈ ((r.startComputation st p).after.aggs k).received ↔
      e ∈ (st.aggs k).received ∧ Column.Stays (st.aggs k).received (timeAt
        ((r.clearStates (st.pushTerminator p)).states agg.upperId.toNat).received 0 -
          agg.lowerTime) e := by
    intro e
    rw [mem_after_aggs inv lookup]
    exact and_congr_right fun _ => ⟨fun stays => stays nonempty, fun stays _ => stays⟩
  constructor
  · rintro ⟨young, complete⟩ e stored
    refine ⟨fun stays => young e ((left_iff e).mpr ⟨stored, stays⟩), fun needed => ?_⟩
    exact ((left_iff e).mp (complete e (watched.stored e stored) needed)).2
  · intro fits
    refine ⟨fun e left => ?_, fun e received needed => ?_⟩
    · obtain ⟨stored, stays⟩ := (left_iff e).mp left
      exact (fits e stored).mp stays
    · by_cases stored : e ∈ (st.aggs k).received
      · exact (left_iff e).mpr ⟨stored, (fits e stored).mpr needed⟩
      · obtain ⟨q, mem, oldest⟩ := exists_timeAt_zero nonempty
        have obsolete := (watched.gone e received stored).mono le fun q mem =>
          (mem_cleared (r := r) inv le _ q mem).imp_right And.left
        have outside := obsolete.current q mem
        omega

/-- A computation whose cutoff fits drops only events that no window will reach. -/
theorem startComputation (watched : AggregateWatched k agg span now history st) (inv : st.Inv)
    (lookup : r.aggregates[k]? = some agg) (le : now ≤ p.getTimeStamp)
    (fits : CutoffFits r k agg span st p) :
    AggregateWatched k agg span p.getTimeStamp history (r.startComputation st p).after := by
  have during : (r.startComputation st p).during.states =
      (r.clearStates (st.pushTerminator p)).states := r.clearStacks_states _
  have origin : ∀ i, ∀ q ∈ ((r.startComputation st p).after.states i).received,
      q ∈ ((r.clearStates (st.pushTerminator p)).states i).received := by
    intro i q mem
    rw [← during]
    exact mem_after_states mem
  have cleared := fun i q mem => mem_cleared (r := r) inv le i q mem
  have past : ∀ i, ∀ q ∈ ((r.clearStates (st.pushTerminator p)).states i).received,
      q.getTimeStamp ≤ p.getTimeStamp := by
    intro i q mem
    rcases cleared i q mem with old | ⟨-, new⟩
    · exact (watched.past i q old).trans le
    · exact new
  refine ⟨fun i q mem => past i q (origin i q mem), fun e left => ?_, fun e received missing => ?_⟩
  · exact watched.stored e ((mem_after_aggs inv lookup).mp left).1
  · by_cases stored : e ∈ (st.aggs k).received
    · rw [mem_after_aggs inv lookup, and_iff_right stored, not_forall] at missing
      obtain ⟨nonempty, dropped⟩ := missing
      have upperInv := (r.clearStates_ordered (inv.pushTerminator p)).states agg.upperId.toNat
      have old := mt (fits nonempty e stored).mpr dropped
      have size : ((r.clearStates (st.pushTerminator p)).states agg.upperId.toNat).size ≠ 0 := by
        have pos := List.length_pos_iff.mpr nonempty
        rw [upperInv.size]
        omega
      exact (obsolete_of_le_cutoff upperInv size (past _) (Nat.le_of_not_lt old)).mono le_rfl
        fun q mem => .inl (origin _ q mem)
    · exact (watched.gone e received stored).mono le fun q mem =>
        (cleared _ q (origin _ q mem)).imp_right And.left

/-- One call, which fits if it is a computation. -/
theorem step (watched : AggregateWatched k agg span now history st) (inv : st.Inv)
    (lookup : r.aggregates[k]? = some agg) {c : Call} (le : now ≤ c.getTimeStamp)
    (fits : ∀ p, c = .startComputation p → CutoffFits r k agg span st p) :
    AggregateWatched k agg span c.getTimeStamp (history ++ aggsReceived k [c]) (r.step st c) := by
  cases c with
  | addToStack p i =>
      rw [show aggsReceived k [.addToStack p i] = [] from rfl, List.append_nil]
      exact watched.addToStack le i
  | addToNegationStack p j =>
      rw [show aggsReceived k [.addToNegationStack p j] = [] from rfl, List.append_nil]
      exact watched.ofStates le (fun _ _ mem => .inl mem) rfl
  | addToAggregateStack p j =>
      rcases eq_or_ne k j with rfl | ne
      · rw [show aggsReceived k [.addToAggregateStack p k] = [p] by simp [aggsReceived]]
        exact watched.addToAggregateStack_self inv le
      · rw [show aggsReceived k [.addToAggregateStack p j] = [] by simp [aggsReceived, ne.symm],
          List.append_nil]
        exact watched.addToAggregateStack_of_ne le ne
  | startComputation p =>
      rw [show aggsReceived k [.startComputation p] = [] from rfl, List.append_nil]
      exact watched.startComputation inv lookup le (fits p rfl)

end AggregateWatched

/-! ## Runs -/

theorem atEachComputation_append {P : List Call → PubPktPtr → Prop} {calls : List Call} {c : Call} :
    AtEachComputation P (calls ++ [c]) ↔
      AtEachComputation P calls ∧ ∀ p, c = .startComputation p → P calls p := by
  constructor
  · intro each
    refine ⟨fun pre post p split => each pre (post ++ [c]) p (by simp [split]), fun p start => ?_⟩
    exact each calls [] p (by rw [start])
  · rintro ⟨before, last⟩ pre post p split
    rcases List.eq_nil_or_concat post with rfl | ⟨post, c', rfl⟩
    · obtain ⟨rfl, start⟩ := List.append_inj' split rfl
      exact last p (List.singleton_inj.mp start)
    · rw [List.concat_eq_append, ← List.cons_append, ← List.append_assoc] at split
      obtain ⟨earlier, -⟩ := List.append_inj' split rfl
      exact before pre post p earlier

section Runs

variable {pkt : RulePkt} {k : Nat} {agg : Aggregate} {span : Nat}

/-- As long as either property holds the other one does, and the aggregate stays watched. -/
theorem run_aggregateWatched (lookup : pkt.aggregates[k]? = some agg) {calls : List Call}
    (valid : ∀ c ∈ calls, c.Valid (new pkt))
    (ordered : calls.Pairwise fun c c' => c.getTimeStamp ≤ c'.getTimeStamp) :
    (AtEachComputation (fun pre => KeptAsNeeded (new pkt) k agg span (aggsReceived k pre)
        ((new pkt).run .initial pre)) calls ↔
      AtEachComputation (fun pre => CutoffFits (new pkt) k agg span
        ((new pkt).run .initial pre)) calls) ∧
    (AtEachComputation (fun pre => CutoffFits (new pkt) k agg span
        ((new pkt).run .initial pre)) calls →
      ((new pkt).run .initial calls).Inv ∧
        ∃ now, (now = 0 ∨ ∃ c ∈ calls, c.getTimeStamp = now) ∧
          AggregateWatched k agg span now (aggsReceived k calls)
            ((new pkt).run .initial calls)) := by
  induction calls using List.reverseRecOn with
  | nil =>
      refine ⟨⟨fun _ pre post p split => ?_, fun _ pre post p split => ?_⟩, fun _ =>
        ⟨Stacks.inv_initial, 0, .inl rfl, AggregateWatched.initial⟩⟩
      · exact absurd split (by simp)
      · exact absurd split (by simp)
  | append_singleton calls c ih =>
      obtain ⟨before, -, last⟩ := List.pairwise_append.mp ordered
      obtain ⟨same, watch⟩ := ih (fun c' mem => valid c' (List.mem_append_left _ mem)) before
      rw [atEachComputation_append, atEachComputation_append, same]
      have atLast : ∀ {now : Nat}, (now = 0 ∨ ∃ c' ∈ calls, c'.getTimeStamp = now) →
          now ≤ c.getTimeStamp := by
        intro now time
        rcases time with rfl | ⟨c', mem, rfl⟩
        · exact Nat.zero_le _
        · exact last c' mem c (List.mem_singleton.mpr rfl)
      refine ⟨and_congr_right fun fits => forall₂_congr fun p start => ?_, fun ⟨fits, here⟩ => ?_⟩
      · obtain ⟨inv, now, time, watched⟩ := watch fits
        have le := atLast time
        rw [start] at le
        exact watched.keptAsNeeded_iff inv lookup le
      · obtain ⟨inv, now, time, watched⟩ := watch fits
        rw [show (new pkt).run .initial (calls ++ [c]) =
          (new pkt).step ((new pkt).run .initial calls) c by
            simp [StacksRule.run, StacksRule.runWith, StacksRule.step]]
        rw [show aggsReceived k (calls ++ [c]) = aggsReceived k calls ++ aggsReceived k [c] from
          List.filterMap_append]
        exact ⟨(new pkt).step_inv inv (valid c (by simp)), c.getTimeStamp, .inr ⟨c, by simp, rfl⟩,
          watched.step inv lookup (atLast time) here⟩

end Runs

/-- The events of an aggregate between two states are kept exactly as long as needed throughout a
run if and only if at each computation the cutoff that `lowerTime` gives leaves the same of the
stored events as the span of the windows. -/
theorem keptAsNeeded_iff_cutoffFits (pkt : RulePkt) (k : Nat) (agg : Aggregate) (span : Nat)
    (between : BetweenStates pkt k agg span) (calls : List Call)
    (valid : ∀ c ∈ calls, c.Valid (new pkt))
    (ordered : calls.Pairwise fun c c' => c.getTimeStamp ≤ c'.getTimeStamp) :
    AtEachComputation (fun pre => KeptAsNeeded (new pkt) k agg span (aggsReceived k pre)
        ((new pkt).run .initial pre)) calls ↔
      AtEachComputation (fun pre => CutoffFits (new pkt) k agg span
        ((new pkt).run .initial pre)) calls :=
  (run_aggregateWatched between.lookup valid ordered).1

/-! ## A rule that forgets nothing -/

/-- Smoke after a temperature within 100, and the areas reported in between. The clock stands at
5000 when the rule is written. -/
def reportedAreas : RulePkt :=
  (RulePkt.new true 0).1.calls [.addRootPredicate 1 [], .addPredicate 2 [] 0 100 .eachWithin,
    .addAggregateBetweenStates 3 [] 0 1 5000 ['a'] .sum]

def areasBetween : Aggregate :=
  { eventType := 3, constraints := [], upperId := 0, lowerId := 1, lowerTime := 5000, name := ['a']
    fun_ := .sum }

theorem reportedAreas_built : reportedAreas.Built := (RulePkt.Built.new true 0).calls _

theorem areasBetween_betweenStates : BetweenStates reportedAreas 0 areasBetween 100 where
  lookup := by decide
  nonneg := by decide
  later := by decide
  climb := Links.Climb.up (by decide) (.here 0)

/-- A report at 6000 and smoke at 7000. -/
def staleReport : List Call :=
  [.addToAggregateStack (reading 1 3 6000) 0, .startComputation (reading 2 1 7000)]

theorem staleReport_valid : ∀ c ∈ staleReport, c.Valid (new reportedAreas) := by
  intro c mem
  rcases List.mem_pair.mp mem with rfl | rfl
  · exact Nat.zero_lt_one
  · trivial

theorem staleReport_ordered :
    staleReport.Pairwise fun c c' => c.getTimeStamp ≤ c'.getTimeStamp := by
  simp [staleReport, Call.getTimeStamp, Call.pkt, reading, PubPktPtr.getTimeStamp, PubPkt.new]

theorem staleReport_kept_iff :
    AtEachComputation (fun pre => KeptAsNeeded (new reportedAreas) 0 areasBetween 100
        (aggsReceived 0 pre) ((new reportedAreas).run .initial pre)) staleReport ↔
      AtEachComputation (fun pre => CutoffFits (new reportedAreas) 0 areasBetween 100
        ((new reportedAreas).run .initial pre)) staleReport :=
  keptAsNeeded_iff_cutoffFits reportedAreas 0 areasBetween 100 areasBetween_betweenStates
    staleReport staleReport_valid staleReport_ordered

/-- The report is not within 100 of the smoke, and it is kept. -/
theorem staleReport_kept :
    ¬ ∀ pkt : RulePkt, pkt.Built → ∀ (k : Nat) (agg : Aggregate) (span : Nat),
      BetweenStates pkt k agg span → ∀ calls : List Call, (∀ c ∈ calls, c.Valid (new pkt)) →
        (calls.Pairwise fun c c' => c.getTimeStamp ≤ c'.getTimeStamp) →
          AtEachComputation (fun pre => KeptAsNeeded (new pkt) k agg span (aggsReceived k pre)
            ((new pkt).run .initial pre)) calls := by
  intro all
  have kept := all reportedAreas reportedAreas_built 0 areasBetween 100 areasBetween_betweenStates
    staleReport staleReport_valid staleReport_ordered [.addToAggregateStack (reading 1 3 6000) 0] []
    (reading 2 1 7000) rfl
  have young := (kept (by decide)).1 (reading 1 3 6000) (by decide)
  exact absurd young (by decide)

end TRex
