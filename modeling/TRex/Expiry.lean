import TRex.PatternSearch
import TRex.Trimming

/-!
# What expiry forgets

`clearStacks` drops packets for good, looking only at the oldest packet of the stack each window is
measured from. `StacksRule.Simulates` relates the stacks of a run to those of the same run in which
nothing expires: every stack of the first is the second one's without obsolete packets in front.
Every operation keeps the relation, whatever the rule.

Partial results are built from stored packets (`Supported`), which is what makes a packet that is
obsolete for all stored packets useless for them.
-/

namespace TRex

namespace StacksRule

variable (r : StacksRule)

/-! ## What each stack may forget -/

def obsoleteState (now : Nat) (st : Stacks) (i : Nat) (e : PubPktPtr) : Prop :=
  Obsolete now (r.getWindow i) (st.states (r.refersTo i).toNat) e

def obsoleteNeg (now : Nat) (st : Stacks) (k : Nat) (e : PubPktPtr) : Prop :=
  ∀ n, r.negations[k]? = some n →
    Obsolete now (r.negationWindow n) (st.states n.upperId.toNat) e

def obsoleteAgg (now : Nat) (st : Stacks) (k : Nat) (e : PubPktPtr) : Prop :=
  ∀ a, r.aggregates[k]? = some a → Obsolete now a.lowerTime (st.states a.upperId.toNat) e

/-- The stacks `cur` are the stacks `full` without obsolete packets in front. -/
structure Simulates (now : Nat) (cur full : Stacks) : Prop where
  states : ∀ i, Trims (r.obsoleteState now cur i) now (cur.states i) (full.states i)
  negs : ∀ k, Trims (r.obsoleteNeg now cur k) now (cur.negs k) (full.negs k)
  aggs : ∀ k, Trims (r.obsoleteAgg now cur k) now (cur.aggs k) (full.aggs k)

theorem trims_update {obs : Nat → PubPktPtr → Prop} {now i : Nat} {cur full : Nat → Column}
    {c c' : Column} (all : ∀ j, Trims (obs j) now (cur j) (full j))
    (one : Trims (obs i) now c c') :
    ∀ j, Trims (obs j) now (Function.update cur i c j) (Function.update full i c' j) := by
  intro j
  rcases eq_or_ne j i with rfl | ne
  · rw [Function.update_self, Function.update_self]
    exact one
  · rw [Function.update_of_ne ne, Function.update_of_ne ne]
    exact all j

namespace Simulates

variable {r} {now now' : Nat} {cur full : Stacks}

theorem initial : r.Simulates 0 .initial .initial :=
  have refl : ∀ obs, Trims obs 0 Column.empty Column.empty :=
    fun _ => Trims.refl Column.inv_empty (by simp [Column.empty])
  ⟨fun _ => refl _, fun _ => refl _, fun _ => refl _⟩

/-- One stack of packets changes in both runs, or in one of them: its packets were there before or
are new. -/
theorem updateState (sim : r.Simulates now cur full) (le : now ≤ now') {i : Nat} {c c' : Column}
    (origin : ∀ q ∈ c.received, q ∈ (cur.states i).received ∨ now ≤ q.getTimeStamp)
    (trims : Trims (r.obsoleteState now cur i) now' c c') :
    r.Simulates now' { cur with states := Function.update cur.states i c }
      { full with states := Function.update full.states i c' } := by
  have origins : ∀ j, ∀ q ∈ (Function.update cur.states i c j).received,
      q ∈ (cur.states j).received ∨ now ≤ q.getTimeStamp := by
    intro j q mem
    rcases eq_or_ne j i with rfl | ne
    · rw [Function.update_self] at mem
      exact origin q mem
    · rw [Function.update_of_ne ne] at mem
      exact .inl mem
  refine ⟨?_, fun k => ?_, fun k => ?_⟩
  · refine trims_update (fun j => (sim.states j).mono le fun e obs => obs.mono le (origins _)) ?_
    exact trims.mono le_rfl fun e obs => obs.mono le (origins _)
  · exact (sim.negs k).mono le fun e obs n lookup => (obs n lookup).mono le (origins _)
  · exact (sim.aggs k).mono le fun e obs a lookup => (obs a lookup).mono le (origins _)

/-- Time passes. -/
theorem later (sim : r.Simulates now cur full) (le : now ≤ now') : r.Simulates now' cur full := by
  have origins : ∀ (c : Column), ∀ q ∈ c.received, q ∈ c.received ∨ now ≤ q.getTimeStamp :=
    fun _ _ mem => .inl mem
  exact ⟨fun i => (sim.states i).mono le fun e obs => obs.mono le (origins _),
    fun k => (sim.negs k).mono le fun e obs n lookup => (obs n lookup).mono le (origins _),
    fun k => (sim.aggs k).mono le fun e obs a lookup => (obs a lookup).mono le (origins _)⟩

/-! ## Arrivals -/

theorem addToStack (sim : r.Simulates now cur full) {p : PubPktPtr} (le : now ≤ p.getTimeStamp)
    (i : Nat) : r.Simulates p.getTimeStamp (cur.addToStack p i) (full.addToStack p i) := by
  refine sim.updateState le (fun q mem => ?_) ((sim.states i).add le)
  rcases Column.mem_add mem with old | rfl
  · exact .inl old
  · exact .inr le

theorem addToNegationStack (sim : r.Simulates now cur full) {p : PubPktPtr}
    (le : now ≤ p.getTimeStamp) (k : Nat) :
    r.Simulates p.getTimeStamp (cur.addToNegationStack p k) (full.addToNegationStack p k) := by
  have later := sim.later le
  exact ⟨later.states, trims_update later.negs ((later.negs k).add le_rfl), later.aggs⟩

theorem addToAggregateStack (sim : r.Simulates now cur full) {p : PubPktPtr}
    (le : now ≤ p.getTimeStamp) (k : Nat) :
    r.Simulates p.getTimeStamp (cur.addToAggregateStack p k) (full.addToAggregateStack p k) := by
  have later := sim.later le
  exact ⟨later.states, later.negs, trims_update later.aggs ((later.aggs k).add le_rfl)⟩

/-! ## Expiry in one of the runs -/

theorem clearState (sim : r.Simulates now cur full) (i : Nat) :
    r.Simulates now (r.clearState cur i) full := by
  unfold StacksRule.clearState
  simp only
  split
  case isTrue => exact sim
  case isFalse nonempty =>
    have ref := sim.states (r.refersTo i).toNat
    have kept := (sim.states i).removeOld fun e _ old =>
      obsolete_of_le_cutoff ref.invCur nonempty ref.past_cur old
    have step := sim.updateState le_rfl
      (fun q mem => .inl (Column.mem_removeOld mem)) kept
    rwa [Function.update_eq_self] at step

theorem clearNegation (sim : r.Simulates now cur full) (k : Nat) :
    r.Simulates now (r.clearNegation cur k) full := by
  unfold StacksRule.clearNegation
  split
  case h_1 => exact sim
  case h_2 n lookup =>
    simp only
    split
    case isTrue => exact sim
    case isFalse nonempty =>
      have ref := sim.states n.upperId.toNat
      have kept := (sim.negs k).removeOld fun e _ old n' lookup' => by
        cases lookup.symm.trans lookup'
        exact obsolete_of_le_cutoff ref.invCur nonempty ref.past_cur old
      have negs := trims_update sim.negs kept
      rw [Function.update_eq_self] at negs
      exact ⟨sim.states, negs, sim.aggs⟩

theorem clearAggregate (sim : r.Simulates now cur full) (k : Nat) :
    r.Simulates now (r.clearAggregate cur k) full := by
  unfold StacksRule.clearAggregate
  split
  case h_1 => exact sim
  case h_2 a lookup =>
    simp only [Nat.not_lt_zero, if_false]
    split
    case isTrue => exact sim
    case isFalse nonempty =>
      have ref := sim.states a.upperId.toNat
      have kept := (sim.aggs k).removeOld fun e _ old a' lookup' => by
        cases lookup.symm.trans lookup'
        exact obsolete_of_le_cutoff ref.invCur nonempty ref.past_cur old
      have aggs := trims_update sim.aggs kept
      rw [Function.update_eq_self] at aggs
      exact ⟨sim.states, sim.negs, aggs⟩

theorem clearStacks (sim : r.Simulates now cur full) :
    r.Simulates now (r.clearStacks cur) full := by
  have states : r.Simulates now (r.clearStates cur) full :=
    @List.foldlRecOn _ _ (fun st => r.Simulates now st full) _ _ _ sim
      fun _ ih i _ => ih.clearState i
  have negs : r.Simulates now (r.clearNegations (r.clearStates cur)) full :=
    @List.foldlRecOn _ _ (fun st => r.Simulates now st full) _ _ _ states
      fun _ ih k _ => ih.clearNegation k
  exact @List.foldlRecOn _ _ (fun st => r.Simulates now st full) _ _ _ negs
    fun _ ih k _ => ih.clearAggregate k

/-! ## The terminator and consumption -/

/-- The terminator is the newest packet and the only one of stack 0. -/
theorem pushTerminator (sim : r.Simulates now cur full) {p : PubPktPtr} (le : now ≤ p.getTimeStamp)
    (idleCur : (cur.states 0).received = []) (idleFull : (full.states 0).received = []) :
    r.Simulates p.getTimeStamp (cur.pushTerminator p) (full.pushTerminator p) := by
  unfold Stacks.pushTerminator
  rw [idleCur, idleFull, List.nil_append]
  refine sim.updateState le (fun q mem => ?_) (Trims.refl (Column.inv_singleton p) ?_)
  · rw [List.mem_singleton.mp mem]
    exact .inr le
  · intro q mem
    rw [List.mem_singleton.mp mem]

theorem popTerminator (sim : r.Simulates now cur full) :
    r.Simulates now cur.popTerminator full.popTerminator :=
  sim.updateState le_rfl (by simp) (Trims.refl Column.inv_empty (by simp))

theorem removeConsumedEvent (sim : r.Simulates now cur full) (partialEvents : List PartialEvent) :
    r.Simulates now (r.removeConsumedEvent cur partialEvents)
      (r.removeConsumedEvent full partialEvents) := by
  unfold StacksRule.removeConsumedEvent
  generalize List.range' 1 (r.stacksNum - 1) = states
  induction states generalizing cur full with
  | nil => exact sim
  | cons i rest ih =>
      rw [List.foldl_cons, List.foldl_cons]
      apply ih
      unfold StacksRule.consumeState
      split
      · exact sim.updateState le_rfl (fun q mem => .inl (Column.mem_erase mem))
          ((sim.states i).erase _)
      · exact sim

end Simulates

/-! ## What expiry and consumption leave alone -/

theorem clearState_states_zero {st : Stacks} {i : Nat} (pos : 1 ≤ i) :
    (r.clearState st i).states 0 = st.states 0 := by
  rcases r.clearState_cases st i with same | ⟨minTS, dropped⟩
  · rw [same]
  · rw [dropped]
    exact Function.update_of_ne (by omega) _ _

theorem clearState_negs (st : Stacks) (i : Nat) : (r.clearState st i).negs = st.negs := by
  rcases r.clearState_cases st i with same | ⟨minTS, dropped⟩
  · rw [same]
  · rw [dropped]

theorem clearState_aggs (st : Stacks) (i : Nat) : (r.clearState st i).aggs = st.aggs := by
  rcases r.clearState_cases st i with same | ⟨minTS, dropped⟩
  · rw [same]
  · rw [dropped]

theorem clearNegation_states (st : Stacks) (k : Nat) :
    (r.clearNegation st k).states = st.states := by
  rcases r.clearNegation_cases st k with same | ⟨minTS, dropped⟩
  · rw [same]
  · rw [dropped]

theorem clearNegation_aggs (st : Stacks) (k : Nat) : (r.clearNegation st k).aggs = st.aggs := by
  rcases r.clearNegation_cases st k with same | ⟨minTS, dropped⟩
  · rw [same]
  · rw [dropped]

theorem clearAggregate_states (st : Stacks) (k : Nat) :
    (r.clearAggregate st k).states = st.states := by
  rcases r.clearAggregate_cases st k with same | ⟨minTS, dropped⟩
  · rw [same]
  · rw [dropped]

theorem clearAggregate_negs (st : Stacks) (k : Nat) : (r.clearAggregate st k).negs = st.negs := by
  rcases r.clearAggregate_cases st k with same | ⟨minTS, dropped⟩
  · rw [same]
  · rw [dropped]

theorem consumeState_negs (partialEvents : List PartialEvent) (st : Stacks) (i : Nat) :
    (r.consumeState partialEvents st i).negs = st.negs := by
  rcases r.consumeState_cases partialEvents st i with same | erased
  · rw [same]
  · rw [erased]

theorem consumeState_aggs (partialEvents : List PartialEvent) (st : Stacks) (i : Nat) :
    (r.consumeState partialEvents st i).aggs = st.aggs := by
  rcases r.consumeState_cases partialEvents st i with same | erased
  · rw [same]
  · rw [erased]

theorem clearStates_negs (st : Stacks) : (r.clearStates st).negs = st.negs :=
  @List.foldlRecOn _ _ (fun st' : Stacks => st'.negs = st.negs) _ _ _ rfl
    fun st' ih i _ => (r.clearState_negs st' i).trans ih

theorem clearStates_aggs (st : Stacks) : (r.clearStates st).aggs = st.aggs :=
  @List.foldlRecOn _ _ (fun st' : Stacks => st'.aggs = st.aggs) _ _ _ rfl
    fun st' ih i _ => (r.clearState_aggs st' i).trans ih

theorem clearNegations_aggs (st : Stacks) : (r.clearNegations st).aggs = st.aggs :=
  @List.foldlRecOn _ _ (fun st' : Stacks => st'.aggs = st.aggs) _ _ _ rfl
    fun st' ih k _ => (r.clearNegation_aggs st' k).trans ih

theorem clearAggregates_negs (st : Stacks) : (r.clearAggregates st).negs = st.negs :=
  @List.foldlRecOn _ _ (fun st' : Stacks => st'.negs = st.negs) _ _ _ rfl
    fun st' ih k _ => (r.clearAggregate_negs st' k).trans ih

theorem removeConsumedEvent_negs (partialEvents : List PartialEvent) (st : Stacks) :
    (r.removeConsumedEvent st partialEvents).negs = st.negs :=
  @List.foldlRecOn _ _ (fun st' : Stacks => st'.negs = st.negs) _ _ _ rfl
    fun st' ih i _ => (r.consumeState_negs partialEvents st' i).trans ih

theorem removeConsumedEvent_aggs (partialEvents : List PartialEvent) (st : Stacks) :
    (r.removeConsumedEvent st partialEvents).aggs = st.aggs :=
  @List.foldlRecOn _ _ (fun st' : Stacks => st'.aggs = st.aggs) _ _ _ rfl
    fun st' ih i _ => (r.consumeState_aggs partialEvents st' i).trans ih

/-- A stack of packets that is replaced by some of its own packets gains none. -/
theorem mem_of_mem_update {st : Stacks} {i j : Nat} {c : Column} {q : PubPktPtr}
    (fewer : ∀ e ∈ c.received, e ∈ (st.states j).received)
    (mem : q ∈ (Function.update st.states j c i).received) : q ∈ (st.states i).received := by
  rcases eq_or_ne i j with rfl | ne
  · rw [Function.update_self] at mem
    exact fewer q mem
  · rwa [Function.update_of_ne ne] at mem

theorem mem_clearStates {st : Stacks} {i : Nat} {q : PubPktPtr}
    (mem : q ∈ ((r.clearStates st).states i).received) : q ∈ (st.states i).received := by
  refine @List.foldlRecOn _ _ (fun st' : Stacks => ∀ e ∈ (st'.states i).received,
    e ∈ (st.states i).received) _ _ _ (fun _ mem => mem) (fun st' ih j _ e left => ih e ?_) q mem
  rcases r.clearState_cases st' j with same | ⟨minTS, dropped⟩
  · rwa [same] at left
  · rw [dropped] at left
    exact mem_of_mem_update (fun _ => Column.mem_removeOld) left

theorem mem_removeConsumedEvent {partialEvents : List PartialEvent} {st : Stacks} {i : Nat}
    {q : PubPktPtr} (mem : q ∈ ((r.removeConsumedEvent st partialEvents).states i).received) :
    q ∈ (st.states i).received := by
  refine @List.foldlRecOn _ _ (fun st' : Stacks => ∀ e ∈ (st'.states i).received,
    e ∈ (st.states i).received) _ _ _ (fun _ mem => mem) (fun st' ih j _ e left => ih e ?_) q mem
  rcases r.consumeState_cases partialEvents st' j with same | erased
  · rwa [same] at left
  · rw [erased] at left
    exact mem_of_mem_update (fun _ => Column.mem_erase) left

theorem clearNegations_states (st : Stacks) : (r.clearNegations st).states = st.states :=
  @List.foldlRecOn _ _ (fun st' : Stacks => st'.states = st.states) _ _ _ rfl
    fun st' ih k _ => (r.clearNegation_states st' k).trans ih

theorem clearAggregates_states (st : Stacks) : (r.clearAggregates st).states = st.states :=
  @List.foldlRecOn _ _ (fun st' : Stacks => st'.states = st.states) _ _ _ rfl
    fun st' ih k _ => (r.clearAggregate_states st' k).trans ih

/-- Only the first loop of `clearStacks` changes the stacks of packets. -/
theorem clearStacks_states (st : Stacks) : (r.clearStacks st).states = (r.clearStates st).states :=
  (r.clearAggregates_states _).trans (r.clearNegations_states _)

theorem clearStacks_states_zero (st : Stacks) : (r.clearStacks st).states 0 = st.states 0 := by
  rw [clearStacks_states]
  exact @List.foldlRecOn _ _ (fun st' : Stacks => st'.states 0 = st.states 0) _ _ _ rfl
    fun st' ih i mem => (r.clearState_states_zero (by
      obtain ⟨j, -, rfl⟩ := List.mem_range'.mp mem
      omega)).trans ih

end StacksRule

/-! ## Partial results made of stored packets -/

/-- Below the bound the states are assigned packets of their stacks. -/
def Supported (st : Stacks) (bound : Nat) (pe : PartialEvent) : Prop :=
  ∀ j < bound, ∃ q ∈ (st.states j).received, pe.indexes j = some q

namespace Supported

variable {st : Stacks} {bound : Nat} {pe : PartialEvent}

theorem set (supported : Supported st bound pe) {e : PubPktPtr}
    (mem : e ∈ (st.states bound).received) : Supported st (bound + 1) (pe.set bound e) := by
  intro j lt
  rcases eq_or_ne j bound with rfl | ne
  · exact ⟨e, mem, PartialEvent.set_self pe j e⟩
  · rw [PartialEvent.set_of_ne pe e ne]
    exact supported j (by omega)

/-- The time read at an assigned state is that of a packet of its stack. -/
theorem timeOf (supported : Supported st bound pe) {i : Int} (pos : 0 < bound) (lt : i < bound) :
    ∃ q ∈ (st.states i.toNat).received, pe.timeOf i = q.getTimeStamp := by
  obtain ⟨q, mem, assigned⟩ := supported i.toNat (by omega)
  exact ⟨q, mem, PartialEvent.timeOf_of_some assigned⟩

end Supported

namespace StacksRule

variable (r : StacksRule)

theorem mem_of_mem_picks {kind : CompKind} {accepted : List PubPktPtr} {e : PubPktPtr}
    (mem : e ∈ picks kind accepted) : e ∈ accepted := by
  cases kind with
  | eachWithin => exact mem
  | allWithin => exact mem
  | firstWithin => exact List.mem_of_mem_take mem
  | lastWithin => exact List.mem_reverse.mp (List.mem_of_mem_take mem)

/-- An extension comes from the state's window. -/
theorem mem_between_of_mem_extensions {st : Stacks} {i tsUp : Nat} {mode : CompKind}
    {pe : PartialEvent} {e : PubPktPtr} (mem : e ∈ r.extensions st i tsUp mode pe) :
    e ∈ between (tsUp - r.getWindow i) tsUp (st.states i).received :=
  List.mem_of_mem_filter (mem_of_mem_picks mem)

theorem supported_of_mem_extendOne {st : Stacks} {i : Nat} {pe pe' : PartialEvent}
    (supported : Supported st i pe) (mem : pe' ∈ r.extendOne st i pe) :
    Supported st (i + 1) pe' := by
  obtain ⟨e, chosen, rfl⟩ := List.mem_map.mp mem
  exact supported.set (mem_between.mp (r.mem_between_of_mem_extensions chosen)).1

end StacksRule

end TRex
