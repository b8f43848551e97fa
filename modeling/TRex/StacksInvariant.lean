import TRex.StacksRule

/-!
# The stack invariant

Every search of the engine relies on the stacks being sorted by timestamp and on the counters being
the lengths of the vectors. `Column.Inv` states that of one stack; each of the three ways a stack
changes (insertion, expiry from the front, consumption from the middle) keeps it, whatever the
timestamps, and `run_inv` carries it through every run of calls.
-/

namespace TRex

/-! ## One column -/

/-- The stack is sorted and its counter is its length. -/
structure Column.Inv (c : Column) : Prop where
  sorted : TimeSorted c.received
  size : c.size = c.received.length

namespace Column

theorem inv_empty : Column.empty.Inv := ⟨SortedBy.nil, rfl⟩

theorem inv_singleton (p : PubPktPtr) : (⟨1, [p]⟩ : Column).Inv :=
  ⟨List.pairwise_singleton _ p, rfl⟩

variable {c : Column}

/-- Insertion keeps the packets at or before the new one in front of it and the newer ones behind.
-/
theorem Inv.add_received (inv : c.Inv) (p : PubPktPtr) :
    ∃ k ≤ c.received.length, c.add p = ⟨c.size + 1, c.received.take k ++ p :: c.received.drop k⟩ ∧
      (∀ q ∈ c.received.take k, q.getTimeStamp ≤ p.getTimeStamp) ∧
      ∀ q ∈ c.received.drop k, p.getTimeStamp < q.getTimeStamp := by
  unfold Column.add
  rw [inv.size]
  rcases getFirstValidElement_spec inv.sorted p.getTimeStamp with
    ⟨absent, old⟩ | ⟨k, first, kLt, old, young⟩
  · refine ⟨c.received.length, le_rfl, ?_, by simpa using old, by simp⟩
    rw [absent]
    simp
  · refine ⟨k, kLt.le, ?_, old, young⟩
    rw [first]
    simp only [Int.toNat_natCast, if_neg (show ¬ (k : Int) = -1 by omega)]

theorem Inv.add (inv : c.Inv) (p : PubPktPtr) : (c.add p).Inv := by
  obtain ⟨k, le, eq, old, young⟩ := inv.add_received p
  rw [eq]
  refine ⟨inv.sorted.insertAt old fun q mem => (young q mem).le, ?_⟩
  have size := inv.size
  simp only [List.length_append, List.length_take, List.length_cons, List.length_drop]
  omega

/-- Expiry drops packets from the front: only packets up to the cutoff, and the counter follows. -/
theorem Inv.removeOld_received (inv : c.Inv) (minTS : Nat) :
    ∃ k ≤ c.received.length,
      c.removeOld minTS = ⟨(c.received.length - k : Nat), c.received.drop k⟩ ∧
      ∀ q ∈ c.received.take k, q.getTimeStamp ≤ minTS := by
  have keep : (∃ k ≤ c.received.length, c = ⟨(c.received.length - k : Nat), c.received.drop k⟩ ∧
      ∀ q ∈ c.received.take k, q.getTimeStamp ≤ minTS) := by
    refine ⟨0, Nat.zero_le _, ?_, by simp⟩
    rw [Nat.sub_zero, List.drop_zero, ← inv.size]
  unfold Column.removeOld
  split
  · exact keep
  obtain ⟨k, answer, le, old, -⟩ := deleteInvalidElements_spec inv.sorted minTS
  rw [← inv.size] at answer
  simp only
  split
  · exact keep
  · refine ⟨k, le, ?_, old⟩
    have size := inv.size
    rw [answer, show (c.size - ((c.received.length - k : Nat) : Int)).toNat = k by omega]

theorem Inv.removeOld (inv : c.Inv) (minTS : Nat) : (c.removeOld minTS).Inv := by
  obtain ⟨k, le, eq, -⟩ := inv.removeOld_received minTS
  rw [eq]
  exact ⟨inv.sorted.drop k, by simp⟩

theorem Inv.erase (inv : c.Inv) (addrs : List Nat) : (c.erase addrs).Inv := by
  refine ⟨inv.sorted.filter _, ?_⟩
  have count := c.received.length_eq_countP_add_countP fun p => addrs.contains p.addr
  have kept : (c.received.filter fun p => !addrs.contains p.addr).length =
      c.received.countP fun p => !addrs.contains p.addr := by
    rw [List.countP_eq_length_filter]
  have size := inv.size
  simp only [Column.erase]
  simp only [Bool.not_eq_true, Bool.decide_eq_false] at count
  omega

end Column

/-! ## All stacks of a rule -/

/-- Every stack is in order. -/
structure Stacks.Ordered (st : Stacks) : Prop where
  states : ∀ i, (st.states i).Inv
  negs : ∀ i, (st.negs i).Inv
  aggs : ∀ i, (st.aggs i).Inv

/-- Between two calls, every stack is in order and stack 0 is empty. -/
structure Stacks.Inv (st : Stacks) : Prop extends Stacks.Ordered st where
  terminator : (st.states 0).received = []

/-- Replacing one column by one in order keeps a family of columns in order. -/
theorem inv_update {columns : Nat → Column} {i : Nat} {c : Column} (inv : ∀ j, (columns j).Inv)
    (new : c.Inv) : ∀ j, (Function.update columns i c j).Inv := by
  intro j
  rcases eq_or_ne j i with rfl | ne
  · rw [Function.update_self]
    exact new
  · rw [Function.update_of_ne ne]
    exact inv j

namespace Stacks

variable {st : Stacks}

theorem inv_initial : Stacks.initial.Inv :=
  ⟨⟨fun _ => Column.inv_empty, fun _ => Column.inv_empty, fun _ => Column.inv_empty⟩, rfl⟩

theorem Inv.addToStack (inv : st.Inv) (p : PubPktPtr) {i : Nat} (pos : 1 ≤ i) :
    (st.addToStack p i).Inv := by
  refine ⟨⟨inv_update inv.states ((inv.states i).add p), inv.negs, inv.aggs⟩, ?_⟩
  simp only [Stacks.addToStack]
  rw [Function.update_of_ne (show 0 ≠ i by omega)]
  exact inv.terminator

theorem Inv.addToNegationStack (inv : st.Inv) (p : PubPktPtr) (i : Nat) :
    (st.addToNegationStack p i).Inv :=
  ⟨⟨inv.states, inv_update inv.negs ((inv.negs i).add p), inv.aggs⟩, inv.terminator⟩

theorem Inv.addToAggregateStack (inv : st.Inv) (p : PubPktPtr) (i : Nat) :
    (st.addToAggregateStack p i).Inv :=
  ⟨⟨inv.states, inv.negs, inv_update inv.aggs ((inv.aggs i).add p)⟩, inv.terminator⟩

/-- With the terminator pushed the stacks are still in order: stack 0 was empty. -/
theorem Inv.pushTerminator (inv : st.Inv) (p : PubPktPtr) : (st.pushTerminator p).Ordered := by
  refine ⟨inv_update inv.states ?_, inv.negs, inv.aggs⟩
  rw [inv.terminator]
  exact Column.inv_singleton p

theorem Ordered.popTerminator (ordered : st.Ordered) : st.popTerminator.Inv := by
  refine ⟨⟨inv_update ordered.states Column.inv_empty, ordered.negs, ordered.aggs⟩, ?_⟩
  simp [Stacks.popTerminator]

end Stacks

/-! ## Expiry and consumption -/

namespace StacksRule

variable (r : StacksRule) {st : Stacks}

theorem clearState_cases (st : Stacks) (i : Nat) :
    r.clearState st i = st ∨ ∃ minTS, r.clearState st i =
      { st with states := Function.update st.states i ((st.states i).removeOld minTS) } := by
  unfold clearState
  simp only
  split
  · exact .inl rfl
  · exact .inr ⟨_, rfl⟩

theorem clearNegation_cases (st : Stacks) (i : Nat) :
    r.clearNegation st i = st ∨ ∃ minTS, r.clearNegation st i =
      { st with negs := Function.update st.negs i ((st.negs i).removeOld minTS) } := by
  unfold clearNegation
  split
  · exact .inl rfl
  · simp only
    split
    · exact .inl rfl
    · exact .inr ⟨_, rfl⟩

theorem clearAggregate_cases (st : Stacks) (i : Nat) :
    r.clearAggregate st i = st ∨ ∃ minTS, r.clearAggregate st i =
      { st with aggs := Function.update st.aggs i ((st.aggs i).removeOld minTS) } := by
  unfold clearAggregate
  split
  · exact .inl rfl
  · simp only
    split
    · exact .inl rfl
    · exact .inr ⟨_, rfl⟩

theorem consumeState_cases (partialEvents : List PartialEvent) (st : Stacks) (i : Nat) :
    r.consumeState partialEvents st i = st ∨ r.consumeState partialEvents st i =
      { st with states :=
          Function.update st.states i ((st.states i).erase (pktsToRemove partialEvents i)) } := by
  unfold consumeState
  split
  · exact .inr rfl
  · exact .inl rfl

theorem clearState_ordered (i : Nat) (ordered : st.Ordered) : (r.clearState st i).Ordered := by
  rcases r.clearState_cases st i with same | ⟨minTS, dropped⟩
  · rwa [same]
  · rw [dropped]
    exact ⟨inv_update ordered.states ((ordered.states i).removeOld _), ordered.negs, ordered.aggs⟩

theorem clearNegation_ordered (i : Nat) (ordered : st.Ordered) :
    (r.clearNegation st i).Ordered := by
  rcases r.clearNegation_cases st i with same | ⟨minTS, dropped⟩
  · rwa [same]
  · rw [dropped]
    exact ⟨ordered.states, inv_update ordered.negs ((ordered.negs i).removeOld _), ordered.aggs⟩

theorem clearAggregate_ordered (i : Nat) (ordered : st.Ordered) :
    (r.clearAggregate st i).Ordered := by
  rcases r.clearAggregate_cases st i with same | ⟨minTS, dropped⟩
  · rwa [same]
  · rw [dropped]
    exact ⟨ordered.states, ordered.negs, inv_update ordered.aggs ((ordered.aggs i).removeOld _)⟩

theorem clearStates_ordered (ordered : st.Ordered) : (r.clearStates st).Ordered :=
  List.foldlRecOn _ _ ordered fun _ ih i _ => r.clearState_ordered i ih

theorem clearNegations_ordered (ordered : st.Ordered) : (r.clearNegations st).Ordered :=
  List.foldlRecOn _ _ ordered fun _ ih i _ => r.clearNegation_ordered i ih

theorem clearAggregates_ordered (ordered : st.Ordered) : (r.clearAggregates st).Ordered :=
  List.foldlRecOn _ _ ordered fun _ ih i _ => r.clearAggregate_ordered i ih

theorem clearStacks_ordered (ordered : st.Ordered) : (r.clearStacks st).Ordered :=
  r.clearAggregates_ordered (r.clearNegations_ordered (r.clearStates_ordered ordered))

theorem removeConsumedEvent_ordered (partialEvents : List PartialEvent) (ordered : st.Ordered) :
    (r.removeConsumedEvent st partialEvents).Ordered := by
  refine List.foldlRecOn _ _ ordered fun st' ih i _ => ?_
  rcases r.consumeState_cases partialEvents st' i with same | erased
  · rwa [same]
  · rw [erased]
    exact ⟨inv_update ih.states ((ih.states i).erase _), ih.negs, ih.aggs⟩

/-- A computation leaves the stacks in order and stack 0 empty, if its expiry step keeps them in
order. -/
theorem computationWith_inv {clear : Stacks → Stacks}
    (clearOrdered : ∀ {st : Stacks}, st.Ordered → (clear st).Ordered) (inv : st.Inv)
    (p : PubPktPtr) : (r.computationWith clear st p).after.Inv :=
  (r.removeConsumedEvent_ordered _ (clearOrdered (inv.pushTerminator p))).popTerminator

/-- One call keeps the invariant. -/
theorem stepWith_inv {clear : Stacks → Stacks}
    (clearOrdered : ∀ {st : Stacks}, st.Ordered → (clear st).Ordered) (inv : st.Inv) {c : Call}
    (valid : c.Valid r) : (r.stepWith clear st c).Inv := by
  cases c with
  | addToStack p i => exact inv.addToStack p valid.1
  | addToNegationStack p i => exact inv.addToNegationStack p i
  | addToAggregateStack p i => exact inv.addToAggregateStack p i
  | startComputation p => exact r.computationWith_inv clearOrdered inv p

theorem step_inv (inv : st.Inv) {c : Call} (valid : c.Valid r) : (r.step st c).Inv :=
  r.stepWith_inv r.clearStacks_ordered inv valid

end StacksRule

/-- In every run of calls, with timestamps in any order, each stack of states, negations and
aggregates is sorted by timestamp after every call, every counter is the length of its vector, and
stack 0 is empty. -/
theorem run_inv (pkt : RulePkt) (calls : List Call)
    (valid : ∀ c ∈ calls, c.Valid (StacksRule.new pkt)) :
    ((StacksRule.new pkt).run .initial calls).Inv :=
  List.foldlRecOn calls _ Stacks.inv_initial fun _ inv c mem =>
    (StacksRule.new pkt).step_inv inv (valid c mem)

/-- A packet with one attribute, the area. -/
def reading (addr type time : Nat) : PubPktPtr :=
  ⟨addr, PubPkt.new type [⟨['a'], .int 7⟩] time⟩

/-- Two temperatures that arrive out of order, rain between them, and smoke. -/
def fireCalls : List Call :=
  [.addToStack (reading 1 2 60) 1, .addToStack (reading 2 2 40) 1,
    .addToNegationStack (reading 3 3 50) 0, .startComputation (reading 4 1 100)]

theorem fireRule_run_inv :
    ((StacksRule.new RulePkt.fireRule).run .initial fireCalls).Inv ∧
      (((StacksRule.new RulePkt.fireRule).run .initial fireCalls).states 1).received =
        [reading 2 2 40] :=
  ⟨run_inv RulePkt.fireRule fireCalls (by
    intro c mem
    simp only [fireCalls, List.mem_cons, List.not_mem_nil, or_false] at mem
    rcases mem with rfl | rfl | rfl | rfl <;> simp [Call.Valid, RulePkt.fireRule]), by decide⟩

end TRex
