import TRex.Expiry

/-!
# Consumption

A rule may declare some of its states as consuming: a packet that takes part in a final result at
such a state is removed from the state's stack (`removeConsumedEvent`).

* `removeConsumedEvent_consumes` says what one call removes: from the stacks of consuming states
  exactly the packets that occupy the position in a final result, and nothing anywhere else.
* `computations_pairwise` carries this through a run: as long as no packet is added twice to the
  same stack, the final results of two different computations share no packet at a consuming state.

A packet is identified by its address, as in the source, which compares pointers.
-/

namespace TRex

namespace StacksRule

variable (r : StacksRule)

/-! ## Vocabulary -/

/-- The states whose packets `removeConsumedEvent` takes away. -/
structure Consuming (i : Nat) : Prop where
  pos : 1 ≤ i
  lt : i < r.stacksNum
  declared : i ∈ r.consumingIndexes

/-- The partial results that events are generated from. -/
def finalResults (c : Computation) : List PartialEvent :=
  r.removePartialEventsNotMatchingParameters c.partialResults

/-- The packets at position `i` of the final results of a computation. -/
def occupants (c : Computation) (i : Nat) : List Nat := pktsToRemove (r.finalResults c) i

/-- Everything that `removeConsumedEvent` does for a list of final results. -/
structure Consumes (finals : List PartialEvent) (before after : Stacks) : Prop where
  /-- A final result is made of packets of the stacks, one for each state. -/
  supported : ∀ pe ∈ finals, Supported before r.stacksNum pe
  taken : ∀ i, r.Consuming i → (after.states i).received =
    (before.states i).received.filter fun p => !(pktsToRemove finals i).contains p.addr
  counted : ∀ i, r.Consuming i → (after.states i).size = (after.states i).received.length
  kept : ∀ i, ¬ r.Consuming i → after.states i = before.states i
  negs : after.negs = before.negs
  aggs : after.aggs = before.aggs

/-- The packets that a run adds to the stack of state `i`. -/
def added (i : Nat) (calls : List Call) : List Nat :=
  calls.filterMap fun c =>
    match c with
    | .addToStack p j => if j = i then some p.addr else none
    | _ => none

/-! ## One call -/

theorem mem_pktsToRemove {partialEvents : List PartialEvent} {i a : Nat} :
    a ∈ pktsToRemove partialEvents i ↔
      ∃ pe ∈ partialEvents, ∃ q, pe.indexes i = some q ∧ q.addr = a := by
  simp [pktsToRemove]

theorem consumeState_of_ne (partialEvents : List PartialEvent) (st : Stacks) {i j : Nat}
    (ne : j ≠ i) : (r.consumeState partialEvents st i).states j = st.states j := by
  unfold consumeState
  split
  · exact Function.update_of_ne ne _ _
  · rfl

theorem consumeState_self (partialEvents : List PartialEvent) (st : Stacks) (i : Nat) :
    (r.consumeState partialEvents st i).states i =
      if i ∈ r.consumingIndexes then (st.states i).erase (pktsToRemove partialEvents i)
      else st.states i := by
  unfold consumeState
  simp only [List.contains_iff_mem]
  split
  · exact Function.update_self _ _ _
  · rfl

/-- The loop visits each state once, so a stack is changed by its own turn only. -/
theorem consumeLoop_states (partialEvents : List PartialEvent) {visited : List Nat}
    (nodup : visited.Nodup) (st : Stacks) (i : Nat) :
    (visited.foldl (r.consumeState partialEvents) st).states i =
      if i ∈ visited ∧ i ∈ r.consumingIndexes
      then (st.states i).erase (pktsToRemove partialEvents i) else st.states i := by
  induction visited generalizing st with
  | nil => simp
  | cons j rest ih =>
      obtain ⟨fresh, rest_nodup⟩ := List.nodup_cons.mp nodup
      rw [List.foldl_cons, ih rest_nodup]
      rcases eq_or_ne i j with rfl | ne
      · rw [consumeState_self]
        simp [fresh]
      · rw [r.consumeState_of_ne _ _ ne]
        simp [ne]

theorem consuming_iff {i : Nat} :
    r.Consuming i ↔ i ∈ List.range' 1 (r.stacksNum - 1) ∧ i ∈ r.consumingIndexes := by
  rw [List.mem_range'_1]
  constructor
  · intro consuming
    have := consuming.lt
    exact ⟨⟨consuming.pos, by omega⟩, consuming.declared⟩
  · rintro ⟨⟨pos, lt⟩, declared⟩
    exact ⟨pos, by omega, declared⟩

theorem removeConsumedEvent_of_consuming (partialEvents : List PartialEvent) (st : Stacks)
    {i : Nat} (consuming : r.Consuming i) :
    (r.removeConsumedEvent st partialEvents).states i =
      (st.states i).erase (pktsToRemove partialEvents i) := by
  rw [removeConsumedEvent, r.consumeLoop_states _ (List.nodup_range' 1),
    if_pos (r.consuming_iff.mp consuming)]

theorem removeConsumedEvent_of_not_consuming (partialEvents : List PartialEvent) (st : Stacks)
    {i : Nat} (other : ¬ r.Consuming i) :
    (r.removeConsumedEvent st partialEvents).states i = st.states i := by
  rw [removeConsumedEvent, r.consumeLoop_states _ (List.nodup_range' 1),
    if_neg fun visited => other (r.consuming_iff.mpr visited)]

/-- Along the loop over the states, the partial results stay made of packets of the stacks. -/
theorem supported_extend {st : Stacks} (width : Nat) {bound : Nat} {events : List PartialEvent}
    (supported : ∀ pe ∈ events, Supported st bound pe) :
    ∀ pe ∈ (List.range' bound width).foldl (fun events i => events.flatMap (r.extendOne st i))
      events,
      Supported st (bound + width) pe := by
  induction width generalizing bound events with
  | zero => exact supported
  | succ width ih =>
      rw [List.range'_succ, List.foldl_cons]
      intro pe mem
      rw [show bound + (width + 1) = bound + 1 + width by omega]
      refine ih ?_ pe mem
      intro pe' found
      obtain ⟨pe, old, extended⟩ := List.mem_flatMap.mp found
      exact r.supported_of_mem_extendOne (supported pe old) extended

theorem supported_of_mem_getPartialResults {st : Stacks} (ordered : st.Ordered) {p : PubPktPtr}
    (terminator : p ∈ (st.states 0).received) {pe : PartialEvent}
    (mem : pe ∈ r.getPartialResults st p) : Supported st r.stacksNum pe := by
  rw [r.getPartialResults_eq ordered.states] at mem
  split at mem
  · cases mem
  have last : ∀ pe ∈ [PartialEvent.empty.set 0 p], Supported st 1 pe := by
    intro pe mem j lt
    obtain rfl := List.mem_singleton.mp mem
    obtain rfl : j = 0 := by omega
    exact ⟨p, terminator, PartialEvent.set_self _ 0 p⟩
  have supported := r.supported_extend (r.stacksNum - 1) last pe mem
  intro j lt
  exact supported j (by omega)

/-- What one computation consumes. -/
theorem removeConsumedEvent_consumes {st : Stacks} (inv : st.Inv) (p : PubPktPtr) :
    r.Consumes (r.finalResults (r.startComputation st p)) (r.startComputation st p).during
      (r.removeConsumedEvent (r.startComputation st p).during
        (r.finalResults (r.startComputation st p))) := by
  have ordered : (r.startComputation st p).during.Ordered :=
    r.clearStacks_ordered (inv.pushTerminator p)
  have terminator : p ∈ ((r.startComputation st p).during.states 0).received := by
    simp only [startComputation, computationWith, clearStacks_states_zero]
    simp [Stacks.pushTerminator]
  refine ⟨?_, ?_, ?_, ?_, r.removeConsumedEvent_negs _ _, r.removeConsumedEvent_aggs _ _⟩
  · intro pe mem
    exact r.supported_of_mem_getPartialResults ordered terminator (List.mem_of_mem_filter mem)
  · intro i consuming
    rw [r.removeConsumedEvent_of_consuming _ _ consuming]
    rfl
  · intro i consuming
    rw [r.removeConsumedEvent_of_consuming _ _ consuming]
    exact ((ordered.states i).erase _).size
  · intro i other
    exact r.removeConsumedEvent_of_not_consuming _ _ other

/-! ## Whole runs -/

/-- Expiry adds nothing to a stack. -/
theorem mem_during {st : Stacks} {p q : PubPktPtr} {i : Nat} (pos : 1 ≤ i)
    (mem : q ∈ ((r.startComputation st p).during.states i).received) :
    q ∈ (st.states i).received := by
  simp only [startComputation, computationWith, clearStacks_states] at mem
  have pushed := r.mem_clearStates mem
  simp only [Stacks.pushTerminator] at pushed
  rw [Function.update_of_ne (by omega)] at pushed
  exact pushed

/-- After a computation no packet that it consumed is left, and no new one has come. -/
theorem mem_after {st : Stacks} (inv : st.Inv) {p q : PubPktPtr} {i : Nat}
    (consuming : r.Consuming i) (mem : q ∈ ((r.startComputation st p).after.states i).received) :
    q ∈ (st.states i).received ∧ q.addr ∉ r.occupants (r.startComputation st p) i := by
  have pos := consuming.pos
  have consumes := r.removeConsumedEvent_consumes inv p
  have left : q ∈ ((r.removeConsumedEvent (r.startComputation st p).during
      (r.finalResults (r.startComputation st p))).states i).received := by
    have popped : (r.startComputation st p).after.states i =
        (r.removeConsumedEvent (r.startComputation st p).during
          (r.finalResults (r.startComputation st p))).states i :=
      Function.update_of_ne (by omega) _ _
    rw [popped] at mem
    exact mem
  rw [consumes.taken i consuming, List.mem_filter] at left
  obtain ⟨during, free⟩ := left
  exact ⟨r.mem_during pos during, by simpa [occupants] using free⟩

/-- What a computation consumes at a state was in the state's stack before. -/
theorem stored_of_mem_occupants {st : Stacks} (inv : st.Inv) {p : PubPktPtr} {i a : Nat}
    (consuming : r.Consuming i) (mem : a ∈ r.occupants (r.startComputation st p) i) :
    ∃ q ∈ (st.states i).received, q.addr = a := by
  obtain ⟨pe, final, q, assigned, rfl⟩ := mem_pktsToRemove.mp mem
  obtain ⟨q', stored, assigned'⟩ :=
    (r.removeConsumedEvent_consumes inv p).supported pe final i consuming.lt
  obtain rfl : q = q' := Option.some.inj (assigned.symm.trans assigned')
  exact ⟨q, r.mem_during consuming.pos stored, rfl⟩

section Runs

variable {r}

/-- The computations of a run from a given state. -/
def computations (r : StacksRule) (st : Stacks) (calls : List Call) : List Computation :=
  r.computationsWith r.clearStacks st calls

/-- Every computation of a run starts in a state that keeps the invariant. -/
theorem mem_computations {st : Stacks} (inv : st.Inv) {calls : List Call}
    (valid : ∀ c ∈ calls, c.Valid r) {comp : Computation} (mem : comp ∈ r.computations st calls) :
    ∃ st' : Stacks, st'.Inv ∧ ∃ p, comp = r.startComputation st' p := by
  induction calls generalizing st with
  | nil => cases mem
  | cons c rest ih =>
      have next := r.step_inv inv (valid c List.mem_cons_self)
      have rest_valid := fun c' mem => valid c' (List.mem_cons_of_mem c mem)
      cases c with
      | startComputation p =>
          rcases List.mem_cons.mp mem with rfl | later
          · exact ⟨st, inv, p, rfl⟩
          · exact ih next rest_valid later
      | addToStack p i => exact ih next rest_valid mem
      | addToNegationStack p i => exact ih next rest_valid mem
      | addToAggregateStack p i => exact ih next rest_valid mem

/-- What a run consumes at a state was there at its start or is added on the way. -/
theorem origin_of_mem_occupants {st : Stacks} (inv : st.Inv) {calls : List Call}
    (valid : ∀ c ∈ calls, c.Valid r) {i : Nat} (consuming : r.Consuming i) {comp : Computation}
    (mem : comp ∈ r.computations st calls) {a : Nat} (occupies : a ∈ r.occupants comp i) :
    (∃ q ∈ (st.states i).received, q.addr = a) ∨ a ∈ added i calls := by
  induction calls generalizing st with
  | nil => cases mem
  | cons c rest ih =>
      have next := r.step_inv inv (valid c List.mem_cons_self)
      have rest_valid := fun c' mem => valid c' (List.mem_cons_of_mem c mem)
      cases c with
      | startComputation p =>
          rcases List.mem_cons.mp mem with rfl | later
          · exact .inl (r.stored_of_mem_occupants inv consuming occupies)
          · rcases ih next rest_valid later with ⟨q, stored, same⟩ | new
            · exact .inl ⟨q, (r.mem_after inv consuming stored).1, same⟩
            · exact .inr (by simpa [added] using new)
      | addToStack p j =>
          rcases ih next rest_valid mem with ⟨q, stored, same⟩ | new
          · rcases Stacks.mem_addToStack stored with old | ⟨rfl, rfl⟩
            · exact .inl ⟨q, old, same⟩
            · exact .inr (by simp [added, same])
          · have later : a ∈ added i rest := new
            refine .inr ?_
            simp only [added, List.filterMap_cons] at later ⊢
            split <;> simp [later]
      | addToNegationStack p k =>
          rcases ih next rest_valid mem with old | new
          · exact .inl old
          · exact .inr (by simpa [added] using new)
      | addToAggregateStack p k =>
          rcases ih next rest_valid mem with old | new
          · exact .inl old
          · exact .inr (by simpa [added] using new)

/-- Different computations consume different packets, if no packet of the stack is added again. -/
theorem computations_pairwise {st : Stacks} (inv : st.Inv) {calls : List Call}
    (valid : ∀ c ∈ calls, c.Valid r) {i : Nat} (consuming : r.Consuming i)
    (once : (added i calls).Nodup)
    (fresh : ∀ q ∈ (st.states i).received, q.addr ∉ added i calls) :
    (r.computations st calls).Pairwise fun c c' =>
      ∀ a ∈ r.occupants c i, a ∉ r.occupants c' i := by
  induction calls generalizing st with
  | nil => exact .nil
  | cons c rest ih =>
      have next := r.step_inv inv (valid c List.mem_cons_self)
      have rest_valid := fun c' mem => valid c' (List.mem_cons_of_mem c mem)
      cases c with
      | startComputation p =>
          refine .cons ?_ (ih next rest_valid once ?_)
          · -- a packet consumed now is neither left on the stack nor added again
            intro comp later a occupies again
            rcases origin_of_mem_occupants next rest_valid consuming later again with
              ⟨q, stored, rfl⟩ | new
            · exact (r.mem_after inv consuming stored).2 occupies
            · obtain ⟨q, stored, rfl⟩ := r.stored_of_mem_occupants inv consuming occupies
              exact fresh q stored new
          · intro q stored
            exact fresh q (r.mem_after inv consuming stored).1
      | addToStack p j =>
          refine ih next rest_valid ?_ ?_
          · refine once.sublist ?_
            exact (List.sublist_cons_self _ _).filterMap _
          · intro q stored again
            rcases Stacks.mem_addToStack stored with old | ⟨rfl, rfl⟩
            · apply fresh q old
              exact ((List.sublist_cons_self _ _).filterMap _).subset again
            · rw [added, List.filterMap_cons] at once
              simp only [if_true] at once
              exact (List.nodup_cons.mp once).1 again
      | addToNegationStack p k => exact ih next rest_valid once fresh
      | addToAggregateStack p k => exact ih next rest_valid once fresh

end Runs

end StacksRule

/-- In every run that adds no packet twice to the same state stack, the final results of two
different computations have no packet in common at a consuming state, and each computation removes
from the stacks of the consuming states exactly the packets at that position of its final results,
changing nothing else. -/
theorem consumption_exact (r : StacksRule) (calls : List Call) (valid : ∀ c ∈ calls, c.Valid r)
    (once : ∀ i, (StacksRule.added i calls).Nodup) :
    (∀ i, r.Consuming i → (r.computations .initial calls).Pairwise fun c c' =>
      ∀ a ∈ r.occupants c i, a ∉ r.occupants c' i) ∧
    ∀ c ∈ r.computations .initial calls,
      r.Consumes (r.finalResults c) c.during
        (r.removeConsumedEvent c.during (r.finalResults c)) ∧
      c.after = (r.removeConsumedEvent c.during (r.finalResults c)).popTerminator := by
  refine ⟨fun i consuming => ?_, fun c mem => ?_⟩
  · apply StacksRule.computations_pairwise Stacks.inv_initial valid consuming (once i)
    intro q stored
    cases stored
  · obtain ⟨st, inv, p, rfl⟩ := StacksRule.mem_computations Stacks.inv_initial valid mem
    exact ⟨r.removeConsumedEvent_consumes inv p, rfl⟩

/-- Two temperatures and two smoke events: each fire consumes the temperature it used. -/
def twoFires : List Call :=
  [.addToStack (reading 1 2 60) 1, .addToStack (reading 2 2 70) 1,
    .startComputation (reading 3 1 100), .startComputation (reading 4 1 110)]

theorem fireRule_consumption_exact :
    ((StacksRule.new RulePkt.fireRule).computations .initial twoFires).map
        (fun c => (StacksRule.new RulePkt.fireRule).occupants c 1) = [[2], [1]] ∧
      ((StacksRule.new RulePkt.fireRule).computations .initial twoFires).Pairwise
        (fun c c' => ∀ a ∈ (StacksRule.new RulePkt.fireRule).occupants c 1,
          a ∉ (StacksRule.new RulePkt.fireRule).occupants c' 1) := by
  refine ⟨by decide, ?_⟩
  have valid : ∀ c ∈ twoFires, c.Valid (StacksRule.new RulePkt.fireRule) := by
    intro c mem
    simp only [twoFires, List.mem_cons, List.not_mem_nil, or_false] at mem
    rcases mem with rfl | rfl | rfl | rfl <;> simp [Call.Valid, RulePkt.fireRule]
  have once : ∀ i, (StacksRule.added i twoFires).Nodup := by
    intro i
    by_cases one : 1 = i
    · subst one
      decide
    · simp [StacksRule.added, twoFires, one]
  exact (consumption_exact _ twoFires valid once).1 1 ⟨le_rfl, by decide, by decide⟩

end TRex
