import TRex.Lib.Reordering
import TRex.StacksInvariant

/-!
# The order in which packets arrive

`parametricAddToStack` inserts before the first newer packet, so on a stack in order it is insertion
by timestamp, and insertions of packets with different timestamps commute. The same packet may go to
several stacks, in any order: insertions into different stacks commute anyway.
-/

namespace TRex

/-- Packets that share a timestamp are the same packet. -/
def DistinctTimes (pkts : List PubPktPtr) : Prop :=
  ∀ p ∈ pkts, ∀ q ∈ pkts, p.getTimeStamp = q.getTimeStamp → p = q

namespace Column

variable {c : Column}

theorem Inv.add_eq (inv : c.Inv) (p : PubPktPtr) :
    c.add p = ⟨c.size + 1, Reordering.insertByKey PubPktPtr.getTimeStamp p c.received⟩ := by
  obtain ⟨k, -, eq, old, young⟩ := inv.add_received p
  rw [eq, Reordering.insertByKey_eq_of_cut old young]

theorem Inv.add_comm (inv : c.Inv) {p q : PubPktPtr} (ne : p.getTimeStamp ≠ q.getTimeStamp) :
    (c.add p).add q = (c.add q).add p := by
  rw [(inv.add p).add_eq q, (inv.add q).add_eq p, inv.add_eq p, inv.add_eq q,
    Reordering.insertByKey_comm ne]

/-- The packets of a list, inserted in any order, give the same stack. -/
theorem Inv.foldl_add_perm (inv : c.Inv) {l₁ l₂ : List PubPktPtr} (perm : l₁.Perm l₂)
    (distinct : DistinctTimes l₁) : l₁.foldl Column.add c = l₂.foldl Column.add c := by
  have keeps : ∀ p ∈ l₁, ∀ c : Column, c.Inv → (c.add p).Inv := fun p _ _ inv => inv.add p
  refine Reordering.foldl_eq_of_perm perm keeps ?_ inv
  intro p memP q memQ c inv
  by_cases same : p.getTimeStamp = q.getTimeStamp
  · rw [distinct p memP q memQ same]
  · exact inv.add_comm same

end Column

/-- Insertions into a family of stacks commute: into one stack by the timestamps, into different
stacks anyway. -/
theorem update_add_comm {columns : Nat → Column} (inv : ∀ i, (columns i).Inv) {p q : PubPktPtr}
    {i j : Nat} (apart : p.getTimeStamp ≠ q.getTimeStamp ∨ i ≠ j) :
    let once := Function.update columns i ((columns i).add p)
    let once' := Function.update columns j ((columns j).add q)
    Function.update once j ((once j).add q) = Function.update once' i ((once' i).add p) := by
  intro once once'
  rcases eq_or_ne i j with rfl | other
  · have ne : p.getTimeStamp ≠ q.getTimeStamp := by
      rcases apart with ne | other
      · exact ne
      · exact absurd rfl other
    simp [once, once', (inv i).add_comm ne]
  · simp [once, once', Function.update_comm other, other, other.symm]

/-! ## Insertions into the stacks of a rule -/

/-- The call puts its packet on a stack. -/
def Call.Inserts : Call → Prop
  | .startComputation _ => False
  | _ => True

section Insertions

variable (r : StacksRule) {st : Stacks}

theorem StacksRule.step_ordered (ordered : st.Ordered) {c : Call} (inserts : c.Inserts) :
    (r.step st c).Ordered := by
  cases c with
  | addToStack p i =>
      exact ⟨inv_update ordered.states ((ordered.states i).add p), ordered.negs, ordered.aggs⟩
  | addToNegationStack p i =>
      exact ⟨ordered.states, inv_update ordered.negs ((ordered.negs i).add p), ordered.aggs⟩
  | addToAggregateStack p i =>
      exact ⟨ordered.states, ordered.negs, inv_update ordered.aggs ((ordered.aggs i).add p)⟩
  | startComputation p => exact inserts.elim

theorem apart_of_distinct {p q : PubPktPtr} {i j : Nat}
    (distinct : p.getTimeStamp = q.getTimeStamp → p = q) (differ : p = q → i ≠ j) :
    p.getTimeStamp ≠ q.getTimeStamp ∨ i ≠ j := by
  by_cases same : p.getTimeStamp = q.getTimeStamp
  · exact .inr (differ (distinct same))
  · exact .inl same

/-- Two insertions commute, if packets with one timestamp are the same packet. -/
theorem StacksRule.step_comm (ordered : st.Ordered) {c d : Call} (inserts : c.Inserts)
    (inserts' : d.Inserts) (distinct : c.getTimeStamp = d.getTimeStamp → c.pkt = d.pkt) :
    r.step (r.step st c) d = r.step (r.step st d) c := by
  by_cases same : c = d
  · rw [same]
  cases c with
  | startComputation p => exact inserts.elim
  | addToStack p i =>
      cases d with
      | startComputation q => exact inserts'.elim
      | addToNegationStack q j => rfl
      | addToAggregateStack q j => rfl
      | addToStack q j =>
          have apart : p.getTimeStamp ≠ q.getTimeStamp ∨ i ≠ j :=
            apart_of_distinct distinct fun isP isI => same (by rw [isP, isI])
          have states := update_add_comm ordered.states apart
          simp only [StacksRule.step, StacksRule.stepWith, Stacks.addToStack]
          rw [states]
  | addToNegationStack p i =>
      cases d with
      | startComputation q => exact inserts'.elim
      | addToStack q j => rfl
      | addToAggregateStack q j => rfl
      | addToNegationStack q j =>
          have apart : p.getTimeStamp ≠ q.getTimeStamp ∨ i ≠ j :=
            apart_of_distinct distinct fun isP isI => same (by rw [isP, isI])
          have negs := update_add_comm ordered.negs apart
          simp only [StacksRule.step, StacksRule.stepWith, Stacks.addToNegationStack]
          rw [negs]
  | addToAggregateStack p i =>
      cases d with
      | startComputation q => exact inserts'.elim
      | addToStack q j => rfl
      | addToNegationStack q j => rfl
      | addToAggregateStack q j =>
          have apart : p.getTimeStamp ≠ q.getTimeStamp ∨ i ≠ j :=
            apart_of_distinct distinct fun isP isI => same (by rw [isP, isI])
          have aggs := update_add_comm ordered.aggs apart
          simp only [StacksRule.step, StacksRule.stepWith, Stacks.addToAggregateStack]
          rw [aggs]

/-- Insertions made in any order give the same stacks. -/
theorem StacksRule.run_perm (ordered : st.Ordered) {calls calls' : List Call}
    (perm : calls.Perm calls') (inserts : ∀ c ∈ calls, c.Inserts)
    (distinct : DistinctTimes (calls.map Call.pkt)) : r.run st calls = r.run st calls' := by
  have keeps : ∀ c ∈ calls, ∀ st : Stacks, st.Ordered → (r.step st c).Ordered :=
    fun c mem _ ordered => r.step_ordered ordered (inserts c mem)
  refine Reordering.foldl_eq_of_perm perm keeps ?_ ordered
  intro c memC d memD st ordered
  exact r.step_comm ordered (inserts c memC) (inserts d memD)
    (distinct c.pkt (List.mem_map_of_mem memC) d.pkt (List.mem_map_of_mem memD))

end Insertions

/-- The arrival order does not matter for packets with different timestamps. On a stack in order,
any two orders of inserting them give the same stack. At any moment of any run of a rule, any two
orders of putting them on the stacks of states, negations and aggregates lead to the same stacks,
so a terminator looks up, generates and leaves behind the same. -/
theorem arrivalOrder_irrelevant (pkt : RulePkt) (history : List Call)
    (valid : ∀ c ∈ history, c.Valid (StacksRule.new pkt)) :
    (∀ (c : Column), c.Inv → ∀ l₁ l₂ : List PubPktPtr, l₁.Perm l₂ → DistinctTimes l₁ →
      l₁.foldl Column.add c = l₂.foldl Column.add c) ∧
    ∀ calls calls' : List Call, calls.Perm calls' → (∀ c ∈ calls, c.Inserts) →
      DistinctTimes (calls.map Call.pkt) →
      let r := StacksRule.new pkt
      let st := r.run .initial history
      r.run st calls = r.run st calls' ∧
        ∀ terminator, r.startComputation (r.run st calls) terminator =
          r.startComputation (r.run st calls') terminator := by
  refine ⟨fun c inv l₁ l₂ perm distinct => inv.foldl_add_perm perm distinct, ?_⟩
  intro calls calls' perm inserts distinct r st
  have ordered : st.Ordered := (run_inv pkt history valid).toOrdered
  have same := r.run_perm ordered perm inserts distinct
  exact ⟨same, fun terminator => by rw [same]⟩

/-- One temperature is there; two older ones, and rain between them, arrive in either order. -/
theorem fireRule_arrivalOrder :
    let r := StacksRule.new RulePkt.fireRule
    let st := r.run .initial [.addToStack (reading 1 2 60) 1]
    r.run st [.addToStack (reading 2 2 40) 1, .addToNegationStack (reading 3 3 45) 0,
        .addToStack (reading 4 2 50) 1] =
      r.run st [.addToStack (reading 4 2 50) 1, .addToNegationStack (reading 3 3 45) 0,
        .addToStack (reading 2 2 40) 1] := by
  have valid : ∀ c ∈ [Call.addToStack (reading 1 2 60) 1],
      c.Valid (StacksRule.new RulePkt.fireRule) := by
    intro c mem
    rw [List.mem_singleton.mp mem]
    exact ⟨le_rfl, by decide⟩
  refine ((arrivalOrder_irrelevant RulePkt.fireRule _ valid).2 _ _ (List.reverse_perm _).symm ?_
    ?_).1
  · intro c mem
    simp only [List.mem_cons, List.not_mem_nil, or_false] at mem
    rcases mem with rfl | rfl | rfl <;> trivial
  · intro p memP q memQ same
    simp only [List.map_cons, List.map_nil, Call.pkt, List.mem_cons, List.not_mem_nil,
      or_false] at memP memQ
    rcases memP with rfl | rfl | rfl <;> rcases memQ with rfl | rfl | rfl <;>
      first | rfl | cases same

end TRex
