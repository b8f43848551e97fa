import TRex.PatternSearch

/-!
# The partial results state by state

`partials k` lists the partial results once the states up to `k` are assigned. A member was built by
one choice after the other: for every assigned state it comes from a partial result of the states
before, extended by a packet that the search found for it (`exists_extension_of_mem`), so that what
the search tests of that packet can be read off the finished result.
-/

namespace TRex

namespace StacksRule

variable (r : StacksRule) {st : Stacks} {t : PubPktPtr} {pe : PartialEvent} {e : PubPktPtr}
  {i j k : Nat}

/-- The packets that may extend a partial result at state `i`. -/
def candidates (st : Stacks) (i : Nat) (pe : PartialEvent) : List PubPktPtr :=
  r.extensions st i (pe.timeOf (r.referenceState i)) (r.getKind i) pe

/-- The partial results alive once the states up to `k` are assigned. -/
def partials (st : Stacks) (t : PubPktPtr) (k : Nat) : List PartialEvent :=
  (List.range' 1 k).foldl (fun events i => events.flatMap (r.extendOne st i))
    [PartialEvent.empty.set 0 t]

variable {r}

theorem mem_picks {kind : CompKind} {accepted : List PubPktPtr} (mem : e ∈ picks kind accepted) :
    e ∈ accepted := by
  cases kind with
  | firstWithin => exact List.mem_of_mem_take mem
  | lastWithin => exact List.mem_reverse.mp (List.mem_of_mem_take mem)
  | eachWithin => exact mem
  | allWithin => exact mem

/-- A candidate is a packet of the state's stack, inside its window, and passes its test. -/
theorem mem_candidates (mem : e ∈ r.candidates st i pe) :
    e ∈ (st.states i).received ∧
      (pe.timeOf (r.referenceState i) - r.getWindow i < e.getTimeStamp ∧
        e.getTimeStamp < pe.timeOf (r.referenceState i)) ∧ r.accepts st i pe e = true := by
  obtain ⟨inWindow, accepted⟩ := List.mem_filter.mp (mem_picks mem)
  obtain ⟨inStack, window⟩ := mem_between.mp inWindow
  exact ⟨inStack, window, accepted⟩

theorem partials_zero : r.partials st t 0 = [PartialEvent.empty.set 0 t] := rfl

theorem mem_partials_succ :
    pe ∈ r.partials st t (k + 1) ↔ ∃ front ∈ r.partials st t k, ∃ e ∈ r.candidates st (k + 1) front,
      front.set (k + 1) e = pe := by
  rw [partials, List.range'_1_concat, List.foldl_concat, ← partials, Nat.add_comm 1 k]
  simp only [List.mem_flatMap, extendOne, List.mem_map, candidates]

theorem indexes_zero_of_mem (mem : pe ∈ r.partials st t k) : pe.indexes 0 = some t := by
  induction k generalizing pe with
  | zero =>
      rw [partials_zero, List.mem_singleton] at mem
      rw [mem, PartialEvent.set_self]
  | succ k ih =>
      obtain ⟨front, inFront, e, -, rfl⟩ := mem_partials_succ.mp mem
      rw [PartialEvent.set_of_ne _ _ (by omega), ih inFront]

/-- A finished result comes from one of the states before `j + 1`, extended by a candidate. -/
theorem exists_extension_of_mem (mem : pe ∈ r.partials st t k) (lt : j < k) :
    ∃ front ∈ r.partials st t j, ∃ e ∈ r.candidates st (j + 1) front,
      (front.set (j + 1) e).AgreeBelow (j + 2) pe := by
  induction k generalizing pe with
  | zero => omega
  | succ k ih =>
      obtain ⟨front, inFront, e, candidate, rfl⟩ := mem_partials_succ.mp mem
      rcases Nat.lt_or_eq_of_le (Nat.le_of_lt_succ lt) with less | rfl
      · obtain ⟨front', inFront', e', candidate', agree⟩ := ih inFront less
        refine ⟨front', inFront', e', candidate', fun i below => ?_⟩
        rw [agree i below, PartialEvent.set_of_ne _ _ (by omega)]
      · exact ⟨front, inFront, e, candidate, fun _ _ => rfl⟩

/-- Every state up to `k` has a packet, and no other state has one. -/
theorem assigned_of_mem (mem : pe ∈ r.partials st t k) (le : i ≤ k) :
    ∃ e, pe.indexes i = some e := by
  cases i with
  | zero => exact ⟨t, indexes_zero_of_mem mem⟩
  | succ i =>
      obtain ⟨front, -, e, -, agree⟩ := exists_extension_of_mem mem le
      exact ⟨e, by rw [← agree (i + 1) (by omega), PartialEvent.set_self]⟩

theorem unassigned_of_mem (mem : pe ∈ r.partials st t k) (later : k < i) : pe.indexes i = none := by
  induction k generalizing pe with
  | zero =>
      rw [partials_zero, List.mem_singleton] at mem
      rw [mem, PartialEvent.set_of_ne _ _ (by omega)]
      rfl
  | succ k ih =>
      obtain ⟨front, inFront, e, -, rfl⟩ := mem_partials_succ.mp mem
      rw [PartialEvent.set_of_ne _ _ (by omega), ih inFront (by omega)]

theorem mem_partials_of_mem_getPartialResults (inv : ∀ i, (st.states i).Inv)
    (mem : pe ∈ r.getPartialResults st t) : pe ∈ r.partials st t (r.stacksNum - 1) := by
  rw [r.getPartialResults_eq inv] at mem
  split at mem
  · cases mem
  · exact mem

end StacksRule

end TRex
