import TRex.StacksInvariant

/-!
# What the search for partial results computes

On stacks in order the loops of `getPartialResults` are list operations: `checkNegation` asks for a
negation event strictly inside an interval (`checkNegation_iff`), `getWinEvents` appends one
extension for each packet that the state's selection policy picks among the accepted ones of its
window (`getWinEvents_eq`), and the loop over the states is a fold (`getPartialResults_eq`).
-/

namespace TRex

namespace StacksRule

variable (r : StacksRule) {st : Stacks}

/-! ## Negations -/

/-- A negation invalidates a partial result if some event strictly inside its interval satisfies the
negation's parameters. -/
theorem checkNegation_iff {k : Nat} {neg : Negation} {pe : PartialEvent} (inv : (st.negs k).Inv)
    (lookup : r.negations[k]? = some neg) :
    r.checkNegation st k pe = true ↔
      ∃ e ∈ between (negationBounds neg pe).1 (negationBounds neg pe).2 (st.negs k).received,
        checkParameters e pe k .neg (r.negationComplexParameters k) = true := by
  unfold checkNegation
  simp only [lookup, inv.size]
  split
  case isTrue empty =>
    have none : (st.negs k).received = [] := List.length_eq_zero_iff.mp (by omega)
    simp [none, between]
  rcases validRange_spec inv.sorted (negationBounds neg pe).1 (negationBounds neg pe).2 with
    ⟨answer, nothing⟩ | ⟨range, answer, visited, nonempty⟩
  · rw [answer, nothing]
    simp
  · rw [answer]
    simp only
    split
    case isTrue free =>
      -- without parameters the events are not looked at, but there is one
      obtain ⟨e, mem⟩ := List.exists_mem_of_ne_nil _ nonempty
      rw [List.isEmpty_iff.mp free]
      exact ⟨fun _ => ⟨e, mem, rfl⟩, fun _ => rfl⟩
    case isFalse => rw [visited, List.any_eq_true]

/-! ## One state -/

/-- The test that `getWinEvents` makes of each packet it visits. -/
def accepts (st : Stacks) (index : Nat) (pe : PartialEvent) (tmpPkt : PubPktPtr) : Bool :=
  checkParameters tmpPkt pe index .state (r.branchStackComplexParameters index) &&
    !(r.getLinkedNegations index).any fun neg => r.checkNegation st neg (pe.set index tmpPkt)

/-- What a selection policy keeps of the accepted packets, which are in time order. -/
def picks (kind : CompKind) (accepted : List PubPktPtr) : List PubPktPtr :=
  match kind with
  | .firstWithin => accepted.take 1
  | .lastWithin => accepted.reverse.take 1
  | .eachWithin | .allWithin => accepted

theorem winLoop_eq (index : Nat) (mode : CompKind) (pe : PartialEvent) (visited : List PubPktPtr)
    (results : List PartialEvent) :
    r.winLoop st index mode pe visited results = results ++
      (if mode = .lastWithin ∨ mode = .firstWithin
        then (visited.filter (r.accepts st index pe)).take 1
        else visited.filter (r.accepts st index pe)).map (pe.set index) := by
  induction visited generalizing results with
  | nil => simp [winLoop]
  | cons p rest ih =>
      unfold winLoop
      rw [List.filter_cons]
      change (if r.accepts st index pe p = true then _ else _) = _
      by_cases accepted : r.accepts st index pe p = true
      · rw [if_pos accepted, if_pos accepted]
        by_cases single : mode = .lastWithin ∨ mode = .firstWithin
        · simp [if_pos single]
        · rw [if_neg single, if_neg single, ih, if_neg single]
          simp
      · rw [if_neg accepted, if_neg accepted, ih]

/-- The packets that extend a partial result at a state. -/
def extensions (st : Stacks) (index : Nat) (tsUp : Nat) (mode : CompKind) (pe : PartialEvent) :
    List PubPktPtr :=
  picks mode ((between (tsUp - r.getWindow index) tsUp (st.states index).received).filter
    (r.accepts st index pe))

theorem getWinEvents_eq {index : Nat} (inv : (st.states index).Inv) (results : List PartialEvent)
    (tsUp : Nat) (mode : CompKind) (pe : PartialEvent) :
    r.getWinEvents st results index tsUp mode pe =
      results ++ (r.extensions st index tsUp mode pe).map (pe.set index) := by
  unfold getWinEvents extensions
  simp only [inv.size]
  split
  case isTrue empty =>
    have none : (st.states index).received = [] := List.length_eq_zero_iff.mp (by omega)
    cases mode <;> simp [none, between, picks]
  rcases validRange_spec inv.sorted (tsUp - r.getWindow index) tsUp with
    ⟨answer, nothing⟩ | ⟨range, answer, visited, -⟩
  · rw [answer, nothing]
    cases mode <;> simp [picks]
  · rw [answer]
    simp only [winLoop_eq, visited]
    cases mode <;> simp [picks, List.filter_reverse]

/-! ## All states -/

/-- The extensions of one partial result by a packet of state `i`. -/
def extendOne (st : Stacks) (i : Nat) (pe : PartialEvent) : List PartialEvent :=
  (r.extensions st i (pe.timeOf (r.referenceState i)) (r.getKind i) pe).map (pe.set i)

theorem extend_eq {i : Nat} (inv : (st.states i).Inv) (prevEvents : List PartialEvent) :
    r.extend st i prevEvents = prevEvents.flatMap (r.extendOne st i) := by
  have loop : ∀ results : List PartialEvent,
      prevEvents.foldl (fun currentEvents event =>
        r.getWinEvents st currentEvents i (event.timeOf (r.referenceState i)) (r.getKind i) event)
        results = results ++ prevEvents.flatMap (r.extendOne st i) := by
    induction prevEvents with
    | nil => simp
    | cons pe rest ih =>
        intro results
        rw [List.foldl_cons, ih, r.getWinEvents_eq inv, List.flatMap_cons, List.append_assoc,
          extendOne]
  rw [extend, loop [], List.nil_append]

/-- Leaving the loop early changes nothing: no partial result has no extension. -/
theorem statesLoop_eq (inv : ∀ i, (st.states i).Inv) (states : List Nat)
    (prevEvents : List PartialEvent) :
    r.statesLoop st states prevEvents =
      states.foldl (fun events i => events.flatMap (r.extendOne st i)) prevEvents := by
  induction states generalizing prevEvents with
  | nil => rfl
  | cons i rest ih =>
      rw [statesLoop, List.foldl_cons, ← r.extend_eq (inv i)]
      split
      case isTrue dead =>
        rw [List.isEmpty_iff.mp dead]
        clear ih dead
        induction rest with
        | nil => rfl
        | cons j rest ih => rw [List.foldl_cons, List.flatMap_nil, ← ih]
      case isFalse => exact ih _

/-- The partial results: nothing if a negation on the root state invalidates the terminator, and
otherwise the terminator extended state by state. -/
theorem getPartialResults_eq (inv : ∀ i, (st.states i).Inv) (pkt : PubPktPtr) :
    r.getPartialResults st pkt =
      if (r.getLinkedNegations 0).any fun neg =>
        r.checkNegation st neg (PartialEvent.empty.set 0 pkt) then []
      else (List.range' 1 (r.stacksNum - 1)).foldl
        (fun events i => events.flatMap (r.extendOne st i)) [PartialEvent.empty.set 0 pkt] := by
  simp only [getPartialResults, r.statesLoop_eq inv]

end StacksRule

end TRex
