import TRex.Consumption
import TRex.Detection
import TRex.ExpiryInvisible

/-!
# One computation, exactly

A computation over stacks from which nothing expires finds the composite events of `Detection`, in
their order, generates their packets and uses up theirs (`computation_eq_react`). The search goes
through the choices of packets in lexicographic order, so its results are the choices that are
matches, filtered from all choices (`alive_eq_filter`).
-/

namespace TRex

open Detection (choicesUpTo composites compose consume receive takes)

/-! ## The choices that the search makes -/

section Search

variable {pkt : RulePkt} {st : Stacks} {t : PubPktPtr}

/-- The packets chosen for all states so far are selected. -/
def SelectedUpTo (pkt : RulePkt) (st : Stacks) (t : PubPktPtr) (pos : List Nat) : Prop :=
  ∀ i j : Nat, pos[i]? = some j → Selected pkt st (assigned st t pos) (i + 1) j

theorem selectedUpTo_snoc (built : pkt.Built) (reads : pkt.ReadsAssigned) (front : List Nat)
    (j : Nat) : SelectedUpTo pkt st t (front ++ [j]) ↔
      SelectedUpTo pkt st t front ∧
        Selected pkt st (assigned st t front) (front.length + 1) j := by
  have agree := assigned_append_agree st t front [j]
  have earlier : ∀ i < front.length, ∀ j' : Nat,
      Selected pkt st (assigned st t (front ++ [j])) (i + 1) j' ↔
        Selected pkt st (assigned st t front) (i + 1) j' := by
    intro i lt j'
    exact selected_congr built reads (by omega) (fun i' below => agree i' (by omega)) j'
  have last : Selected pkt st (assigned st t (front ++ [j])) (front.length + 1) j ↔
      Selected pkt st (assigned st t front) (front.length + 1) j :=
    selected_congr built reads (by omega) agree j
  constructor
  · intro selected
    refine ⟨fun i j' lookup => ?_, last.mp (selected front.length j (by simp))⟩
    have lt := (List.getElem?_eq_some_iff.mp lookup).1
    exact (earlier i lt j').mp (selected i j' (by rwa [List.getElem?_append_left lt]))
  · intro ⟨selected, new⟩ i j' lookup
    rcases Nat.lt_or_ge i front.length with lt | ge
    · rw [List.getElem?_append_left lt] at lookup
      exact (earlier i lt j').mpr (selected i j' lookup)
    · obtain rfl : i = front.length := by
        have := (List.getElem?_eq_some_iff.mp lookup).1
        simp only [List.length_append, List.length_singleton] at this
        omega
      rw [List.getElem?_concat_length, Option.some.injEq] at lookup
      exact lookup ▸ last.mpr new

theorem length_of_mem_choicesUpTo {k : Nat} {pos : List Nat} (mem : pos ∈ choicesUpTo st k) :
    pos.length = k := by
  induction k generalizing pos with
  | zero => rw [List.mem_singleton.mp mem, List.length_nil]
  | succ k ih =>
      obtain ⟨front, inFront, j⟩ := List.mem_flatMap.mp mem
      obtain ⟨j, -, rfl⟩ := List.mem_map.mp j
      rw [List.length_append, ih inFront, List.length_singleton]

theorem pairwise_choices (pe : PartialEvent) (i : Nat) :
    ((choices pkt st pe i).map Prod.snd).Pairwise (· < ·) := by
  rw [List.pairwise_map]
  unfold choices
  cases (StacksRule.new pkt).getKind i with
  | eachWithin => exact Positions.pairwise_positions
  | allWithin => exact Positions.pairwise_positions
  | firstWithin => exact Positions.pairwise_positions.sublist (List.take_sublist _ _)
  | lastWithin =>
      have short : ∀ entries : List (PubPktPtr × Nat),
          (entries.take 1).Pairwise fun a b => a.2 < b.2 := by
        intro entries
        cases entries with
        | nil => exact List.Pairwise.nil
        | cons e rest => exact List.pairwise_singleton _ _
      exact short _

open Classical in
/-- The positions chosen for one state, in their order. -/
theorem map_snd_choices (reads : pkt.ReadsAssigned) (negs : ∀ k, (st.negs k).Inv)
    (pe : PartialEvent) {i : Nat} (pos : 1 ≤ i) (lt : i < pkt.predicates.length) :
    (choices pkt st pe i).map Prod.snd =
      (List.range (st.states i).received.length).filter fun j =>
        decide (Selected pkt st pe i j) := by
  have sorted : ((choices pkt st pe i).map Prod.snd).Pairwise (· < ·) := pairwise_choices pe i
  have sorted' : ((List.range (st.states i).received.length).filter fun j =>
      decide (Selected pkt st pe i j)).Pairwise (· < ·) := List.pairwise_lt_range.filter _
  refine List.Perm.eq_of_pairwise (fun a b _ _ less greater => absurd greater (by omega)) sorted
    sorted' ((List.perm_ext_iff_of_nodup (sorted.imp Nat.ne_of_lt) (sorted'.imp Nat.ne_of_lt)).mpr
      fun j => ?_)
  rw [List.mem_map, List.mem_filter, List.mem_range, decide_eq_true_eq]
  constructor
  · intro ⟨⟨e, j'⟩, chosen, same⟩
    subst same
    obtain ⟨found, selected⟩ := (mem_choices reads negs pos lt).mp chosen
    exact ⟨(List.getElem?_eq_some_iff.mp found).1, selected⟩
  · intro ⟨_, selected⟩
    have ⟨e, found, _⟩ := selected
    exact ⟨(e, j), (mem_choices reads negs pos lt).mpr ⟨found, selected⟩, rfl⟩

open Classical in
/-- What is alive after `k` states are the choices up to there all of whose packets are selected. -/
theorem alive_eq_filter (built : pkt.Built) (reads : pkt.ReadsAssigned)
    (negs : ∀ k, (st.negs k).Inv) {k : Nat} (lt : k < pkt.predicates.length) :
    alive pkt st t k = (choicesUpTo st k).filter fun pos => decide (SelectedUpTo pkt st t pos) := by
  induction k with
  | zero =>
      have nothing : SelectedUpTo pkt st t [] := fun i j lookup => nomatch lookup
      simp [alive, choicesUpTo, nothing]
  | succ k ih =>
      have next : ∀ front ∈ choicesUpTo st k,
          (((List.range (st.states (k + 1)).received.length).map fun j => front ++ [j]).filter
              fun pos => decide (SelectedUpTo pkt st t pos)) =
            if SelectedUpTo pkt st t front then
              (choices pkt st (assigned st t front) (k + 1)).map fun e => front ++ [e.2]
            else [] := by
        intro front mem
        have positions := map_snd_choices reads negs (assigned st t front) (Nat.succ_pos k) lt
        have split : ∀ j, decide (SelectedUpTo pkt st t (front ++ [j])) =
            (decide (SelectedUpTo pkt st t front) &&
              decide (Selected pkt st (assigned st t front) (k + 1) j)) := by
          intro j
          rw [← Bool.decide_and]
          exact decide_eq_decide.mpr
            (length_of_mem_choicesUpTo mem ▸ selectedUpTo_snoc built reads front j)
        rw [List.filter_map]
        simp only [Function.comp_def, split]
        by_cases selected : SelectedUpTo pkt st t front
        · simp only [selected, decide_true, Bool.true_and, if_true, ← positions, List.map_map]
          rfl
        · simp [selected]
      rw [alive, ih (by omega), choicesUpTo, List.filter_flatMap, List.flatMap_congr next]
      generalize choicesUpTo st k = fronts
      induction fronts with
      | nil => rfl
      | cons front rest ihFronts =>
          rw [List.filter_cons, List.flatMap_cons, ← ihFronts]
          by_cases selected : SelectedUpTo pkt st t front <;> simp [selected]

end Search

/-! ## The root's packet on its stack -/

section Terminator

variable {pkt : RulePkt} {memory : Stacks} {p : PubPktPtr}

@[simp] theorem states_pushTerminator (i : Nat) :
    (memory.pushTerminator p).states (i + 1) = memory.states (i + 1) := by
  simp [Stacks.pushTerminator]

@[simp] theorem negs_pushTerminator : (memory.pushTerminator p).negs = memory.negs := rfl

theorem choicesUpTo_pushTerminator (k : Nat) :
    choicesUpTo (memory.pushTerminator p) k = choicesUpTo memory k := by
  induction k with
  | zero => rfl
  | succ k ih => simp only [choicesUpTo, ih, states_pushTerminator]

theorem assigned_pushTerminator (t : PubPktPtr) (pos : List Nat) :
    assigned (memory.pushTerminator p) t pos = assigned memory t pos := by
  ext1
  funext i
  cases i with
  | zero => rfl
  | succ i => simp only [assigned, states_pushTerminator]

theorem isMatch_pushTerminator (t : PubPktPtr) (pos : List Nat) :
    IsMatch pkt (memory.pushTerminator p) t pos ↔ IsMatch pkt memory t pos := by
  constructor
  · intro found
    obtain ⟨length, root, selected⟩ := found
    rw [assigned_pushTerminator] at root selected
    refine ⟨length, root, fun i j lookup => ?_⟩
    simpa only [Selected, Preferred, Eligible, NotNegated, Invalidated, states_pushTerminator,
      negs_pushTerminator] using selected i j lookup
  · intro found
    obtain ⟨length, root, selected⟩ := found
    refine ⟨length, ?_, fun i j lookup => ?_⟩
    · rw [assigned_pushTerminator]
      exact root
    · rw [assigned_pushTerminator]
      simpa only [Selected, Preferred, Eligible, NotNegated, Invalidated, states_pushTerminator,
        negs_pushTerminator] using selected i j lookup

theorem composites_pushTerminator :
    composites pkt (memory.pushTerminator p) p = composites pkt memory p := by
  unfold composites
  rw [choicesUpTo_pushTerminator]
  refine List.filter_congr fun pos _ => decide_eq_decide.mpr ?_
  unfold Detection.IsComposite
  rw [isMatch_pushTerminator, assigned_pushTerminator]

end Terminator

/-! ## A computation over all that was received -/

section Computation

variable {pkt : RulePkt} {st memory : Stacks} {t p : PubPktPtr}

open StacksRule (new)

open Classical in
/-- The partial results are the matches, in the order of the choices. -/
theorem getPartialResults_eq_filter (built : pkt.Built) (reads : pkt.ReadsAssigned)
    (states : ∀ i, (st.states i).Inv) (negs : ∀ k, (st.negs k).Inv)
    (rooted : 0 < pkt.predicates.length) :
    (new pkt).getPartialResults st t =
      ((choicesUpTo st (pkt.predicates.length - 1)).filter fun pos =>
        decide (IsMatch pkt st t pos)).map (assigned st t) := by
  have lt : pkt.predicates.length - 1 < pkt.predicates.length := by omega
  -- the parameters of the root are none, and its negations look at the root alone
  have root : ∀ pos, ParametersHold pkt .state (assigned st t pos) 0 t := by
    intro pos par mem isState atRoot
    have := (reads.states par mem isState).1
    omega
  have negated : ∀ pos, NotNegated pkt st (assigned st t pos) 0 ↔
      NotNegated pkt st (PartialEvent.empty.set 0 t) 0 := by
    intro pos
    rw [← show assigned st t [] = PartialEvent.empty.set 0 t from assigned_nil]
    exact notNegated_congr built reads (assigned_append_agree st t [] pos)
  have isMatch : ∀ pos ∈ choicesUpTo st (pkt.predicates.length - 1),
      IsMatch pkt st t pos ↔
        NotNegated pkt st (PartialEvent.empty.set 0 t) 0 ∧ SelectedUpTo pkt st t pos := by
    intro pos mem
    constructor
    · intro found
      exact ⟨(negated pos).mp found.root.2, found.selected⟩
    · intro ⟨free, selected⟩
      exact ⟨length_of_mem_choicesUpTo mem, ⟨root pos, (negated pos).mpr free⟩, selected⟩
  rw [StacksRule.getPartialResults_eq (new pkt) states, StacksRule.new_stacksNum]
  cases search : ((new pkt).getLinkedNegations 0).any fun neg =>
      (new pkt).checkNegation st neg (PartialEvent.empty.set 0 t) with
  | true =>
      have invalid : ¬ NotNegated pkt st (PartialEvent.empty.set 0 t) 0 := by
        rw [← notNegated_iff negs rooted, search]
        exact Bool.noConfusion
      have none : (choicesUpTo st (pkt.predicates.length - 1)).filter (fun pos =>
          decide (IsMatch pkt st t pos)) = [] := by
        rw [List.filter_eq_nil_iff]
        intro pos mem found
        exact invalid ((isMatch pos mem).mp (of_decide_eq_true found)).1
      rw [none, if_pos rfl, List.map_nil]
  | false =>
      have free := (notNegated_iff negs rooted).mp search
      rw [if_neg Bool.false_ne_true, foldl_extendOne_eq reads negs lt,
        alive_eq_filter built reads negs lt]
      refine congrArg _ (List.filter_congr fun pos mem => decide_eq_decide.mpr ?_)
      rw [isMatch pos mem]
      exact ⟨fun selected => ⟨free, selected⟩, And.right⟩

open Classical in
/-- The final results are the composites, where exchanging the names of the simple parameters makes
no difference. -/
theorem removePartialEventsNotMatchingParameters_eq (built : pkt.Built) (reads : pkt.ReadsAssigned)
    (exchanged : Equations.Equivalent pkt.checkedSystem pkt.statedSystem)
    (states : ∀ i, (st.states i).Inv) (negs : ∀ k, (st.negs k).Inv)
    (rooted : 0 < pkt.predicates.length) :
    (new pkt).removePartialEventsNotMatchingParameters ((new pkt).getPartialResults st t) =
      (composites pkt st t).map (assigned st t) := by
  rw [getPartialResults_eq_filter built reads states negs rooted,
    StacksRule.removePartialEventsNotMatchingParameters, List.filter_map, List.filter_filter]
  refine congrArg _ (List.filter_congr fun pos _ => ?_)
  rw [Bool.eq_iff_iff, Bool.and_eq_true, decide_eq_true_eq, decide_eq_true_eq, and_comm]
  exact and_congr_right fun _ => (all_checkParameter_iff _ _).trans exchanged.holds_iff

/-- A rule without attributes to compute generates what its template says all the same. -/
theorem createComplexEvents_eq {partialEvents : List PartialEvent}
    (terminator : (st.states 0).received = [t])
    (rooted : ∀ pe ∈ partialEvents, pe.indexes 0 = some t) :
    (new pkt).createComplexEvents st partialEvents = partialEvents.map
      (generateCompositeEvent (new pkt).ceTemplate ((new pkt).aggregatesOf st)) := by
  refine List.map_congr_left fun pe mem => ?_
  split
  case isTrue typeOnly =>
    have time : timeAt (st.states 0).received 0 = pe.timeOf 0 := by
      rw [terminator, PartialEvent.timeOf_of_some (rooted pe mem)]
      rfl
    have bare : (new pkt).ceTemplate.attributes.length +
        (new pkt).ceTemplate.staticAttributes.length = 0 ∧
        (new pkt).compositeEventId = (new pkt).ceTemplate.eventType := by
      simp only [new] at typeOnly ⊢
      split at typeOnly
      · rename_i none
        exact ⟨none, if_pos none⟩
      · omega
    have attributes := List.length_eq_zero_iff.mp (Nat.eq_zero_of_add_eq_zero bare.1).1
    have statics := List.length_eq_zero_iff.mp (Nat.eq_zero_of_add_eq_zero bare.1).2
    rw [bare.2, time, generateCompositeEvent, attributes, statics]
    rfl
  case isFalse => rfl

/-- The generator follows the rule's template. -/
theorem generateCompositeEvent_eq (inv : memory.Inv) (pos : List Nat) :
    generateCompositeEvent (new pkt).ceTemplate ((new pkt).aggregatesOf (memory.pushTerminator p))
      (assigned memory p pos) = compose pkt memory p pos := by
  have ranges : (new pkt).aggregatesOf (memory.pushTerminator p) =
      Detection.aggregatesOver pkt memory := by
    have sizes : (fun k => (memory.aggs k).size) =
        fun k => ((memory.aggs k).received.length : Int) := funext fun k => (inv.aggs k).size
    have filed : StacksRule.parametersUnder pkt .agg = fun k : Nat =>
        pkt.complexParameters.filter fun par => par.type = .agg ∧ par.lastIndex = (k : Int) := by
      funext k
      simp only [StacksRule.parametersUnder, Bool.decide_and]
    simp only [StacksRule.aggregatesOf, Detection.aggregatesOver, ← sizes, ← filed]
    rfl
  rw [ranges]
  rfl

end Computation

/-! ## What is used up -/

namespace Column

variable {c : Column} {used : Nat → Bool} {addresses : List Nat}

/-- Erasing by address, where the addresses are those at the positions used. -/
theorem Inv.erase_eq_without (inv : c.Inv)
    (same : ∀ (j : Nat) (q : PubPktPtr), c.received[j]? = some q →
      used j = addresses.contains q.addr) : c.erase addresses = c.without used := by
  have kept : (c.received.filter fun q => !addresses.contains q.addr) =
      (c.received.zipIdx.filter fun x => !used x.2).map Prod.fst := by
    conv => lhs; rw [← List.zipIdx_map_fst 0 c.received, List.filter_map]
    refine congrArg _ (List.filter_congr fun x mem => ?_)
    rw [same x.2 x.1 (List.mem_zipIdx_iff_getElem?.mp mem)]
    rfl
  have size : c.size - (c.received.countP fun q => addresses.contains q.addr) =
      (c.received.filter fun q => !addresses.contains q.addr).length := by
    have split := List.length_eq_countP_add_countP (l := c.received)
      fun q => addresses.contains q.addr
    have rest : c.received.countP (fun q => decide ¬ addresses.contains q.addr = true) =
        (c.received.filter fun q => !addresses.contains q.addr).length := by
      rw [List.countP_eq_length_filter]
      congr 2
      funext q
      cases addresses.contains q.addr <;> rfl
    rw [inv.size]
    omega
  unfold Column.erase Column.without
  rw [size, kept]

end Column

theorem Stacks.ext_columns {st st' : Stacks} (states : st.states = st'.states)
    (negs : st.negs = st'.negs) (aggs : st.aggs = st'.aggs) : st = st' := by
  cases st
  cases st'
  exact Stacks.mk.injEq .. ▸ ⟨states, negs, aggs⟩

section Consumption

variable {pkt : RulePkt} {st memory : Stacks} {t p : PubPktPtr} {chosen : List (List Nat)}

open StacksRule (new pktsToRemove)

theorem states_consume (i : Nat) : (consume pkt memory chosen).states i =
    if 1 ≤ i ∧ i < pkt.predicates.length ∧ i ∈ pkt.consuming then
      (memory.states i).without fun j => chosen.any fun pos => pos[i - 1]? == some j
    else memory.states i := rfl

theorem contains_pktsToRemove {i j : Nat} {q : PubPktPtr}
    (distinct : ((st.states (i + 1)).received.map PubPktPtr.addr).Nodup)
    (at_ : (st.states (i + 1)).received[j]? = some q) :
    (chosen.any fun pos => pos[i]? == some j) =
      (pktsToRemove (chosen.map (assigned st t)) (i + 1)).contains q.addr := by
  rw [Bool.eq_iff_iff, List.any_eq_true, List.contains_iff_mem, StacksRule.mem_pktsToRemove]
  constructor
  · intro ⟨pos, mem, lookup⟩
    refine ⟨assigned st t pos, List.mem_map_of_mem mem, q, ?_, rfl⟩
    show (pos[i]?.bind fun j => (st.states (i + 1)).received[j]?) = some q
    rw [beq_iff_eq.mp lookup, Option.bind_some, at_]
  · intro ⟨pe, isChosen, q', occupies, sameAddr⟩
    obtain ⟨pos, mem, rfl⟩ := List.mem_map.mp isChosen
    obtain ⟨j', lookup, found⟩ := Option.bind_eq_some_iff.mp occupies
    have bound : j' < ((st.states (i + 1)).received.map PubPktPtr.addr).length := by
      simpa using (List.getElem?_eq_some_iff.mp found).1
    have same : j' = j := by
      refine (List.getElem?_inj bound distinct).mp ?_
      rw [List.getElem?_map, List.getElem?_map, found, at_, Option.map_some, Option.map_some,
        sameAddr]
    exact ⟨pos, mem, beq_iff_eq.mpr (same ▸ lookup)⟩

/-- A computation from which nothing expires, in the terms of `Detection`. -/
theorem computation_eq_react (built : pkt.Built) (reads : pkt.ReadsAssigned)
    (exchanged : Equations.Equivalent pkt.checkedSystem pkt.statedSystem) (inv : memory.Inv)
    (distinct : ∀ i, ((memory.states i).received.map PubPktPtr.addr).Nodup)
    (rooted : 0 < pkt.predicates.length) :
    ((new pkt).computationWith id memory p).results =
        (composites pkt memory p).map (compose pkt memory p) ∧
      ((new pkt).computationWith id memory p).after =
        consume pkt memory (composites pkt memory p) := by
  have ordered := inv.pushTerminator p
  have valid : (new pkt).removePartialEventsNotMatchingParameters
      ((new pkt).getPartialResults (memory.pushTerminator p) p) =
        (composites pkt memory p).map (assigned memory p) := by
    rw [removePartialEventsNotMatchingParameters_eq built reads exchanged ordered.states
      ordered.negs
      rooted, composites_pushTerminator]
    exact List.map_congr_left fun pos _ => assigned_pushTerminator p pos
  refine ⟨?_, ?_⟩
  · have terminator : ((memory.pushTerminator p).states 0).received = [p] := by
      simp [Stacks.pushTerminator, inv.terminator]
    show (new pkt).createComplexEvents (memory.pushTerminator p) _ = _
    rw [id, valid, createComplexEvents_eq terminator, List.map_map]
    · exact List.map_congr_left fun pos _ => generateCompositeEvent_eq inv pos
    · intro pe mem
      obtain ⟨pos, -, rfl⟩ := List.mem_map.mp mem
      rfl
  · show ((new pkt).removeConsumedEvent (memory.pushTerminator p) _).popTerminator = _
    rw [id, valid]
    generalize chosen_eq : composites pkt memory p = chosen
    have states : ((new pkt).removeConsumedEvent (memory.pushTerminator p)
        (chosen.map (assigned memory p))).popTerminator.states =
          (consume pkt memory chosen).states := by
      funext i
      cases i with
      | zero =>
          have idle : memory.states 0 = ⟨0, []⟩ := by
            have size := (inv.states 0).size
            rw [inv.terminator] at size
            exact congrArg₂ Column.mk size inv.terminator
          simp [Stacks.popTerminator, states_consume, idle]
      | succ i =>
          have notRoot : ∀ st : Stacks, st.popTerminator.states (i + 1) = st.states (i + 1) := by
            simp [Stacks.popTerminator]
          rw [notRoot, states_consume]
          have size : (new pkt).stacksNum = pkt.predicates.length := StacksRule.new_stacksNum
          by_cases consuming : (new pkt).Consuming (i + 1)
          · have declared : 1 ≤ i + 1 ∧ i + 1 < pkt.predicates.length ∧ i + 1 ∈ pkt.consuming :=
              ⟨consuming.pos, size ▸ consuming.lt,
                consuming.declared⟩
            rw [if_pos declared, (new pkt).removeConsumedEvent_of_consuming _ _ consuming,
              states_pushTerminator]
            exact (inv.states (i + 1)).erase_eq_without fun j q at_ =>
              contains_pktsToRemove (distinct (i + 1)) at_
          · have other : ¬ (1 ≤ i + 1 ∧ i + 1 < pkt.predicates.length ∧ i + 1 ∈ pkt.consuming) :=
              fun found => consuming ⟨found.1, size ▸ found.2.1, found.2.2⟩
            rw [if_neg other, (new pkt).removeConsumedEvent_of_not_consuming _ _ consuming,
              states_pushTerminator]
    exact Stacks.ext_columns states ((new pkt).removeConsumedEvent_negs _ _)
      ((new pkt).removeConsumedEvent_aggs _ _)

end Consumption

end TRex
