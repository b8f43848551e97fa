import Mathlib.Data.List.Nodup
import TRex.Lib.Positions
import TRex.PatternSearch

/-!
# The declarative semantics of a rule

What a rule means, without the order in which the engine searches: `IsMatch` says of positions in
the stacks that the packets found there, together with the terminator, form a pattern. Each state's
packet lies in the open window before the packet it refers to, satisfies the complex parameters of
that state, is not invalidated by a negation linked to it, and is the one its selection policy asks
for. The conditions are read off the whole assignment.

`getPartialResults_exact` shows that the search enumerates exactly these positions. The search
tests state `i` when only the states before it are assigned, so every condition must be shown to
depend on those alone; `RulePkt.ReadsAssigned` is what that requires of the complex parameters.
-/

namespace TRex

/-! ## Rules -/

/-- The references of a rule lead to earlier states, and its complex parameters read only events
that are assigned when they are evaluated. -/
structure RulePkt.ReadsAssigned (pkt : RulePkt) : Prop where
  refersTo : pkt.RefersBack
  states : ∀ par ∈ pkt.complexParameters, par.type = .state →
    1 ≤ par.lastIndex ∧ par.ReadsStatesUpTo par.lastIndex
  negations : ∀ par ∈ pkt.complexParameters, par.type = .neg → ∀ (k : Nat) (n : Negation),
    par.lastIndex = k → pkt.negations[k]? = some n →
      par.ReadsNegationOrStatesUpTo (StacksRule.linkedState n)

/-- A negation is checked at its lower state, or at its upper one if it is time based. -/
def Negation.LinkedTo (n : Negation) (i : Nat) : Prop :=
  n.lowerId = i ∨ (n.lowerId < 0 ∧ n.upperId = i)

theorem linkedState_eq_iff {n : Negation} {i : Nat} :
    StacksRule.linkedState n = i ↔ n.LinkedTo i := by
  unfold StacksRule.linkedState Negation.LinkedTo
  split <;> omega

/-! ## Matches -/

/-- The terminator at state 0, and at state `i + 1` the packet at position `pos[i]` of its stack. -/
def assigned (st : Stacks) (terminator : PubPktPtr) (pos : List Nat) : PartialEvent :=
  ⟨fun
    | 0 => some terminator
    | i + 1 => (pos[i]?).bind fun j => (st.states (i + 1)).received[j]?⟩

/-- The open window of a state, before the packet it refers to. -/
def InWindow (p : Predicate) (pe : PartialEvent) (e : PubPktPtr) : Prop :=
  pe.timeOf p.refersTo - p.win < e.getTimeStamp ∧ e.getTimeStamp < pe.timeOf p.refersTo

/-- Every complex parameter of the kind that is filed under the index holds. -/
def ParametersHold (pkt : RulePkt) (type : StateType) (pe : PartialEvent) (index : Nat)
    (e : PubPktPtr) : Prop :=
  ∀ par ∈ pkt.complexParameters, par.type = type → par.lastIndex = index →
    checkComplexParameter e pe index type par = true

/-- Some event strictly inside the interval of the negation satisfies all its parameters. -/
def Invalidated (pkt : RulePkt) (st : Stacks) (pe : PartialEvent) (k : Nat) (n : Negation) : Prop :=
  ∃ e ∈ (st.negs k).received, (StacksRule.negationBounds n pe).1 < e.getTimeStamp ∧
    e.getTimeStamp < (StacksRule.negationBounds n pe).2 ∧ ParametersHold pkt .neg pe k e

/-- No negation linked to the state invalidates the assignment. -/
def NotNegated (pkt : RulePkt) (st : Stacks) (pe : PartialEvent) (i : Nat) : Prop :=
  ∀ (k : Nat) (n : Negation), pkt.negations[k]? = some n → n.LinkedTo i →
    ¬ Invalidated pkt st pe k n

/-- The packet may be assigned to state `i`, next to the other events of `pe`. -/
def Eligible (pkt : RulePkt) (st : Stacks) (pe : PartialEvent) (i : Nat) (e : PubPktPtr) : Prop :=
  (∃ p, pkt.predicates[i]? = some p ∧ InWindow p pe e) ∧ ParametersHold pkt .state pe i e ∧
    NotNegated pkt st (pe.set i e) i

/-- The policy of the state asks for position `j`: a first-within state has no eligible entry before
it, a last-within state none after it. -/
def Preferred (pkt : RulePkt) (st : Stacks) (pe : PartialEvent) (i j : Nat) : Prop :=
  ∀ p, pkt.predicates[i]? = some p →
    (p.kind = .firstWithin → ∀ (j' : Nat) (e' : PubPktPtr), (st.states i).received[j']? = some e' →
      j' < j → ¬ Eligible pkt st pe i e') ∧
    (p.kind = .lastWithin → ∀ (j' : Nat) (e' : PubPktPtr), (st.states i).received[j']? = some e' →
      j < j' → ¬ Eligible pkt st pe i e')

/-- The entry at position `j` is eligible for the state and the one its policy asks for. -/
def Selected (pkt : RulePkt) (st : Stacks) (pe : PartialEvent) (i j : Nat) : Prop :=
  ∃ e, (st.states i).received[j]? = some e ∧ Eligible pkt st pe i e ∧ Preferred pkt st pe i j

/-- The packets at the positions and the terminator form a pattern of the rule. -/
structure IsMatch (pkt : RulePkt) (st : Stacks) (terminator : PubPktPtr) (pos : List Nat) :
    Prop where
  length : pos.length = pkt.predicates.length - 1
  root : ParametersHold pkt .state (assigned st terminator pos) 0 terminator ∧
    NotNegated pkt st (assigned st terminator pos) 0
  selected : ∀ i j : Nat, pos[i]? = some j →
    Selected pkt st (assigned st terminator pos) (i + 1) j

/-! ## Assignments -/

section Assigned

variable {st : Stacks} {t e : PubPktPtr} {pos : List Nat} {j : Nat}

theorem assigned_nil : assigned st t [] = PartialEvent.empty.set 0 t := by
  ext i : 2
  cases i with
  | zero => rfl
  | succ i => rfl

/-- One more position assigns the next state. -/
theorem assigned_snoc (lookup : (st.states (pos.length + 1)).received[j]? = some e) :
    assigned st t (pos ++ [j]) = (assigned st t pos).set (pos.length + 1) e := by
  ext i : 2
  cases i with
  | zero => rfl
  | succ i =>
      simp only [assigned, PartialEvent.set, Nat.add_right_cancel_iff]
      rcases Nat.lt_trichotomy i pos.length with lt | rfl | gt
      · rw [if_neg (by omega), List.getElem?_append_left lt]
      · rw [if_pos rfl, List.getElem?_concat_length, Option.bind_some, lookup]
      · rw [if_neg (by omega), List.getElem?_eq_none (by simp; omega),
          List.getElem?_eq_none (by omega)]

theorem assigned_append_agree (st : Stacks) (t : PubPktPtr) (pos more : List Nat) :
    (assigned st t (pos ++ more)).AgreeBelow (pos.length + 1) (assigned st t pos) := by
  intro i lt
  cases i with
  | zero => rfl
  | succ i => simp only [assigned, List.getElem?_append_left (show i < pos.length by omega)]

end Assigned

theorem PartialEvent.AgreeBelow.set {i : Nat} {pe pe' : PartialEvent} (agree : pe.AgreeBelow i pe')
    (e : PubPktPtr) : (pe.set i e).AgreeBelow (i + 1) (pe'.set i e) := by
  intro j lt
  rcases eq_or_ne j i with rfl | ne
  · rw [set_self, set_self]
  · rw [set_of_ne _ _ ne, set_of_ne _ _ ne, agree j (by omega)]

theorem PartialEvent.AgreeBelow.timeOf {bound : Nat} {pe pe' : PartialEvent}
    (agree : pe.AgreeBelow bound pe') {i : Int} (pos : 0 < bound) (lt : i < bound) :
    pe.timeOf i = pe'.timeOf i := by
  unfold PartialEvent.timeOf
  rw [agree i.toNat (by omega)]

/-! ## The conditions depend only on earlier states -/

section Congruence

variable {pkt : RulePkt} {st : Stacks} {pe pe' : PartialEvent} {i : Nat}

theorem negationBounds_congr {n : Negation} {numPredicates : Nat}
    (bounds : RulePkt.InBounds numPredicates n.lowerId n.upperId) (linked : n.LinkedTo i)
    (agree : pe.AgreeBelow (i + 1) pe') :
    StacksRule.negationBounds n pe = StacksRule.negationBounds n pe' := by
  obtain ⟨-, -, -, ordered⟩ := bounds
  have upper : pe.timeOf n.upperId = pe'.timeOf n.upperId := by
    apply agree.timeOf (by omega)
    rcases linked with lower | ⟨-, upper⟩ <;> omega
  simp only [StacksRule.negationBounds, upper]
  by_cases timed : n.lowerId < 0
  · rw [if_pos timed, if_pos timed]
  · have lower : pe.timeOf n.lowerId = pe'.timeOf n.lowerId := by
      apply agree.timeOf (by omega)
      rcases linked with lower | ⟨timed', -⟩ <;> omega
    rw [if_neg timed, if_neg timed, lower]

theorem notNegated_congr (built : pkt.Built) (reads : pkt.ReadsAssigned)
    (agree : pe.AgreeBelow (i + 1) pe') : NotNegated pkt st pe i ↔ NotNegated pkt st pe' i := by
  unfold NotNegated
  refine forall_congr' fun k => forall_congr' fun n => forall_congr' fun lookup =>
    forall_congr' fun linked => not_congr ?_
  have bounds := built.bounded.negations n (List.mem_of_getElem? lookup)
  unfold Invalidated ParametersHold
  rw [negationBounds_congr bounds linked agree]
  refine exists_congr fun e => and_congr_right fun _ => and_congr_right fun _ =>
    and_congr_right fun _ => forall_congr' fun par => forall_congr' fun mem =>
    forall_congr' fun type => forall_congr' fun filed => ?_
  have read := reads.negations par mem type k n filed lookup
  rw [linkedState_eq_iff.mpr linked] at read
  rw [checkComplexParameter_congr (read.sameSources agree)]

theorem eligible_congr (built : pkt.Built) (reads : pkt.ReadsAssigned) (pos : 1 ≤ i)
    (agree : pe.AgreeBelow i pe') (e : PubPktPtr) :
    Eligible pkt st pe i e ↔ Eligible pkt st pe' i e := by
  refine and_congr ?_ (and_congr ?_ (notNegated_congr built reads (agree.set e)))
  · refine exists_congr fun p => and_congr_right fun lookup => ?_
    unfold InWindow
    rw [agree.timeOf (by omega) (reads.refersTo i p lookup pos).2]
  · refine forall_congr' fun par => forall_congr' fun mem => forall_congr' fun type =>
      forall_congr' fun filed => ?_
    have read := (reads.states par mem type).2
    rw [filed] at read
    rw [checkComplexParameter_congr (read.sameSources agree)]

theorem selected_congr (built : pkt.Built) (reads : pkt.ReadsAssigned) (pos : 1 ≤ i)
    (agree : pe.AgreeBelow i pe') (j : Nat) :
    Selected pkt st pe i j ↔ Selected pkt st pe' i j := by
  unfold Selected Preferred
  simp only [eligible_congr built reads pos agree]

end Congruence

/-! ## The search tests these conditions -/

section Search

variable {pkt : RulePkt} {st : Stacks} {pe : PartialEvent} {i : Nat}

theorem parametersHold_iff (type : StateType) (index : Nat) (e : PubPktPtr) :
    checkParameters e pe index type (StacksRule.parametersUnder pkt type index) = true ↔
      ParametersHold pkt type pe index e := by
  simp only [checkParameters, StacksRule.parametersUnder, List.all_eq_true, List.mem_filter,
    Bool.and_eq_true, decide_eq_true_eq, ParametersHold]
  constructor
  · intro all par mem kind filed
    exact all par ⟨mem, kind, filed⟩
  · rintro all par ⟨mem, kind, filed⟩
    exact all par mem kind filed

/-- The check of the negations linked to a state. -/
theorem notNegated_iff (negs : ∀ k, (st.negs k).Inv) (lt : i < pkt.predicates.length) :
    ((StacksRule.new pkt).getLinkedNegations i).any
        (fun neg => (StacksRule.new pkt).checkNegation st neg pe) = false ↔
      NotNegated pkt st pe i := by
  rw [List.any_eq_false]
  have checked : ∀ (k : Nat) (n : Negation), pkt.negations[k]? = some n →
      ((StacksRule.new pkt).checkNegation st k pe = true ↔ Invalidated pkt st pe k n) := by
    intro k n lookup
    rw [StacksRule.checkNegation_iff _ (negs k) lookup]
    simp only [mem_between, and_assoc, Invalidated]
    refine exists_congr fun e => and_congr_right fun _ => and_congr_right fun _ =>
      and_congr_right fun _ => parametersHold_iff .neg k e
  constructor
  · intro none k n lookup linked invalidated
    have mem := (StacksRule.mem_new_getLinkedNegations lt).mpr
      ⟨n, lookup, linkedState_eq_iff.mpr linked⟩
    exact none k mem ((checked k n lookup).mpr invalidated)
  · intro notNegated k mem found
    obtain ⟨n, lookup, linked⟩ := (StacksRule.mem_new_getLinkedNegations lt).mp mem
    exact notNegated k n lookup (linkedState_eq_iff.mp linked) ((checked k n lookup).mp found)

/-- The packets of its window that a state accepts, as one test. -/
def eligibleTest (pkt : RulePkt) (st : Stacks) (pe : PartialEvent) (i : Nat) (e : PubPktPtr) :
    Bool :=
  let r := StacksRule.new pkt
  let tsUp := pe.timeOf (r.referenceState i)
  r.accepts st i pe e &&
    (decide (tsUp - r.getWindow i < e.getTimeStamp) && decide (e.getTimeStamp < tsUp))

theorem eligibleTest_iff (reads : pkt.ReadsAssigned) (negs : ∀ k, (st.negs k).Inv) (pos : 1 ≤ i)
    {p : Predicate} (lookup : pkt.predicates[i]? = some p) (e : PubPktPtr) :
    eligibleTest pkt st pe i e = true ↔ Eligible pkt st pe i e := by
  have lt := (List.getElem?_eq_some_iff.mp lookup).1
  have nonneg := (reads.refersTo i p lookup pos).1
  simp only [eligibleTest, StacksRule.accepts, Bool.and_eq_true, Bool.not_eq_true',
    decide_eq_true_eq, notNegated_iff negs lt, StacksRule.new_referenceState lookup nonneg,
    StacksRule.new_getWindow lookup]
  rw [show (StacksRule.new pkt).branchStackComplexParameters i =
    StacksRule.parametersUnder pkt .state i from rfl, parametersHold_iff]
  constructor
  · rintro ⟨⟨parameters, negated⟩, window⟩
    exact ⟨⟨p, lookup, window⟩, parameters, negated⟩
  · rintro ⟨⟨q, lookup', window⟩, parameters, negated⟩
    cases lookup.symm.trans lookup'
    exact ⟨⟨parameters, negated⟩, window⟩

/-- The entries that extend a partial result at a state, with their positions. -/
def choices (pkt : RulePkt) (st : Stacks) (pe : PartialEvent) (i : Nat) : List (PubPktPtr × Nat) :=
  match (StacksRule.new pkt).getKind i with
  | .firstWithin => Positions.first (eligibleTest pkt st pe i) (st.states i).received
  | .lastWithin => Positions.last (eligibleTest pkt st pe i) (st.states i).received
  | .eachWithin | .allWithin =>
    Positions.positions (eligibleTest pkt st pe i) (st.states i).received

theorem extendOne_eq :
    (StacksRule.new pkt).extendOne st i pe = (choices pkt st pe i).map fun e => pe.set i e.1 := by
  have values : (StacksRule.new pkt).extensions st i
    (pe.timeOf ((StacksRule.new pkt).referenceState i))
      ((StacksRule.new pkt).getKind i) pe = (choices pkt st pe i).map Prod.fst := by
    unfold StacksRule.extensions choices
    rw [between, List.filter_filter]
    cases (StacksRule.new pkt).getKind i with
    | eachWithin => exact Positions.map_fst_positions.symm
    | allWithin => exact Positions.map_fst_positions.symm
    | firstWithin => exact Positions.map_fst_first.symm
    | lastWithin => exact Positions.map_fst_last.symm
  rw [StacksRule.extendOne, values, List.map_map]
  rfl

theorem nodup_choices : ((choices pkt st pe i).map Prod.snd).Nodup := by
  unfold choices
  cases (StacksRule.new pkt).getKind i with
  | eachWithin => exact Positions.nodup_map_snd (List.Sublist.refl _)
  | allWithin => exact Positions.nodup_map_snd (List.Sublist.refl _)
  | firstWithin => exact Positions.nodup_map_snd_first
  | lastWithin => exact Positions.nodup_map_snd_last

theorem mem_choices (reads : pkt.ReadsAssigned) (negs : ∀ k, (st.negs k).Inv) (pos : 1 ≤ i)
    (lt : i < pkt.predicates.length) {e : PubPktPtr} {j : Nat} :
    (e, j) ∈ choices pkt st pe i ↔
      (st.states i).received[j]? = some e ∧ Selected pkt st pe i j := by
  have lookup := List.getElem?_eq_getElem lt
  have test : ∀ e, eligibleTest pkt st pe i e = true ↔ Eligible pkt st pe i e :=
    eligibleTest_iff reads negs pos lookup
  have select : (st.states i).received[j]? = some e ∧ Selected pkt st pe i j ↔
      ((st.states i).received[j]? = some e ∧ Eligible pkt st pe i e) ∧
        Preferred pkt st pe i j := by
    constructor
    · rintro ⟨found, e', found', eligible, preferred⟩
      cases found.symm.trans found'
      exact ⟨⟨found, eligible⟩, preferred⟩
    · rintro ⟨⟨found, eligible⟩, preferred⟩
      exact ⟨found, e, found, eligible, preferred⟩
  rw [select]
  unfold choices Preferred
  rw [StacksRule.new_getKind lookup, lookup]
  cases kind : pkt.predicates[i].kind with
  | eachWithin => simp [Positions.mem_positions, test, kind]
  | allWithin => simp [Positions.mem_positions, test, kind]
  | firstWithin => simp [Positions.mem_first, test, kind]
  | lastWithin => simp [Positions.mem_last, test, kind]

end Search

/-! ## The enumeration -/

section Enumeration

variable (pkt : RulePkt) (st : Stacks) (t : PubPktPtr)

/-- The positions alive after the first `k` states other than the root. -/
def alive : Nat → List (List Nat)
  | 0 => [[]]
  | k + 1 => (alive k).flatMap fun pos =>
    (choices pkt st (assigned st t pos) (k + 1)).map fun e => pos ++ [e.2]

variable {pkt st t}

theorem mem_alive_succ {k : Nat} {pos : List Nat} :
    pos ∈ alive pkt st t (k + 1) ↔ ∃ front ∈ alive pkt st t k, ∃ e j,
      (e, j) ∈ choices pkt st (assigned st t front) (k + 1) ∧ front ++ [j] = pos := by
  simp only [alive, List.mem_flatMap, List.mem_map, Prod.exists]

theorem length_of_mem_alive {k : Nat} {pos : List Nat} (mem : pos ∈ alive pkt st t k) :
    pos.length = k := by
  induction k generalizing pos with
  | zero => simp_all [alive]
  | succ k ih =>
      obtain ⟨front, inFront, e, j, -, rfl⟩ := mem_alive_succ.mp mem
      rw [List.length_append, ih inFront, List.length_singleton]

theorem nodup_alive (k : Nat) : (alive pkt st t k).Nodup := by
  induction k with
  | zero => exact List.nodup_singleton _
  | succ k ih =>
      rw [alive, List.nodup_flatMap]
      refine ⟨?_, ih.imp ?_⟩
      · intro front _
        have injective : Function.Injective fun j => front ++ [j] := fun j j' same => by
          simpa using same
        have positions : ((choices pkt st (assigned st t front) (k + 1)).map Prod.snd).Nodup :=
          nodup_choices
        have appended := positions.map injective
        rwa [List.map_map] at appended
      · intro front front' ne pos mem mem'
        obtain ⟨e, -, rfl⟩ := List.mem_map.mp mem
        obtain ⟨e', -, same⟩ := List.mem_map.mp mem'
        exact ne (List.append_inj_left' same rfl).symm

/-- The loop over the states assigns the positions alive. -/
theorem foldl_extendOne_eq (reads : pkt.ReadsAssigned) (negs : ∀ k, (st.negs k).Inv) {k : Nat}
    (lt : k < pkt.predicates.length) :
    (List.range' 1 k).foldl (fun events i => events.flatMap ((StacksRule.new pkt).extendOne st i))
      [PartialEvent.empty.set 0 t] = (alive pkt st t k).map (assigned st t) := by
  induction k with
  | zero => simp [alive, assigned_nil]
  | succ k ih =>
      rw [List.range'_1_concat, List.foldl_concat, ih (by omega), List.flatMap_map, alive,
        List.map_flatMap, Nat.add_comm 1 k]
      apply List.flatMap_congr
      intro front mem
      rw [extendOne_eq, List.map_map]
      apply List.map_congr_left
      rintro ⟨e, j⟩ chosen
      have found := ((mem_choices reads negs (by omega) lt).mp chosen).1
      rw [← length_of_mem_alive mem] at found ⊢
      exact (assigned_snoc found).symm

/-- The positions alive are the ones selected at each state, read off the whole assignment. -/
theorem mem_alive_iff (built : pkt.Built) (reads : pkt.ReadsAssigned)
    (negs : ∀ k, (st.negs k).Inv) {k : Nat} (lt : k < pkt.predicates.length) {pos : List Nat} :
    pos ∈ alive pkt st t k ↔ pos.length = k ∧
      ∀ i j : Nat, pos[i]? = some j → Selected pkt st (assigned st t pos) (i + 1) j := by
  induction k generalizing pos with
  | zero =>
      constructor
      · intro mem
        have none : pos = [] := by simpa [alive] using mem
        exact ⟨by simp [none], by simp [none]⟩
      · intro ⟨length, _⟩
        simp [alive, List.length_eq_zero_iff.mp length]
  | succ k ih =>
      rw [mem_alive_succ]
      constructor
      · rintro ⟨front, mem, e, j, chosen, rfl⟩
        obtain ⟨length, earlier⟩ := (ih (by omega)).mp mem
        have last := ((mem_choices reads negs (by omega) lt).mp chosen).2
        refine ⟨by simp [length], fun i j' lookup => ?_⟩
        have agree := assigned_append_agree st t front [j]
        rcases Nat.lt_or_ge i front.length with less | ge
        · rw [List.getElem?_append_left less] at lookup
          refine (selected_congr built reads (by omega) (fun i' lt' => agree i' ?_) j').mpr
            (earlier i j' lookup)
          omega
        · have same : i = front.length := by
            have := (List.getElem?_eq_some_iff.mp lookup).1
            simp only [List.length_append, List.length_singleton] at this
            omega
          rw [same, List.getElem?_concat_length, Option.some.injEq] at lookup
          rw [← lookup, same]
          rw [← length] at last
          exact (selected_congr built reads (by omega) agree j).mpr last
      · rintro ⟨length, selected⟩
        obtain ⟨front, j, rfl⟩ : ∃ front j, pos = front ++ [j] := by
          rcases List.eq_nil_or_concat pos with rfl | found
          · simp at length
          · simpa [List.concat_eq_append] using found
        have frontLength : front.length = k := by simpa using length
        have agree := assigned_append_agree st t front [j]
        have last := (selected_congr built reads (by omega) agree j).mp
          (selected front.length j List.getElem?_concat_length)
        rw [frontLength] at last
        obtain ⟨e, found, rest⟩ := last
        refine ⟨front, (ih (by omega)).mpr ⟨frontLength, fun i j' lookup => ?_⟩, e, j,
          (mem_choices reads negs (by omega) lt).mpr ⟨found, e, found, rest⟩, rfl⟩
        have less := (List.getElem?_eq_some_iff.mp lookup).1
        refine (selected_congr built reads (by omega) (fun i' lt' => agree i' ?_) j').mp
          (selected i j' ?_)
        · omega
        · rwa [List.getElem?_append_left less]

end Enumeration

/-- A rule without states has one match, the terminator alone. -/
theorem isMatch_of_no_states {pkt : RulePkt} {st : Stacks} {t : PubPktPtr} (built : pkt.Built)
    (reads : pkt.ReadsAssigned) (empty : pkt.predicates = []) {pos : List Nat} :
    pos ∈ [[]] ↔ IsMatch pkt st t pos := by
  rw [List.mem_singleton]
  constructor
  · rintro rfl
    refine ⟨by simp [empty], ⟨?_, ?_⟩, by simp⟩
    · intro par mem type filed
      have := (reads.states par mem type).1
      omega
    · intro k n lookup
      have bounds := built.bounded.negations n (List.mem_of_getElem? lookup)
      rw [empty] at bounds
      exact absurd bounds.2.1 (by have := bounds.1; simp; omega)
  · rintro ⟨length, -, -⟩
    rw [empty] at length
    exact List.length_eq_zero_iff.mp length

/-- The search returns exactly the patterns of the rule: the assignments it lists come from pairwise
different positions, and these are the positions at which a pattern is found. -/
theorem getPartialResults_exact (pkt : RulePkt) (st : Stacks) (terminator : PubPktPtr)
    (built : pkt.Built) (reads : pkt.ReadsAssigned) (states : ∀ i, (st.states i).Inv)
    (negs : ∀ k, (st.negs k).Inv) :
    ∃ found : List (List Nat), found.Nodup ∧
      (∀ pos, pos ∈ found ↔ IsMatch pkt st terminator pos) ∧
      (StacksRule.new pkt).getPartialResults st terminator =
        found.map (assigned st terminator) := by
  rw [StacksRule.getPartialResults_eq _ states, StacksRule.new_stacksNum]
  by_cases empty : pkt.predicates = []
  · refine ⟨[[]], List.nodup_singleton _, fun pos => isMatch_of_no_states built reads empty, ?_⟩
    simp [StacksRule.getLinkedNegations, StacksRule.new, empty, assigned_nil]
  have positive := List.length_pos_iff.mpr empty
  have rootChecked : _ ↔ NotNegated pkt st (PartialEvent.empty.set 0 terminator) 0 :=
    notNegated_iff negs positive
  have rootSame : ∀ pos, NotNegated pkt st (assigned st terminator pos) 0 ↔
      NotNegated pkt st (PartialEvent.empty.set 0 terminator) 0 := by
    intro pos
    rw [← show assigned st terminator [] = PartialEvent.empty.set 0 terminator from assigned_nil]
    exact notNegated_congr built reads (assigned_append_agree st terminator [] pos)
  by_cases negated : NotNegated pkt st (PartialEvent.empty.set 0 terminator) 0
  · refine ⟨alive pkt st terminator (pkt.predicates.length - 1), nodup_alive _, fun pos => ?_, ?_⟩
    · rw [mem_alive_iff built reads negs (by omega)]
      constructor
      · rintro ⟨length, selected⟩
        refine ⟨length, ⟨?_, (rootSame pos).mpr negated⟩, selected⟩
        -- no parameter is filed under the root state
        intro par mem type filed
        have := (reads.states par mem type).1
        omega
      · rintro ⟨length, -, selected⟩
        exact ⟨length, selected⟩
    · rw [rootChecked.mpr negated, if_neg (by simp)]
      exact foldl_extendOne_eq reads negs (by omega)
  · refine ⟨[], List.nodup_nil, fun pos => ?_, ?_⟩
    · constructor
      · intro mem
        cases mem
      · rintro ⟨-, ⟨-, notNegated⟩, -⟩
        exact absurd ((rootSame pos).mp notNegated) negated
    · have found := mt rootChecked.mp negated
      rw [Bool.not_eq_false] at found
      rw [if_pos found]
      rfl

theorem fireRule_readsAssigned : RulePkt.fireRule.ReadsAssigned := by
  refine ⟨RulePkt.fireRule_refersBack, ?_, ?_⟩
  · intro par mem _
    simp only [RulePkt.fireRule, List.mem_singleton] at mem
    subst mem
    refine ⟨by decide, fun ref refs => ?_⟩
    simp only [CPUParameter.refs, OpTree.refs, List.cons_append, List.nil_append, List.mem_cons,
      List.not_mem_nil, or_false] at refs
    rcases refs with rfl | rfl <;> simp
  · intro par mem neg
    simp only [RulePkt.fireRule, List.mem_singleton] at mem
    subst mem
    cases neg

/-- Two temperatures and rain between them. -/
def fireStacks : Stacks :=
  (((Stacks.initial.addToStack (reading 1 2 60) 1).addToStack (reading 2 2 40) 1).addToNegationStack
    (reading 3 3 50) 0)

theorem fireRule_getPartialResults :
    ((StacksRule.new RulePkt.fireRule).getPartialResults fireStacks (reading 4 1 100)).length = 1 ∧
      ∃ found : List (List Nat), found.Nodup ∧
        (∀ pos, pos ∈ found ↔ IsMatch RulePkt.fireRule fireStacks (reading 4 1 100) pos) ∧
        (StacksRule.new RulePkt.fireRule).getPartialResults fireStacks (reading 4 1 100) =
          found.map (assigned fireStacks (reading 4 1 100)) := by
  have inv : fireStacks.Inv :=
    ((Stacks.inv_initial.addToStack _ (by decide)).addToStack _ (by decide)).addToNegationStack _ _
  exact ⟨by decide, getPartialResults_exact _ _ _ RulePkt.fireRule_built fireRule_readsAssigned
    inv.states inv.negs⟩

end TRex
