import TRex.Lib.LevelSearch
import TRex.BuilderChecks
import TRex.Consumption
import TRex.PartialResults

/-!
# Two ways to ask for an equality

`addParameterBetweenStates(i, a, j, a)` asks of the final results that the attribute `a` of two
events is equal, and `addComplexParameter(EQ, …)` with the two attributes as leaves asks it of every
candidate for the later of the two states. On integers and strings both tests say the same of a
result. What the first way keeps the second way keeps as well; where the later state chooses one
event among the candidates, the second way chooses among those with the equality and may keep more
(`equalityForms_agree`).
-/

namespace TRex

/-! ## The two calls -/

def equalityLeaf (type : ValType) (name : CString) (i : Int) : OpTree :=
  .leaf (.rulePkt i .state (some name)) type

/-- The parameter that the complex form adds. -/
def equalityParameter (type : ValType) (name : CString) (i j : Int) : CPUParameter :=
  { operation := .eq, type := .state, vtype := type, leftTree := equalityLeaf type name i
    rightTree := equalityLeaf type name j, lastIndex := max i j }

/-- The parameter that the simple form leads to in the engine, where its sides are swapped. -/
def swappedParameter (name : CString) (i j : Int) : Parameter :=
  { evIndex1 := min i j, name1 := name, evIndex2 := max i j, name2 := name, type := .state }

/-- The events that state `i` can have in a computation all have the attribute, of the type. -/
def HasAttribute (st : Stacks) (terminator : PubPktPtr) (i : Int) (name : CString)
    (type : ValType) : Prop :=
  ∀ e, (if i = 0 then e = terminator else e ∈ (st.states i.toNat).received) →
    ∃ v, attributeIn (some e) (some name) = some v ∧ v.type = type

/-- The attribute has equal values in the events of the two states. -/
def EqualIn (pe : PartialEvent) (name : CString) (i j : Int) : Prop :=
  ∃ v, pe.valueAt (i, name) = some v ∧ pe.valueAt (j, name) = some v

section Forms

variable {pkt pkt' : RulePkt} {name : CString} {type : ValType} {i j : Int}

theorem addParameterBetweenStates_same
    (accepted : pkt.call (.addParameterBetweenStates i name j name) = some pkt') :
    pkt' = { pkt with parameters := pkt.parameters ++ [⟨max i j, name, min i j, name, .state⟩] } ∧
      pkt.Exists .state i ∧ pkt.Exists .state j := by
  simp only [RulePkt.call, RulePkt.addParameterBetweenStates] at accepted
  split at accepted
  case isTrue lt =>
    obtain ⟨rfl, existJ, existI⟩ := RulePkt.addParameter_exists accepted
    rw [max_eq_right lt.le, min_eq_left lt.le]
    exact ⟨rfl, existI, existJ⟩
  case isFalse ge =>
    obtain ⟨rfl, existI, existJ⟩ := RulePkt.addParameter_exists accepted
    rw [max_eq_left (not_lt.mp ge), min_eq_right (not_lt.mp ge)]
    exact ⟨rfl, existI, existJ⟩

theorem addComplexParameter_equality
    (accepted : pkt.call (.addComplexParameter .eq type (equalityLeaf type name i)
      (equalityLeaf type name j)) = some pkt') :
    pkt' = { pkt with complexParameters :=
      pkt.complexParameters ++ [equalityParameter type name i j] } :=
  (RulePkt.addComplexParameterWith_some accepted).1

end Forms

/-! ## The two tests -/

section Tests

variable {pe : PartialEvent} {e : PubPktPtr} {name : CString} {type : ValType} {i j : Int}

/-- Both events have the attribute, of the type. -/
def BothHave (pe : PartialEvent) (name : CString) (type : ValType) (i j : Int) : Prop :=
  (∃ v, pe.valueAt (i, name) = some v ∧ v.type = type) ∧
    ∃ v, pe.valueAt (j, name) = some v ∧ v.type = type

/-- The test made of a result. -/
def passesAtEnd (name : CString) (i j : Int) (pe : PartialEvent) : Bool :=
  checkParameter (pe.indexes (max i j).toNat) pe (swappedParameter name i j)

theorem EqualIn.comm : EqualIn pe name i j ↔ EqualIn pe name j i :=
  exists_congr fun _ => and_comm

theorem checkParameter_sameName_iff (exact : type = .int ∨ type = .string)
    (both : BothHave pe name type i j) :
    checkParameter (pe.indexes j.toNat) pe ⟨i, name, j, name, .state⟩ = true ↔
      EqualIn pe name i j := by
  obtain ⟨⟨v, readV, typeV⟩, w, readW, typeW⟩ := both
  simp only [PartialEvent.valueAt] at readV readW
  simp only [checkParameter, EqualIn, PartialEvent.valueAt, readV, readW]
  rcases exact with rfl | rfl
  · cases v <;> cases typeV
    cases w <;> cases typeW
    simpa using eq_comm
  · cases v <;> cases typeV
    cases w <;> cases typeW
    simpa using eq_comm

theorem passesAtEnd_iff (exact : type = .int ∨ type = .string) (both : BothHave pe name type i j) :
    passesAtEnd name i j pe = true ↔ EqualIn pe name i j := by
  unfold passesAtEnd swappedParameter
  rcases le_total i j with le | le
  · rw [min_eq_left le, max_eq_right le]
    exact checkParameter_sameName_iff exact both
  · rw [min_eq_right le, max_eq_left le]
    exact (checkParameter_sameName_iff exact both.symm).trans EqualIn.comm

/-- The leaves of the parameter read the result once the packet under test is in it. -/
theorem equalityLeaf_source {m : Nat} (nonneg : 0 ≤ i) :
    (OpValueReference.rulePkt i .state (some name)).source e pe m .state =
      (pe.set m e).indexes i.toNat := by
  by_cases here : i = m
  · simp [OpValueReference.source, here]
  · simp [OpValueReference.source, here, PartialEvent.set_of_ne pe e (show i.toNat ≠ m by omega)]

/-- The test made of a candidate. -/
theorem checkComplexParameter_equality_iff {m : Nat} (exact : type = .int ∨ type = .string)
    (nonnegI : 0 ≤ i) (nonnegJ : 0 ≤ j) (both : BothHave (pe.set m e) name type i j) :
    checkComplexParameter e pe m .state (equalityParameter type name i j) = true ↔
      EqualIn (pe.set m e) name i j := by
  obtain ⟨⟨v, readV, typeV⟩, w, readW, typeW⟩ := both
  simp only [PartialEvent.valueAt] at readV readW
  rcases exact with rfl | rfl
  · cases v <;> cases typeV
    cases w <;> cases typeW
    simp [checkComplexParameter, equalityParameter, equalityLeaf, computeIntValueForParameters,
      equalityLeaf_source, nonnegI, nonnegJ, EqualIn, PartialEvent.valueAt, readV, readW,
      Value.asInt]
    exact eq_comm
  · cases v <;> cases typeV
    cases w <;> cases typeW
    simp [checkComplexParameter, equalityParameter, equalityLeaf,
      computeStringValueForParameters, equalityLeaf_source, nonnegI, nonnegJ, EqualIn,
      PartialEvent.valueAt, readV, readW]
    exact eq_comm

end Tests

/-! ## The choice of the later state -/

section Choice

variable {r : StacksRule} {st : Stacks} {t : PubPktPtr} {pe : PartialEvent} {k : Nat}

open StacksRule

/-- Testing the packets that a policy keeps leaves no more than keeping some of those that pass. -/
theorem picks_filter_sublist (kind : CompKind) (accepted : List PubPktPtr)
    (test : PubPktPtr → Bool) :
    ((picks kind accepted).filter test).Sublist (picks kind (accepted.filter test)) := by
  cases kind with
  | firstWithin => exact LevelSearch.filter_take_one_sublist test accepted
  | lastWithin =>
      rw [picks, picks, ← List.filter_reverse]
      exact LevelSearch.filter_take_one_sublist test accepted.reverse
  | eachWithin => exact .refl _
  | allWithin => exact .refl _

/-- Nothing is lost where the policy keeps all packets, or one that passes if any does. -/
theorem picks_filter_eq {kind : CompKind} {accepted : List PubPktPtr} {test : PubPktPtr → Bool}
    (chosen : kind = .eachWithin ∨ kind = .allWithin ∨
      ∀ e ∈ accepted, test e = true → ∀ e' ∈ picks kind accepted, test e' = true) :
    (picks kind accepted).filter test = picks kind (accepted.filter test) := by
  cases kind with
  | firstWithin => exact LevelSearch.filter_take_one_eq (by simpa [picks] using chosen)
  | lastWithin =>
      rw [picks, picks, ← List.filter_reverse]
      exact LevelSearch.filter_take_one_eq (by simpa [picks] using chosen)
  | eachWithin => rfl
  | allWithin => rfl

/-- The partial results are what a search level by level reaches. -/
theorem partials_eq_reach (k : Nat) :
    r.partials st t k = LevelSearch.reach (r.extendOne st) [PartialEvent.empty.set 0 t] k := by
  induction k with
  | zero => rfl
  | succ k ih =>
      rw [partials, List.range'_1_concat, List.foldl_concat, ← partials, ih, Nat.add_comm 1 k]
      rfl

/-- The event of an assigned state is one of the state's stack. -/
theorem received_of_mem_partials (mem : pe ∈ r.partials st t k) {i : Nat} (pos : 1 ≤ i)
    (le : i ≤ k) : ∃ e ∈ (st.states i).received, pe.indexes i = some e := by
  obtain ⟨i, rfl⟩ := Nat.exists_eq_add_of_le' pos
  obtain ⟨front, -, e, candidate, agree⟩ := exists_extension_of_mem mem le
  exact ⟨e, (mem_candidates candidate).1, by rw [← agree (i + 1) (by omega), PartialEvent.set_self]⟩

end Choice

/-! ## The two rules -/

namespace StacksRule

/-- The rule with one more parameter for its results. -/
def withEnd (r : StacksRule) (par : Parameter) : StacksRule :=
  { r with endStackParameters := r.endStackParameters ++ [par] }

/-- The rule with one more parameter for the candidates of state `m`. -/
def withBranch (r : StacksRule) (m : Nat) (par : CPUParameter) : StacksRule :=
  { r with
    branchStackComplexParameters := fun k =>
      r.branchStackComplexParameters k ++ if k = m then [par] else [] }

end StacksRule

section Rules

variable {pkt : RulePkt} {r : StacksRule} {st : Stacks} {t : PubPktPtr} {name : CString}
  {type : ValType} {i j : Int} {m k : Nat} {par : CPUParameter}

open StacksRule

theorem new_addParameter :
    StacksRule.new
      { pkt with parameters := pkt.parameters ++ [⟨max i j, name, min i j, name, .state⟩] } =
        (StacksRule.new pkt).withEnd (swappedParameter name i j) := by
  simp [StacksRule.new, withEnd, swappedParameter]
  exact ⟨rfl, rfl, rfl⟩

theorem parametersUnder_append (type' : StateType) (index : Nat) :
    parametersUnder { pkt with complexParameters := pkt.complexParameters ++ [par] } type' index =
      parametersUnder pkt type' index ++
        if par.type = type' ∧ par.lastIndex = index then [par] else [] := by
  rw [parametersUnder, List.filter_append]
  simp [parametersUnder, List.filter_cons]

theorem new_addComplexParameter (filed : par.type = .state) (last : par.lastIndex = m) :
    StacksRule.new { pkt with complexParameters := pkt.complexParameters ++ [par] } =
      (StacksRule.new pkt).withBranch m par := by
  have branch : parametersUnder { pkt with complexParameters := pkt.complexParameters ++ [par] }
      .state = fun k => parametersUnder pkt .state k ++ if k = m then [par] else [] := by
    funext k
    rw [parametersUnder_append, filed, last]
    simp [eq_comm]
  have others : ∀ type' ≠ StateType.state,
      parametersUnder { pkt with complexParameters := pkt.complexParameters ++ [par] } type' =
        parametersUnder pkt type' := by
    intro type' other
    funext k
    rw [parametersUnder_append, filed, if_neg (fun both => other both.1.symm), List.append_nil]
  simp only [StacksRule.new, branch, others .neg (by simp), others .agg (by simp)]
  rfl

theorem withBranch_accepts (pe : PartialEvent) (e : PubPktPtr) :
    (r.withBranch m par).accepts st k pe e =
      (r.accepts st k pe e && (k != m || checkComplexParameter e pe k .state par)) := by
  have negations : ((r.withBranch m par).getLinkedNegations k).any (fun neg =>
      (r.withBranch m par).checkNegation st neg (pe.set k e)) =
        (r.getLinkedNegations k).any fun neg => r.checkNegation st neg (pe.set k e) := rfl
  rw [accepts, accepts, negations, withBranch, checkParameters, List.all_append]
  by_cases here : k = m
  · simp [here, checkParameters, Bool.and_right_comm]
  · simp [here, checkParameters]

theorem withBranch_extendOne (other : k ≠ m) (pe : PartialEvent) :
    (r.withBranch m par).extendOne st k pe = r.extendOne st k pe := by
  have same : (r.withBranch m par).accepts st k pe = r.accepts st k pe := by
    funext e
    simp [withBranch_accepts, other]
  simp only [extendOne, extensions, same]
  rfl

/-- The packets of state `m` that pass everything but the new parameter. -/
def acceptedAt (r : StacksRule) (st : Stacks) (m : Nat) (pe : PartialEvent) : List PubPktPtr :=
  (between (pe.timeOf (r.referenceState m) - r.getWindow m) (pe.timeOf (r.referenceState m))
    (st.states m).received).filter (r.accepts st m pe)

theorem extendOne_eq_picks (pe : PartialEvent) :
    r.extendOne st m pe = (picks (r.getKind m) (acceptedAt r st m pe)).map (pe.set m) := rfl

theorem withBranch_extendOne_self (pe : PartialEvent) :
    (r.withBranch m par).extendOne st m pe =
      (picks (r.getKind m) ((acceptedAt r st m pe).filter fun e =>
        checkComplexParameter e pe m .state par)).map (pe.set m) := by
  have same : (r.withBranch m par).accepts st m pe = fun e =>
      checkComplexParameter e pe m .state par && r.accepts st m pe e := by
    funext e
    simp [withBranch_accepts, Bool.and_comm]
  rw [acceptedAt, List.filter_filter, ← same]
  rfl

theorem getPartialResults_eq_partials (inv : ∀ i, (st.states i).Inv) :
    r.getPartialResults st t = if (r.getLinkedNegations 0).any fun neg =>
      r.checkNegation st neg (PartialEvent.empty.set 0 t) then [] else
        r.partials st t (r.stacksNum - 1) :=
  r.getPartialResults_eq inv t

theorem withEnd_getPartialResults (par : Parameter) (inv : ∀ i, (st.states i).Inv) :
    (r.withEnd par).getPartialResults st t = r.getPartialResults st t := by
  rw [getPartialResults_eq_partials inv, getPartialResults_eq_partials inv]
  rfl

theorem finalResults_withEnd (par : Parameter) (inv : st.Inv) :
    (r.withEnd par).finalResults ((r.withEnd par).startComputation st t) =
      r.removePartialEventsNotMatchingParameters
        ((r.getPartialResults (r.startComputation st t).during t).filter fun pe =>
          checkParameter (pe.indexes par.evIndex2.toNat) pe par) := by
  have partialResults : ((r.withEnd par).startComputation st t).partialResults =
      r.getPartialResults (r.startComputation st t).during t :=
    withEnd_getPartialResults par (r.clearStacks_ordered (inv.pushTerminator t)).states
  rw [finalResults, partialResults, removePartialEventsNotMatchingParameters,
    removePartialEventsNotMatchingParameters, List.filter_filter]
  simp [withEnd, Bool.and_comm]

theorem finalResults_withBranch :
    (r.withBranch m par).finalResults ((r.withBranch m par).startComputation st t) =
      r.removePartialEventsNotMatchingParameters
        ((r.withBranch m par).getPartialResults (r.startComputation st t).during t) := rfl

end Rules

/-! ## Both forms on one stack content -/

section Agreement

variable {r : StacksRule} {st : Stacks} {t : PubPktPtr} {name : CString} {type : ValType}
  {i j : Int} {m k : Nat}

open StacksRule

theorem valueAt_of_mem_partials {pe : PartialEvent} (mem : pe ∈ r.partials st t k)
    (le : i.toNat ≤ k) (has : HasAttribute st t i name type) (nonneg : 0 ≤ i) :
    ∃ v, pe.valueAt (i, name) = some v ∧ v.type = type := by
  by_cases root : i = 0
  · subst root
    have assigned := indexes_zero_of_mem mem
    obtain ⟨v, found, typed⟩ := has t (by simp)
    exact ⟨v, by rw [PartialEvent.valueAt, Int.toNat_zero, assigned, found], typed⟩
  · obtain ⟨e, received, assigned⟩ := received_of_mem_partials mem (by omega) le
    obtain ⟨v, found, typed⟩ := has e (by rwa [if_neg root])
    exact ⟨v, by rw [PartialEvent.valueAt, assigned, found], typed⟩

theorem valueAt_of_extension {pe : PartialEvent} {e : PubPktPtr} (pos : 1 ≤ m)
    (mem : pe ∈ r.partials st t (m - 1)) (received : e ∈ (st.states m).received)
    (le : i.toNat ≤ m) (has : HasAttribute st t i name type) (nonneg : 0 ≤ i) :
    ∃ v, (pe.set m e).valueAt (i, name) = some v ∧ v.type = type := by
  by_cases last : i.toNat = m
  · obtain ⟨v, found, typed⟩ := has e (by rwa [if_neg (by omega), last])
    exact ⟨v, by rw [PartialEvent.valueAt, last, PartialEvent.set_self, found], typed⟩
  · obtain ⟨v, found, typed⟩ := valueAt_of_mem_partials mem (by omega) has nonneg
    rw [PartialEvent.valueAt] at found
    exact ⟨v, by rw [PartialEvent.valueAt, PartialEvent.set_of_ne _ _ last, found], typed⟩

/-- The later state keeps every candidate, or one with the equality if there is any. -/
def KeepsEqual (r : StacksRule) (st : Stacks) (t : PubPktPtr) (name : CString) (i j : Int) : Prop :=
  let m := (max i j).toNat
  r.getKind m = .eachWithin ∨ r.getKind m = .allWithin ∨
    ∀ pe ∈ r.partials st t (m - 1), ∀ e ∈ acceptedAt r st m pe, EqualIn (pe.set m e) name i j →
      ∀ e' ∈ picks (r.getKind m) (acceptedAt r st m pe), EqualIn (pe.set m e') name i j

/-- What both forms are given: attributes of one type, an integer or a string, in all packets that
the two states may have. -/
structure Comparable (st : Stacks) (t : PubPktPtr) (name : CString) (type : ValType) (i j : Int) :
    Prop where
  exact : type = .int ∨ type = .string
  nonnegI : 0 ≤ i
  nonnegJ : 0 ≤ j
  hasI : HasAttribute st t i name type
  hasJ : HasAttribute st t j name type

namespace Comparable

/-- A candidate passes its test if and only if the result that it leads to passes. -/
theorem check_eq (given : Comparable st t name type i j) (last : (max i j).toNat = m) (pos : 1 ≤ m)
    {pe : PartialEvent} (mem : pe ∈ r.partials st t (m - 1)) {e : PubPktPtr}
    (received : e ∈ (st.states m).received) :
    checkComplexParameter e pe m .state (equalityParameter type name i j) =
        passesAtEnd name i j (pe.set m e) ∧
      (passesAtEnd name i j (pe.set m e) = true ↔ EqualIn (pe.set m e) name i j) := by
  obtain ⟨exact, nonnegI, nonnegJ, hasI, hasJ⟩ := given
  have both : BothHave (pe.set m e) name type i j :=
    ⟨valueAt_of_extension pos mem received (by omega) hasI nonnegI,
      valueAt_of_extension pos mem received (by omega) hasJ nonnegJ⟩
  have atEnd := passesAtEnd_iff exact both
  refine ⟨Bool.eq_iff_iff.mpr ?_, atEnd⟩
  exact (checkComplexParameter_equality_iff exact nonnegI nonnegJ both).trans atEnd.symm

theorem extendOne_filter (given : Comparable st t name type i j) (last : (max i j).toNat = m)
    (pos : 1 ≤ m) {pe : PartialEvent} (mem : pe ∈ r.partials st t (m - 1)) :
    (r.extendOne st m pe).filter (passesAtEnd name i j) =
        ((picks (r.getKind m) (acceptedAt r st m pe)).filter fun e =>
          passesAtEnd name i j (pe.set m e)).map (pe.set m) ∧
      (r.withBranch m (equalityParameter type name i j)).extendOne st m pe =
        (picks (r.getKind m) ((acceptedAt r st m pe).filter fun e =>
          passesAtEnd name i j (pe.set m e))).map (pe.set m) := by
  have same : (acceptedAt r st m pe).filter
      (fun e => checkComplexParameter e pe m .state (equalityParameter type name i j)) =
        (acceptedAt r st m pe).filter fun e => passesAtEnd name i j (pe.set m e) :=
    List.filter_congr fun e accepted =>
      (given.check_eq last pos mem (mem_between.mp (List.mem_of_mem_filter accepted)).1).1
  rw [extendOne_eq_picks, List.filter_map, withBranch_extendOne_self, same]
  exact ⟨rfl, rfl⟩

variable (given : Comparable st t name type i j) (last : (max i j).toNat = m) (pos : 1 ≤ m)

include last in
/-- The later states leave the test of a result alone. -/
theorem passesAtEnd_extendOne (later : m < k) (pe : PartialEvent) :
    ∀ pe' ∈ r.extendOne st k pe, passesAtEnd name i j pe' = passesAtEnd name i j pe := by
  intro pe' mem
  obtain ⟨e, -, rfl⟩ := List.mem_map.mp mem
  simp only [passesAtEnd, checkParameter, swappedParameter]
  rw [PartialEvent.set_of_ne pe e (show (max i j).toNat ≠ k by omega),
    PartialEvent.set_of_ne pe e (show (min i j).toNat ≠ k by omega)]

include given last pos

theorem filter_partials_sublist (le : m ≤ k) :
    ((r.partials st t k).filter (passesAtEnd name i j)).Sublist
      ((r.withBranch m (equalityParameter type name i j)).partials st t k) := by
  rw [partials_eq_reach, partials_eq_reach]
  refine LevelSearch.filter_reach_sublist
    (fun l _ before pe _ => withBranch_extendOne (by omega) pe)
    (fun l after pe => withBranch_extendOne (by omega) pe)
    (fun l after pe => passesAtEnd_extendOne last after pe) pos (fun pe mem => ?_) le
  rw [← partials_eq_reach] at mem
  obtain ⟨left, right⟩ := given.extendOne_filter last pos mem
  rw [left, right]
  exact (picks_filter_sublist _ _ _).map _

theorem filter_partials_eq (keepsEqual : KeepsEqual r st t name i j) (le : m ≤ k) :
    (r.partials st t k).filter (passesAtEnd name i j) =
      (r.withBranch m (equalityParameter type name i j)).partials st t k := by
  rw [partials_eq_reach, partials_eq_reach]
  refine LevelSearch.filter_reach_eq
    (fun l _ before pe _ => withBranch_extendOne (by omega) pe)
    (fun l after pe => withBranch_extendOne (by omega) pe)
    (fun l after pe => passesAtEnd_extendOne last after pe) pos (fun pe mem => ?_) le
  rw [← partials_eq_reach] at mem
  obtain ⟨left, right⟩ := given.extendOne_filter last pos mem
  rw [left, right, picks_filter_eq]
  rw [KeepsEqual, last] at keepsEqual
  refine keepsEqual.imp_right fun rest => rest.imp_right fun chosen e accepted pass e' picked => ?_
  have received : ∀ {e}, e ∈ acceptedAt r st m pe → e ∈ (st.states m).received :=
    fun accepted => (mem_between.mp (List.mem_of_mem_filter accepted)).1
  have equal := (given.check_eq last pos mem (received accepted)).2.mp pass
  exact (given.check_eq last pos mem (received (mem_picks picked))).2.mpr
    (chosen pe mem e accepted equal e' picked)

end Comparable

end Agreement

section Results

variable {r : StacksRule} {st : Stacks} {t : PubPktPtr} {name : CString} {type : ValType}
  {i j : Int} {m k : Nat} {par : CPUParameter}

open StacksRule

/-- The parameters filed under the terminator are not looked at. -/
theorem withBranch_zero_partials : (r.withBranch 0 par).partials st t k = r.partials st t k := by
  rw [partials_eq_reach, partials_eq_reach]
  exact LevelSearch.reach_congr fun l pos _ pe _ => withBranch_extendOne (by omega) pe

theorem withBranch_getPartialResults (inv : ∀ k, (st.states k).Inv) :
    (r.withBranch m par).getPartialResults st t =
      if (r.getLinkedNegations 0).any fun neg =>
        r.checkNegation st neg (PartialEvent.empty.set 0 t) then [] else
          (r.withBranch m par).partials st t (r.stacksNum - 1) :=
  getPartialResults_eq_partials inv

namespace Comparable

/-- An attribute is equal to itself. -/
theorem filter_partials_self (given : Comparable st t name type i i) (le : i.toNat ≤ k) :
    (r.partials st t k).filter (passesAtEnd name i i) = r.partials st t k := by
  refine List.filter_eq_self.mpr fun pe mem => ?_
  obtain ⟨v, found, typed⟩ := valueAt_of_mem_partials mem le given.hasI given.nonnegI
  exact (passesAtEnd_iff given.exact ⟨⟨v, found, typed⟩, v, found, typed⟩).mpr ⟨v, found, found⟩

theorem keepsEqual_self (given : Comparable st t name type i i) (pos : 1 ≤ i.toNat) :
    KeepsEqual r st t name i i := by
  rw [KeepsEqual, max_self]
  refine .inr (.inr fun pe mem _ _ _ e' picked => ?_)
  have received := (mem_between.mp (List.mem_of_mem_filter (mem_picks picked))).1
  obtain ⟨v, found, -⟩ := valueAt_of_extension pos mem received le_rfl given.hasI given.nonnegI
  exact ⟨v, found, found⟩

theorem partials_agree (given : Comparable st t name type i j) (le : (max i j).toNat ≤ k) :
    ((r.partials st t k).filter (passesAtEnd name i j)).Sublist
        ((r.withBranch (max i j).toNat (equalityParameter type name i j)).partials st t k) ∧
      (i = j ∨ KeepsEqual r st t name i j → (r.partials st t k).filter (passesAtEnd name i j) =
        (r.withBranch (max i j).toNat (equalityParameter type name i j)).partials st t k) := by
  by_cases root : (max i j).toNat = 0
  · obtain ⟨rfl, rfl⟩ : i = 0 ∧ j = 0 := by
      have nonnegI := given.nonnegI
      have nonnegJ := given.nonnegJ
      omega
    have same := given.filter_partials_self (r := r) (Nat.zero_le k)
    rw [root, withBranch_zero_partials, same]
    exact ⟨.refl _, fun _ => rfl⟩
  · have pos : 1 ≤ (max i j).toNat := by omega
    refine ⟨given.filter_partials_sublist rfl pos le, fun calm => ?_⟩
    refine given.filter_partials_eq rfl pos (calm.elim (fun same => ?_) id) le
    subst same
    rw [max_self] at pos
    exact given.keepsEqual_self pos

theorem getPartialResults_agree (given : Comparable st t name type i j)
    (inv : ∀ k, (st.states k).Inv) (le : (max i j).toNat ≤ r.stacksNum - 1) :
    ((r.getPartialResults st t).filter (passesAtEnd name i j)).Sublist
        ((r.withBranch (max i j).toNat (equalityParameter type name i j)).getPartialResults st t) ∧
      (i = j ∨ KeepsEqual r st t name i j →
        (r.getPartialResults st t).filter (passesAtEnd name i j) =
          (r.withBranch (max i j).toNat (equalityParameter type name i j)).getPartialResults st
            t) := by
  rw [getPartialResults_eq_partials inv, withBranch_getPartialResults inv]
  split
  · exact ⟨.refl _, fun _ => rfl⟩
  · exact given.partials_agree le

end Comparable

/-- The attributes that a computation may read are those of the stacks it starts from. -/
theorem HasAttribute.during (has : HasAttribute st t i name type) (nonneg : 0 ≤ i) :
    HasAttribute (r.startComputation st t).during t i name type := by
  intro e mem
  by_cases root : i = 0
  · exact has e (by rwa [if_pos root] at mem ⊢)
  · rw [if_neg root] at mem
    exact has e (by rw [if_neg root]; exact r.mem_during (by omega) mem)

end Results

/-- The results of the rule with the parameter between states are among those of the rule with the
complex parameter, and they are the same results if the two states are one, or if the later state
keeps every candidate, or one with the equality if there is any. -/
theorem equalityForms_agree (pkt simple complex : RulePkt) (name : CString) (type : ValType)
    (exact : type = .int ∨ type = .string) (i j : Int)
    (simpleForm : pkt.call (.addParameterBetweenStates i name j name) = some simple)
    (complexForm : pkt.call (.addComplexParameter .eq type (equalityLeaf type name i)
      (equalityLeaf type name j)) = some complex)
    (st : Stacks) (inv : st.Inv) (t : PubPktPtr) (hasI : HasAttribute st t i name type)
    (hasJ : HasAttribute st t j name type) :
    let simpleResults := (StacksRule.new simple).finalResults
      ((StacksRule.new simple).startComputation st t)
    let complexResults := (StacksRule.new complex).finalResults
      ((StacksRule.new complex).startComputation st t)
    simpleResults.Sublist complexResults ∧
      (i = j ∨ KeepsEqual (StacksRule.new pkt) ((StacksRule.new pkt).startComputation st t).during
        t name i j → simpleResults = complexResults) := by
  obtain ⟨rfl, existsI, existsJ⟩ := addParameterBetweenStates_same simpleForm
  obtain rfl := addComplexParameter_equality complexForm
  have last : max i j = ((max i j).toNat : Int) :=
    (Int.toNat_of_nonneg (existsI.1.trans (le_max_left _ _))).symm
  have few : (max i j).toNat ≤ (StacksRule.new pkt).stacksNum - 1 := by
    have ltI := existsI.2
    have ltJ := existsJ.2
    simp only [RulePkt.size] at ltI ltJ
    rw [StacksRule.new_stacksNum]
    omega
  have given : Comparable ((StacksRule.new pkt).startComputation st t).during t name type i j :=
    ⟨exact, existsI.1, existsJ.1, hasI.during existsI.1, hasJ.during existsJ.1⟩
  have ordered := ((StacksRule.new pkt).clearStacks_ordered (inv.pushTerminator t)).states
  have complexRule : StacksRule.new { pkt with complexParameters :=
      pkt.complexParameters ++ [equalityParameter type name i j] } =
        (StacksRule.new pkt).withBranch (max i j).toNat (equalityParameter type name i j) :=
    new_addComplexParameter rfl last
  obtain ⟨sublist, equal⟩ := given.getPartialResults_agree ordered few
  intro simpleResults complexResults
  simp only [simpleResults, complexResults, new_addParameter, complexRule,
    finalResults_withEnd _ inv,
    finalResults_withBranch]
  exact ⟨sublist.filter _, fun calm =>
    congrArg (StacksRule.new pkt).removePartialEventsNotMatchingParameters (equal calm)⟩

/-! ## A state that takes the first candidate -/

/-- Smoke after the first fire within 100. -/
def firstFire : RulePkt :=
  (RulePkt.new true 0).1.calls [.addRootPredicate 1 [], .addPredicate 2 [] 0 100 .firstWithin]

/-- The rule whose parameter is checked of the results. -/
def sameAreaAtEnd : RulePkt := firstFire.calls [.addParameterBetweenStates 0 ['a'] 1 ['a']]

/-- The rule whose parameter is checked of the candidates. -/
def sameAreaAtOnce : RulePkt :=
  firstFire.calls [.addComplexParameter .eq .int (equalityLeaf .int ['a'] 0)
    (equalityLeaf .int ['a'] 1)]

def fire (addr area time : Nat) : PubPktPtr := ⟨addr, PubPkt.new 2 [⟨['a'], .int area⟩] time⟩

/-- A fire in area 8 and one in area 7 after it. -/
def firesApart : Stacks := (Stacks.initial.addToStack (fire 1 8 50) 1).addToStack (fire 2 7 60) 1

theorem firesApart_inv : firesApart.Inv :=
  (Stacks.inv_initial.addToStack _ (by decide)).addToStack _ (by decide)

theorem firesApart_hasArea (i : Int) (state : i = 0 ∨ i = 1) :
    HasAttribute firesApart (reading 3 1 100) i ['a'] .int := by
  intro e mem
  rcases state with rfl | rfl
  · obtain rfl : e = reading 3 1 100 := by simpa using mem
    exact ⟨.int 7, rfl, rfl⟩
  · have stored : (firesApart.states 1).received = [fire 1 8 50, fire 2 7 60] := by decide
    rw [if_neg (by decide), show (1 : Int).toNat = 1 from rfl, stored] at mem
    rcases List.mem_pair.mp mem with rfl | rfl
    · exact ⟨.int 8, rfl, rfl⟩
    · exact ⟨.int 7, rfl, rfl⟩

theorem firesApart_agree :
    let simpleResults := (StacksRule.new sameAreaAtEnd).finalResults
      ((StacksRule.new sameAreaAtEnd).startComputation firesApart (reading 3 1 100))
    let complexResults := (StacksRule.new sameAreaAtOnce).finalResults
      ((StacksRule.new sameAreaAtOnce).startComputation firesApart (reading 3 1 100))
    simpleResults.Sublist complexResults ∧ ((0 : Int) = 1 ∨ KeepsEqual (StacksRule.new firstFire)
      ((StacksRule.new firstFire).startComputation firesApart (reading 3 1 100)).during
        (reading 3 1 100) ['a'] 0 1 → simpleResults = complexResults) :=
  equalityForms_agree firstFire sameAreaAtEnd sameAreaAtOnce ['a'] .int (.inl rfl) 0 1 rfl rfl
    firesApart firesApart_inv (reading 3 1 100) (firesApart_hasArea 0 (.inl rfl))
    (firesApart_hasArea 1 (.inr rfl))

/-- Smoke in area 7: the first fire has another area, and the second one is looked at in one form
only. -/
theorem equalityForms_differ :
    ¬ ∀ (pkt simple complex : RulePkt) (name : CString) (type : ValType), type ≠ .float →
      ∀ i j : Int, pkt.call (.addParameterBetweenStates i name j name) = some simple →
        pkt.call (.addComplexParameter .eq type (equalityLeaf type name i)
          (equalityLeaf type name j)) = some complex →
        ∀ st : Stacks, st.Inv → ∀ t : PubPktPtr, HasAttribute st t i name type →
          HasAttribute st t j name type →
            (StacksRule.new simple).finalResults ((StacksRule.new simple).startComputation st t) =
              (StacksRule.new complex).finalResults
                ((StacksRule.new complex).startComputation st t) := by
  intro all
  have same := all firstFire sameAreaAtEnd sameAreaAtOnce ['a'] .int (by decide) 0 1 rfl rfl
    firesApart firesApart_inv (reading 3 1 100) (firesApart_hasArea 0 (.inl rfl))
    (firesApart_hasArea 1 (.inr rfl))
  exact absurd (congrArg List.length same) (by decide)

end TRex
