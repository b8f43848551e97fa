import TRex.BuilderChecks
import TRex.Consumption
import TRex.PartialResults

/-!
# The state parameters of a result

A complex parameter of type `STATE` is filed under the last state that its trees name, and the
search checks what is filed under a state when it extends a partial result by a packet of that
state. The search extends by states from 1 on, so a parameter that names the terminator alone is
never checked, and neither is one that names a state the rule does not have
(`finalResults_satisfy_iff`). -/

namespace TRex

/-! ## Satisfied parameters -/

/-- The leaf is a constant or names a state that has an event. -/
def OpValueReference.NamesEventOf (pe : PartialEvent) : OpValueReference → Prop
  | .static _ => True
  | .rulePkt index type _ => type = .state ∧ 0 ≤ index ∧ (pe.indexes index.toNat).isSome

/-- The leaf is a constant or names a state of the rule. -/
def OpValueReference.NamesState (numPredicates : Nat) : OpValueReference → Prop
  | .static _ => True
  | .rulePkt index type _ => type = .state ∧ 0 ≤ index ∧ index < numPredicates

/-- The parameter is true of the events of the result: all its leaves are read there, as no packet
is under test. -/
def PartialEvent.Satisfies (pe : PartialEvent) (par : CPUParameter) : Prop :=
  (∀ ref ∈ par.refs, ref.NamesEventOf pe) ∧
    ∀ pkt, checkComplexParameter pkt pe (-1) .state par = true

/-- What the rule and the terminator must bring along: the state parameters name states of the rule,
and those that name the terminator alone are true of it. -/
def RulePkt.TerminatorFits (pkt : RulePkt) (terminator : PubPktPtr) : Prop :=
  ∀ par ∈ pkt.complexParameters, par.type = .state →
    (∀ ref ∈ par.refs, ref.NamesState pkt.predicates.length) ∧
      (par.lastIndex = 0 → (PartialEvent.empty.set 0 terminator).Satisfies par)

/-! ## The index a parameter is filed under -/

namespace RulePkt

theorem le_findLastState {tree : OpTree} {index : Int} {name : Option CString}
    (mem : OpValueReference.rulePkt index .state name ∈ tree.refs) :
    index ≤ findLastState tree := by
  induction tree with
  | leaf ref valType =>
      rw [OpTree.refs, List.mem_singleton] at mem
      subst mem
      exact le_rfl
  | inner left right op valType ihLeft ihRight =>
      rw [findLastState]
      rcases List.mem_append.mp mem with inLeft | inRight
      · exact (ihLeft inLeft).trans (le_max_left _ _)
      · exact (ihRight inRight).trans (le_max_right _ _)

theorem findLastState_attained (tree : OpTree) :
    findLastState tree = -1 ∨ ∃ name, OpValueReference.rulePkt (findLastState tree) .state name ∈
      tree.refs := by
  induction tree with
  | leaf ref valType =>
      cases ref with
      | static value => exact .inl rfl
      | rulePkt index type name =>
          cases type with
          | state => exact .inr ⟨name, List.mem_singleton_self _⟩
          | neg => exact .inl rfl
          | agg => exact .inl rfl
  | inner left right op valType ihLeft ihRight =>
      rw [findLastState]
      rcases max_choice (findLastState left) (findLastState right) with isLeft | isRight
      · rw [isLeft]
        exact ihLeft.imp_right fun ⟨name, mem⟩ => ⟨name, List.mem_append_left _ mem⟩
      · rw [isRight]
        exact ihRight.imp_right fun ⟨name, mem⟩ => ⟨name, List.mem_append_right _ mem⟩

/-- A complex parameter comes from an accepted call. -/
theorem Built.complexParameter {pkt : RulePkt} (built : pkt.Built) :
    ∀ par ∈ pkt.complexParameters, 0 ≤ par.lastIndex ∧
      ∃ b : BuilderCall, b.complexParameter? = some par := by
  induction built with
  | new resetCount lastId =>
      intro par mem
      cases mem
  | @call pkt pkt' b _ accepted ih =>
      intro par mem
      rw [(call_appends accepted).complexParameters] at mem
      rcases List.mem_append.mp mem with old | new
      · exact ih par old
      · have brings := Option.mem_toList.mp new
        refine ⟨?_, b, brings⟩
        cases b with
        | addComplexParameter o v l r =>
            cases brings
            exact (addComplexParameterWith_some accepted).2
        | addComplexParameterForNegation o v l r =>
            cases brings
            exact (addComplexParameterWith_some accepted).2
        | addComplexParameterForAggregate o v l r =>
            cases brings
            exact (addComplexParameterWith_some accepted).2
        | _ => cases brings

/-- A state parameter is filed under the largest state that it names. -/
theorem Built.lastIndex {pkt : RulePkt} (built : pkt.Built) {par : CPUParameter}
    (mem : par ∈ pkt.complexParameters) (isState : par.type = .state) :
    (∀ index name, OpValueReference.rulePkt index .state name ∈ par.refs → index ≤ par.lastIndex) ∧
      0 ≤ par.lastIndex ∧
        ∃ name, OpValueReference.rulePkt par.lastIndex .state name ∈ par.refs := by
  obtain ⟨nonneg, b, brings⟩ := built.complexParameter par mem
  obtain filed :
      par.lastIndex = max (findLastState par.leftTree) (findLastState par.rightTree) := by
    cases b with
    | addComplexParameter o v l r =>
        cases brings
        rfl
    | addComplexParameterForNegation o v l r =>
        cases brings
        cases isState
    | addComplexParameterForAggregate o v l r =>
        cases brings
        cases isState
    | _ => cases brings
  refine ⟨fun index name inRefs => ?_, nonneg, ?_⟩
  · rw [filed]
    rcases List.mem_append.mp inRefs with inLeft | inRight
    · exact (le_findLastState inLeft).trans (le_max_left _ _)
    · exact (le_findLastState inRight).trans (le_max_right _ _)
  · have left := findLastState_attained par.leftTree
    have right := findLastState_attained par.rightTree
    rcases max_choice (findLastState par.leftTree) (findLastState par.rightTree) with
      isLeft | isRight
    · rw [filed, isLeft] at nonneg ⊢
      rcases left with none | ⟨name, inRefs⟩
      · omega
      · exact ⟨name, List.mem_append_left _ inRefs⟩
    · rw [filed, isRight] at nonneg ⊢
      rcases right with none | ⟨name, inRefs⟩
      · omega
      · exact ⟨name, List.mem_append_right _ inRefs⟩

end RulePkt

/-! ## Reading a parameter in two situations -/

section Reading

variable {pe pe' : PartialEvent} {par : CPUParameter} {last : Nat}

/-- A parameter whose leaves are states up to `last` reads the same of two results that agree up to
there. -/
theorem PartialEvent.Satisfies.of_agree
    (named : ∀ ref ∈ par.refs, match ref with
      | .static _ => True
      | .rulePkt index type _ => type = .state ∧ 0 ≤ index ∧ index ≤ last)
    (agree : pe.AgreeBelow (last + 1) pe') (satisfied : pe.Satisfies par) : pe'.Satisfies par := by
  obtain ⟨events, true⟩ := satisfied
  have same : ∀ (pkt : PubPktPtr), ReadAlike pkt pe (-1) .state pkt pe' (-1) .state par.refs := by
    intro pkt ref mem
    have name := named ref mem
    cases ref with
    | static value => rfl
    | rulePkt index type attr =>
        obtain ⟨rfl, nonneg, le⟩ := name
        have other : index ≠ -1 := by omega
        simp [OpValueReference.source, other, agree index.toNat (by omega)]
  refine ⟨fun ref mem => ?_, fun pkt => checkComplexParameter_eq_of_readAlike (same pkt) ▸ true pkt⟩
  have name := named ref mem
  have event := events ref mem
  cases ref with
  | static value => trivial
  | rulePkt index type attr =>
      obtain ⟨rfl, nonneg, le⟩ := name
      refine ⟨rfl, nonneg, ?_⟩
      rw [← agree index.toNat (by omega)]
      exact event.2.2

/-- A parameter filed under the packet under test is true of the finished result. -/
theorem PartialEvent.Satisfies.of_checked {pkt : PubPktPtr}
    (named : ∀ ref ∈ par.refs, match ref with
      | .static _ => True
      | .rulePkt index type _ => type = .state ∧ 0 ≤ index ∧ index ≤ last)
    (agree : (pe.set last pkt).AgreeBelow (last + 1) pe')
    (assigned : ∀ i ≤ last, (pe'.indexes i).isSome)
    (checked : checkComplexParameter pkt pe last .state par = true) : pe'.Satisfies par := by
  have same : ∀ (pkt' : PubPktPtr),
      ReadAlike pkt pe last .state pkt' pe' (-1) .state par.refs := by
    intro pkt' ref mem
    have name := named ref mem
    cases ref with
    | static value => rfl
    | rulePkt index type attr =>
        obtain ⟨rfl, nonneg, le⟩ := name
        have other : index ≠ -1 := by omega
        have there := agree index.toNat (by omega)
        by_cases here : index = last
        · rw [here, Int.toNat_natCast, PartialEvent.set_self] at there
          simp [OpValueReference.source, here, ← there]
        · rw [PartialEvent.set_of_ne _ _ (by omega)] at there
          simp [OpValueReference.source, here, other, there]
  refine ⟨fun ref mem => ?_, fun pkt' => checkComplexParameter_eq_of_readAlike (same pkt') ▸
    checked⟩
  have name := named ref mem
  cases ref with
  | static value => trivial
  | rulePkt index type attr =>
      obtain ⟨rfl, nonneg, le⟩ := name
      exact ⟨rfl, nonneg, assigned index.toNat (by omega)⟩

end Reading

/-! ## Results -/

section Results

variable {pkt : RulePkt} {st : Stacks} {t : PubPktPtr} {pe : PartialEvent} {par : CPUParameter}

/-- What was filed under the state of a candidate was checked of it. -/
theorem checked_of_candidate {i : Nat} {front : PartialEvent} {e : PubPktPtr}
    (candidate : e ∈ (StacksRule.new pkt).candidates st i front)
    (mem : par ∈ pkt.complexParameters) (isState : par.type = .state) (filed : par.lastIndex = i) :
    checkComplexParameter e front i .state par = true := by
  obtain ⟨-, -, accepted⟩ := StacksRule.mem_candidates candidate
  have parameters := (Bool.and_eq_true _ _ ▸ accepted).1
  refine List.all_eq_true.mp parameters par (List.mem_filter.mpr ⟨mem, ?_⟩)
  simp [isState, filed]

/-- The search has checked every parameter of a result but those filed under the terminator. -/
theorem satisfies_of_mem_partials (built : pkt.Built)
    (mem : pe ∈ (StacksRule.new pkt).partials st t (pkt.predicates.length - 1))
    (inRule : par ∈ pkt.complexParameters) (isState : par.type = .state)
    (named : ∀ ref ∈ par.refs, ref.NamesState pkt.predicates.length)
    (later : par.lastIndex ≠ 0) : pe.Satisfies par := by
  obtain ⟨largest, nonneg, name, inRefs⟩ := built.lastIndex inRule isState
  have exists_ := (named _ inRefs).2.2
  obtain ⟨j, isLast⟩ : ∃ j : Nat, par.lastIndex = (j + 1 : Nat) :=
    ⟨par.lastIndex.toNat - 1, by omega⟩
  obtain ⟨front, -, e, candidate, agree⟩ :=
    StacksRule.exists_extension_of_mem mem (show j < _ by omega)
  have checked := checked_of_candidate candidate inRule isState isLast
  refine PartialEvent.Satisfies.of_checked (fun ref inRefs => ?_) agree (fun i le => ?_) checked
  · have name := named ref inRefs
    cases ref with
    | static value => trivial
    | rulePkt index type attr =>
        obtain ⟨rfl, nonneg, -⟩ := name
        exact ⟨rfl, nonneg, isLast ▸ largest index attr inRefs⟩
  · obtain ⟨e, assigned⟩ := StacksRule.assigned_of_mem mem (show i ≤ _ by omega)
    rw [assigned]
    rfl

/-- A parameter filed under the terminator is true of a result if and only if it is true of the
terminator. -/
theorem satisfies_iff_terminator (built : pkt.Built) {k : Nat}
    (mem : pe ∈ (StacksRule.new pkt).partials st t k) (inRule : par ∈ pkt.complexParameters)
    (isState : par.type = .state) (first : par.lastIndex = 0)
    (named : ∀ ref ∈ par.refs, ref.NamesState pkt.predicates.length) :
    pe.Satisfies par ↔ (PartialEvent.empty.set 0 t).Satisfies par := by
  have largest := (built.lastIndex inRule isState).1
  have root : ∀ ref ∈ par.refs, match ref with
      | .static _ => True
      | .rulePkt index type _ => type = .state ∧ 0 ≤ index ∧ index ≤ (0 : Nat) := by
    intro ref inRefs
    have name := named ref inRefs
    cases ref with
    | static value => trivial
    | rulePkt index type attr =>
        obtain ⟨rfl, nonneg, -⟩ := name
        exact ⟨rfl, nonneg, (largest index attr inRefs).trans first.le⟩
  have terminator := StacksRule.indexes_zero_of_mem mem
  have agree : pe.AgreeBelow 1 (PartialEvent.empty.set 0 t) := by
    intro i lt
    obtain rfl : i = 0 := by omega
    rw [terminator, PartialEvent.set_self]
  exact ⟨.of_agree root agree, .of_agree root fun i lt => (agree i lt).symm⟩

end Results

/-- A final result of a computation satisfies all state parameters of its rule exactly when the
parameters name states of the rule and those that name the terminator alone are true of it. -/
theorem finalResults_satisfy_iff (pkt : RulePkt) (built : pkt.Built)
    (nonempty : pkt.predicates ≠ []) (st : Stacks) (inv : st.Inv) (terminator : PubPktPtr)
    (pe : PartialEvent)
    (mem : pe ∈ (StacksRule.new pkt).finalResults
      ((StacksRule.new pkt).startComputation st terminator)) :
    (∀ par ∈ pkt.complexParameters, par.type = .state → pe.Satisfies par) ↔
      pkt.TerminatorFits terminator := by
  have ordered := (StacksRule.new pkt).clearStacks_ordered (inv.pushTerminator terminator)
  have alive := StacksRule.mem_partials_of_mem_getPartialResults ordered.states
    (List.mem_of_mem_filter mem)
  rw [StacksRule.new_stacksNum] at alive
  have positive := List.length_pos_iff.mpr nonempty
  constructor
  · intro satisfied par inRule isState
    have named : ∀ ref ∈ par.refs, ref.NamesState pkt.predicates.length := by
      intro ref inRefs
      have event := (satisfied par inRule isState).1 ref inRefs
      cases ref with
      | static value => trivial
      | rulePkt index type attr =>
          obtain ⟨rfl, nonneg, assigned⟩ := event
          refine ⟨rfl, nonneg, ?_⟩
          by_contra beyond
          rw [StacksRule.unassigned_of_mem alive (by omega)] at assigned
          cases assigned
    exact ⟨named, fun first => (satisfies_iff_terminator built alive inRule isState first named).mp
      (satisfied par inRule isState)⟩
  · intro fits par inRule isState
    obtain ⟨named, root⟩ := fits par inRule isState
    by_cases first : par.lastIndex = 0
    · exact (satisfies_iff_terminator built alive inRule isState first named).mpr (root first)
    · exact satisfies_of_mem_partials built alive inRule isState named first

/-! ## A rule of one state -/

/-- The area is above 10. -/
def highArea : CPUParameter :=
  { operation := .gt, type := .state, vtype := .int, lastIndex := 0
    leftTree := .leaf (.rulePkt 0 .state (some ['a'])) .int
    rightTree := .leaf (.static (.int 10)) .int }

/-- Smoke in a high area. -/
def highSmoke : RulePkt :=
  (RulePkt.new true 0).1.calls [.addRootPredicate 1 [],
    .addComplexParameter highArea.operation highArea.vtype highArea.leftTree highArea.rightTree]

theorem highSmoke_built : highSmoke.Built := (RulePkt.Built.new true 0).calls _

/-- Smoke in area 7 is a result of the rule. -/
theorem mem_finalResults_highSmoke :
    PartialEvent.empty.set 0 (reading 1 1 100) ∈ (StacksRule.new highSmoke).finalResults
      ((StacksRule.new highSmoke).startComputation .initial (reading 1 1 100)) := by
  have found : (StacksRule.new highSmoke).finalResults
      ((StacksRule.new highSmoke).startComputation .initial (reading 1 1 100)) =
        [PartialEvent.empty.set 0 (reading 1 1 100)] := rfl
  rw [found]
  exact List.mem_singleton_self _

theorem highSmoke_satisfies_iff :
    (∀ par ∈ highSmoke.complexParameters, par.type = .state →
      (PartialEvent.empty.set 0 (reading 1 1 100)).Satisfies par) ↔
        highSmoke.TerminatorFits (reading 1 1 100) :=
  finalResults_satisfy_iff highSmoke highSmoke_built (by decide) .initial Stacks.inv_initial _ _
    mem_finalResults_highSmoke

/-- The parameter on the terminator is not looked at. -/
theorem terminatorParameter_unchecked :
    ¬ ∀ (pkt : RulePkt), pkt.Built → pkt.predicates ≠ [] → ∀ (st : Stacks), st.Inv →
      ∀ (terminator : PubPktPtr) (pe : PartialEvent),
        pe ∈ (StacksRule.new pkt).finalResults
          ((StacksRule.new pkt).startComputation st terminator) →
        ∀ par ∈ pkt.complexParameters, par.type = .state → pe.Satisfies par := by
  intro all
  have satisfied := all highSmoke highSmoke_built (by decide) .initial Stacks.inv_initial
    (reading 1 1 100) _ mem_finalResults_highSmoke highArea (List.mem_singleton_self _) rfl
  exact absurd (satisfied.2 (reading 1 1 100)) (by decide)

end TRex
