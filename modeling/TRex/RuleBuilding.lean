import TRex.RuleCodec

/-!
# What the builder does with a decoded rule

One equation for each of the five loops that rebuild a decoded rule: the element is appended, as it
is placed in the packet, if the builder accepts it, and else nothing happens. -/

namespace TRex.Unmarshaller

/-- The root keeps only type and constraints. -/
def placedPredicate (it : Int × Predicate) : Predicate :=
  if it.1 = 0 then { it.2 with refersTo := -1, win := 0, kind := .eachWithin } else it.2

/-- The predicate is accepted behind `n` others. -/
def PredicateAccepted (n : Nat) (it : Int × Predicate) : Prop :=
  if it.1 = 0 then n = 0 else 0 < n ∧ it.2.refersTo < n

/-- Both states exist and differ; a negative lower bound is a time. -/
def BoundsAccepted (n : Nat) (lowerId upperId : Int) : Prop :=
  0 ≤ upperId ∧ upperId < n ∧ lowerId < n ∧ lowerId ≠ upperId

/-- Of two states the later one becomes the lower bound. -/
def placedAggregate (now : Nat) (agg : Aggregate) : Aggregate :=
  { agg with
    lowerId := if agg.lowerId < 0 then -1 else max agg.lowerId agg.upperId
    lowerTime := if agg.lowerId < 0 then agg.lowerTime else now
    upperId := if agg.lowerId < 0 then agg.upperId else min agg.lowerId agg.upperId }

def placedNegation (now : Nat) (neg : Negation) : Negation :=
  { neg with
    lowerId := if neg.lowerId < 0 then -1 else max neg.lowerId neg.upperId
    lowerTime := if neg.lowerId < 0 then neg.lowerTime else now
    upperId := if neg.lowerId < 0 then neg.upperId else min neg.lowerId neg.upperId }

def placedParameter (par : ComplexParameter) : CPUParameter :=
  { operation := par.operation, type := par.type, vtype := par.vtype
    leftTree := par.leftTree, rightTree := par.rightTree
    lastIndex := Java.lastIndexOf par.type par.leftTree par.rightTree }

/-- One of the trees refers to an element of the kind of the parameter. -/
def ParameterAccepted (par : ComplexParameter) : Prop :=
  0 ≤ Java.lastIndexOf par.type par.leftTree par.rightTree

instance (n : Nat) (it : Int × Predicate) : Decidable (PredicateAccepted n it) :=
  inferInstanceAs (Decidable (if it.1 = 0 then n = 0 else 0 < n ∧ it.2.refersTo < n))

instance (n : Nat) (lowerId upperId : Int) : Decidable (BoundsAccepted n lowerId upperId) :=
  inferInstanceAs (Decidable (_ ∧ _))

instance (par : ComplexParameter) : Decidable (ParameterAccepted par) :=
  inferInstanceAs (Decidable (_ ≤ _))

variable (now : Nat) (pkt : RulePkt)

theorem addPredicate_spec (it : Int × Predicate) :
    addPredicate pkt it =
      if PredicateAccepted pkt.predicates.length it then
        { pkt with predicates := pkt.predicates ++ [placedPredicate it] }
      else pkt := by
  unfold addPredicate PredicateAccepted placedPredicate
  by_cases root : it.1 = 0
  · simp only [if_pos root, applied, RulePkt.addRootPredicate]
    by_cases first : pkt.predicates.length = 0
    · rw [if_neg (by omega), if_pos first]
      rfl
    · rw [if_pos (by omega), if_neg first]
      rfl
  · simp only [if_neg root, applied, RulePkt.addPredicate]
    by_cases back : 0 < pkt.predicates.length ∧ it.2.refersTo < pkt.predicates.length
    · rw [if_neg (by omega), if_pos back]
      rfl
    · rw [if_pos (by omega), if_neg back]
      rfl

theorem boundsAccepted_timed {n : Nat} {lowerId upperId : Int} (timed : lowerId < 0) :
    BoundsAccepted n lowerId upperId ↔ 0 ≤ upperId ∧ upperId < n := by
  unfold BoundsAccepted
  constructor
  · intro accepted
    exact ⟨accepted.1, accepted.2.1⟩
  · intro accepted
    refine ⟨accepted.1, accepted.2, ?_, ?_⟩ <;> omega

theorem boundsAccepted_between {n : Nat} {lowerId upperId : Int} (between : ¬ lowerId < 0) :
    BoundsAccepted n lowerId upperId ↔ 0 ≤ min lowerId upperId ∧ max lowerId upperId < n ∧
      min lowerId upperId < max lowerId upperId := by
  unfold BoundsAccepted
  constructor
  · intro accepted
    refine ⟨?_, ?_, ?_⟩ <;> omega
  · intro accepted
    refine ⟨?_, ?_, ?_, ?_⟩ <;> omega

theorem addAggregate_spec (it : Int × Aggregate) :
    addAggregate now pkt it =
      if BoundsAccepted pkt.predicates.length it.2.lowerId it.2.upperId then
        { pkt with aggregates := pkt.aggregates ++ [placedAggregate now it.2] }
      else pkt := by
  unfold addAggregate placedAggregate
  by_cases timed : it.2.lowerId < 0
  · simp only [if_pos timed, applied, RulePkt.addTimeBasedAggregate, RulePkt.addAggregate]
    rw [if_neg (by omega)]
    by_cases accepted : BoundsAccepted pkt.predicates.length it.2.lowerId it.2.upperId
    · have inRange := (boundsAccepted_timed timed).mp accepted
      rw [if_pos accepted, if_neg (by omega), if_neg (by omega)]
      rfl
    · have outside := (boundsAccepted_timed timed).not.mp accepted
      rw [if_neg accepted, if_pos (by omega)]
      rfl
  · simp only [if_neg timed, applied, RulePkt.addAggregateBetweenStates, RulePkt.sorted_pair,
      RulePkt.addAggregate]
    by_cases accepted : BoundsAccepted pkt.predicates.length it.2.lowerId it.2.upperId
    · have inRange := (boundsAccepted_between timed).mp accepted
      rw [if_pos accepted, if_neg (by omega), if_neg (by omega), if_neg (by omega)]
      rfl
    · have outside := (boundsAccepted_between timed).not.mp accepted
      rw [if_neg accepted]
      split
      · rfl
      · split
        · rfl
        · rw [if_pos (by omega)]
          rfl

theorem addNegation_spec (it : Int × Negation) :
    addNegation now pkt it =
      if BoundsAccepted pkt.predicates.length it.2.lowerId it.2.upperId then
        { pkt with negations := pkt.negations ++ [placedNegation now it.2] }
      else pkt := by
  unfold addNegation placedNegation
  by_cases timed : it.2.lowerId < 0
  · simp only [if_pos timed, applied, RulePkt.addTimeBasedNegation, RulePkt.addNegation]
    rw [if_neg (by omega)]
    by_cases accepted : BoundsAccepted pkt.predicates.length it.2.lowerId it.2.upperId
    · have inRange := (boundsAccepted_timed timed).mp accepted
      rw [if_pos accepted, if_neg (by omega), if_neg (by omega)]
      rfl
    · have outside := (boundsAccepted_timed timed).not.mp accepted
      rw [if_neg accepted, if_pos (by omega)]
      rfl
  · simp only [if_neg timed, applied, RulePkt.addNegationBetweenStates, RulePkt.sorted_pair,
      RulePkt.addNegation]
    by_cases accepted : BoundsAccepted pkt.predicates.length it.2.lowerId it.2.upperId
    · have inRange := (boundsAccepted_between timed).mp accepted
      rw [if_pos accepted, if_neg (by omega), if_neg (by omega), if_neg (by omega)]
      rfl
    · have outside := (boundsAccepted_between timed).not.mp accepted
      rw [if_neg accepted]
      split
      · rfl
      · split
        · rfl
        · rw [if_pos (by omega)]
          rfl

theorem addParameter_spec (it : Int × ComplexParameter) :
    addParameter pkt it =
      if ParameterAccepted it.2 then
        { pkt with complexParameters := pkt.complexParameters ++ [placedParameter it.2] }
      else pkt := by
  have with_ : ∀ find, max (find it.2.leftTree) (find it.2.rightTree) =
        Java.lastIndexOf it.2.type it.2.leftTree it.2.rightTree →
      applied pkt (pkt.addComplexParameterWith find it.2.type it.2.operation it.2.vtype
        it.2.leftTree it.2.rightTree) =
      if ParameterAccepted it.2 then
        { pkt with complexParameters := pkt.complexParameters ++ [placedParameter it.2] }
      else pkt := by
    intro find last
    unfold applied RulePkt.addComplexParameterWith placedParameter
    simp only [last]
    by_cases found : ParameterAccepted it.2
    · rw [if_neg (not_lt.mpr found), if_pos found]
      rfl
    · rw [if_pos (not_le.mp found), if_neg found]
      rfl
  unfold addParameter RulePkt.addComplexParameter RulePkt.addComplexParameterForAggregate
    RulePkt.addComplexParameterForNegation
  cases type : it.2.type with
  | state =>
      have added := with_ RulePkt.findLastState (by rw [type]; rfl)
      simp only [type] at added ⊢
      exact added
  | agg =>
      have added := with_ RulePkt.findAggregate (by rw [type]; rfl)
      simp only [type] at added ⊢
      exact added
  | neg =>
      have added := with_ RulePkt.findNegation (by rw [type]; rfl)
      simp only [type] at added ⊢
      exact added

theorem addConsuming_spec (consum : Int) :
    addConsuming pkt consum =
      if 0 ≤ consum ∧ consum < pkt.predicates.length then
        { pkt with consuming := pkt.consuming.insert consum.toNat }
      else pkt := by
  unfold addConsuming applied RulePkt.addConsuming
  by_cases inRange : 0 ≤ consum ∧ consum < pkt.predicates.length
  · rw [if_neg (by omega), if_pos inRange]
    rfl
  · rw [if_pos (by omega), if_neg inRange]
    rfl

end TRex.Unmarshaller
