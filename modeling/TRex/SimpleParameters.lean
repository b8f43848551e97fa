import TRex.AggregateValues
import TRex.BuilderChecks
import TRex.PatternSearch
import TRex.StateParameters

/-!
# Simple parameters on negations and aggregates

`addParameterForNegation` and `addParameterForAggregate` ask for an equality between an attribute of
a state's event and one of the negation's or aggregate's event. The rule packet stores them, and the
constructor of `StacksRule` keeps the parameters between states only (`StacksRule.new`). So an event
invalidates a result, or enters an aggregate, whether or not the attributes are equal, and the
parameters are honoured only where everything else that is checked excludes the events without the
equality (`honoured_iff_redundant`).
-/

namespace TRex

/-! ## What a simple parameter asks for -/

/-- The event has an attribute `name2`, the event of state `evIndex1` an attribute `name1`, and the
two are equal. -/
def Parameter.AsksOf (par : Parameter) (pe : PartialEvent) (e : PubPktPtr) : Prop :=
  ∃ v w, attributeIn (some e) (some par.name2) = some v ∧
    pe.valueAt (par.evIndex1, par.name1) = some w ∧ v.sameAs w = true

/-- The stacks with one event alone on the stack of a negation. -/
def Stacks.withNegation (st : Stacks) (index : Nat) (e : PubPktPtr) : Stacks :=
  { st with negs := Function.update st.negs index ⟨1, [e]⟩ }

/-- The simple parameters of the rule are honoured for a partial result: an event that invalidates
it, and one that enters an aggregate computed for it, have the attribute that is asked for. -/
structure Honoured (pkt : RulePkt) (st : Stacks) (pe : PartialEvent) : Prop where
  negations : ∀ par ∈ pkt.parameters, par.type = .neg →
    ∀ e ∈ (st.negs par.evIndex2.toNat).received,
      (StacksRule.new pkt).checkNegation (st.withNegation par.evIndex2.toNat e)
        par.evIndex2.toNat pe = true → par.AsksOf pe e
  aggregates : ∀ par ∈ pkt.parameters, par.type = .agg → ∀ agg : Aggregate,
    pkt.aggregates[par.evIndex2.toNat]? = some agg →
      ∀ e ∈ ((StacksRule.new pkt).aggregatesOf st).entering par.evIndex2.toNat agg pe,
        par.AsksOf pe e

/-- Among the stored events inside its interval, the complex parameters of a negation or an
aggregate admit only those that its simple parameters ask for. -/
structure Redundant (pkt : RulePkt) (st : Stacks) (pe : PartialEvent) : Prop where
  negations : ∀ par ∈ pkt.parameters, par.type = .neg → ∀ n : Negation,
    pkt.negations[par.evIndex2.toNat]? = some n →
      ∀ e ∈ (st.negs par.evIndex2.toNat).received,
        (StacksRule.negationBounds n pe).1 < e.getTimeStamp →
        e.getTimeStamp < (StacksRule.negationBounds n pe).2 →
        checkParameters e pe par.evIndex2.toNat .neg
          (StacksRule.parametersUnder pkt .neg par.evIndex2.toNat) = true → par.AsksOf pe e
  aggregates : ∀ par ∈ pkt.parameters, par.type = .agg → ∀ agg : Aggregate,
    pkt.aggregates[par.evIndex2.toNat]? = some agg →
      ∀ e ∈ (st.aggs par.evIndex2.toNat).received,
        (Aggregates.bounds agg pe).1 < e.getTimeStamp →
        e.getTimeStamp < (Aggregates.bounds agg pe).2 →
        checkParameters e pe (-1) .agg
          (StacksRule.parametersUnder pkt .agg par.evIndex2.toNat) = true → par.AsksOf pe e

/-! ## What the engine does -/

section Events

variable {pkt : RulePkt} {st : Stacks} {pe : PartialEvent} {index : Nat} {e : PubPktPtr}

/-- An event invalidates a result if it lies strictly inside the interval of the negation and
satisfies its complex parameters. -/
theorem checkNegation_withNegation_iff {n : Negation} (lookup : pkt.negations[index]? = some n) :
    (StacksRule.new pkt).checkNegation (st.withNegation index e) index pe = true ↔
      ((StacksRule.negationBounds n pe).1 < e.getTimeStamp ∧
        e.getTimeStamp < (StacksRule.negationBounds n pe).2) ∧
      checkParameters e pe index .neg (StacksRule.parametersUnder pkt .neg index) = true := by
  have column : (st.withNegation index e).negs index = ⟨1, [e]⟩ := Function.update_self ..
  have inv : ((st.withNegation index e).negs index).Inv := by
    rw [column]
    exact Column.inv_singleton e
  rw [StacksRule.checkNegation_iff _ inv lookup]
  simp only [column, mem_between, List.mem_singleton]
  constructor
  · rintro ⟨_, ⟨rfl, window⟩, parameters⟩
    exact ⟨window, parameters⟩
  · rintro ⟨window, parameters⟩
    exact ⟨e, ⟨rfl, window⟩, parameters⟩

/-- An event enters an aggregate if it lies strictly inside its interval and satisfies its complex
parameters. -/
theorem mem_entering_iff {agg : Aggregate} (inv : (st.aggs index).Inv)
    (lookup : pkt.aggregates[index]? = some agg) :
    e ∈ ((StacksRule.new pkt).aggregatesOf st).entering index agg pe ↔
      (e ∈ (st.aggs index).received ∧ (Aggregates.bounds agg pe).1 < e.getTimeStamp ∧
        e.getTimeStamp < (Aggregates.bounds agg pe).2) ∧
      checkParameters e pe (-1) .agg (StacksRule.parametersUnder pkt .agg index) = true := by
  let s : Situation :=
    { a := (StacksRule.new pkt).aggregatesOf st, index, agg, pe, declared := lookup
      sorted := inv.sorted, size := inv.size }
  rw [show ((StacksRule.new pkt).aggregatesOf st).entering index agg pe = s.qualifying from
    s.entering_eq, Situation.qualifying, List.mem_filter, Situation.inInterval, mem_between]
  rfl

end Events

/-- The simple parameters on negations and aggregates are honoured exactly where they are redundant.
-/
theorem honoured_iff_redundant (pkt : RulePkt) (st : Stacks) (ordered : st.Ordered)
    (pe : PartialEvent) : Honoured pkt st pe ↔ Redundant pkt st pe := by
  constructor
  · intro honoured
    refine ⟨?_, ?_⟩
    · intro par mem isNeg n lookup e stored after before parameters
      exact honoured.negations par mem isNeg e stored
        ((checkNegation_withNegation_iff lookup).mpr ⟨⟨after, before⟩, parameters⟩)
    · intro par mem isAgg agg lookup e stored after before parameters
      exact honoured.aggregates par mem isAgg agg lookup e
        ((mem_entering_iff (ordered.aggs _) lookup).mpr ⟨⟨stored, after, before⟩, parameters⟩)
  · intro redundant
    refine ⟨?_, ?_⟩
    · intro par mem isNeg e stored invalidates
      cases lookup : pkt.negations[par.evIndex2.toNat]? with
      | none =>
          have lookup' : (StacksRule.new pkt).negations[par.evIndex2.toNat]? = none := lookup
          rw [StacksRule.checkNegation, lookup'] at invalidates
          cases invalidates
      | some n =>
          obtain ⟨⟨after, before⟩, parameters⟩ :=
            (checkNegation_withNegation_iff lookup).mp invalidates
          exact redundant.negations par mem isNeg n lookup e stored after before parameters
    · intro par mem isAgg agg lookup e enters
      obtain ⟨⟨stored, after, before⟩, parameters⟩ :=
        (mem_entering_iff (ordered.aggs _) lookup).mp enters
      exact redundant.aggregates par mem isAgg agg lookup e stored after before parameters

/-! ## Rain elsewhere -/

/-- Smoke without rain in the same area in the five minutes before. -/
def drySmoke : RulePkt :=
  (RulePkt.new true 0).1.calls [.addRootPredicate 1 [], .addTimeBasedNegation 3 [] 0 300,
    .addParameterForNegation 0 ['a'] 0 ['a']]

/-- Rain in area 8. -/
def rainElsewhere : PubPktPtr := ⟨2, PubPkt.new 3 [⟨['a'], .int 8⟩] 50⟩

def rainElsewhereStacks : Stacks := Stacks.initial.addToNegationStack rainElsewhere 0

theorem rainElsewhereStacks_ordered : rainElsewhereStacks.Ordered :=
  (Stacks.inv_initial.addToNegationStack _ _).toOrdered

theorem drySmoke_honoured_iff :
    Honoured drySmoke rainElsewhereStacks (PartialEvent.empty.set 0 (reading 1 1 100)) ↔
      Redundant drySmoke rainElsewhereStacks (PartialEvent.empty.set 0 (reading 1 1 100)) :=
  honoured_iff_redundant _ _ rainElsewhereStacks_ordered _

/-- Rain in area 8 invalidates smoke in area 7. -/
theorem simpleParameter_not_honoured :
    ¬ ∀ pkt : RulePkt, pkt.Built → ∀ st : Stacks, st.Ordered → ∀ pe : PartialEvent,
      Honoured pkt st pe := by
  intro all
  have honoured := all drySmoke ((RulePkt.Built.new true 0).calls _) rainElsewhereStacks
    rainElsewhereStacks_ordered (PartialEvent.empty.set 0 (reading 1 1 100))
  obtain ⟨v, w, isV, isW, same⟩ := honoured.negations ⟨0, ['a'], 0, ['a'], .neg⟩
    (List.mem_singleton_self _) rfl rainElsewhere (List.mem_singleton_self _) rfl
  cases isV
  cases isW
  exact absurd same (by decide)

end TRex
