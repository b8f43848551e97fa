import TRex.GPUProcessor
import TRex.Lib.History

/-!
# Order in the circular columns

The binary searches expect the timestamps of a column in order. The CPU's stacks insert an event at
the place of its timestamp; the GPU's append it. `columnsSorted_iff` says in which runs the columns
are sorted: those in which no event is older than the newest one of the column that takes it.
-/

namespace TRex

namespace GPUProcessor

variable {p p' : GPUProcessor}

/-! ## What is required -/

def SortedColumn (p : GPUProcessor) (type : StateType) (stack : Nat) : Prop :=
  Ring.Sorted allocSize (p.timestamps type stack) (p.lowIndexes type stack)
    (p.highIndexes type stack)

/-- The timestamps of every column are in order from its low to its high end. -/
def ColumnsSorted (p : GPUProcessor) : Prop := ∀ type stack, p.SortedColumn type stack

/-- The number of events in a column. -/
def fill (p : GPUProcessor) (type : StateType) (stack : Nat) : Nat :=
  Ring.size allocSize (p.lowIndexes type stack) (p.highIndexes type stack)

/-- The timestamp at the high end of a column. -/
def newest (p : GPUProcessor) (type : StateType) (stack : Nat) : Nat :=
  p.timestamps type stack (Ring.pos allocSize (p.lowIndexes type stack) (p.fill type stack - 1))

/-- The column has no elements, or no room, or its newest event is not newer than this one. -/
def InOrder (p : GPUProcessor) (type : StateType) (stack : Nat) (event : PubPkt) : Prop :=
  p.fill type stack = 0 ∨ p.fill type stack = allocSize - 1 ∨
    p.newest type stack ≤ event.timeStamp

/-- The condition on a call: an event is not older than the newest one of its column. -/
def AddsInOrder (p : GPUProcessor) : GPUCall → Prop
  | .addEventToStack stack event => p.InOrder .state stack event
  | .addEventToNegationStack neg event => p.InOrder .neg neg event
  | .addEventToAggregateStack agg event => p.InOrder .agg agg event
  | .deleteExpiredEvents _ => True
  | .remove _ _ => True

/-! ## The ends of the columns -/

theorem init_eq_some {rulePkt : RulePkt} {mm : MemoryManager}
    {columns : StateType → Nat → Nat → Nat} (made : init rulePkt mm columns = some p) :
    ∃ token, mm.subscribe (needs rulePkt) = some (token, p.mm) ∧ 0 ≤ token ∧
      p.mmToken = token.toNat ∧ checkDefinitions rulePkt = true ∧ p.rulePkt = rulePkt ∧
      p.timestamps = columns ∧ ∀ type stack,
        p.lowIndexes type stack = 0 ∧ p.highIndexes type stack = 0 := by
  obtain ⟨⟨token, mm'⟩, subscribed, rest⟩ := Option.bind_eq_some_iff.mp made
  simp only at rest
  split at rest
  case isFalse => cases rest
  case isTrue ok =>
    cases rest
    exact ⟨token, subscribed, ok.1, rfl, ok.2, rfl, rfl, fun _ _ => ⟨rfl, rfl⟩⟩

theorem init_inside {rulePkt : RulePkt} {mm : MemoryManager}
    {columns : StateType → Nat → Nat → Nat} (made : init rulePkt mm columns = some p) :
    p.Inside := by
  obtain ⟨-, -, -, -, -, -, -, ends⟩ := init_eq_some made
  intro type stack
  rw [(ends type stack).1, (ends type stack).2]
  exact ⟨by decide, by decide⟩

theorem addTo_inside {type : StateType} {stack : Nat} {event : PubPkt}
    (added : p.addTo type stack event = some p') (inside : p.Inside) : p'.Inside := by
  rcases addTo_cases added with ⟨-, rfl⟩ | ⟨-, -, -, -, -, -, lows, highs, -⟩
  · exact inside
  · intro t s
    rw [lows, highs]
    refine ⟨(inside t s).1, ?_⟩
    split
    case isTrue => exact Nat.mod_lt _ (by decide)
    case isFalse => exact (inside t s).2

theorem remove_inside {ev : EventInfo} {stack : Nat} (inside : p.Inside) :
    (p.remove ev stack).Inside := by
  rcases p.remove_cases ev stack with ⟨-, same⟩ | ⟨i, -, -, -, -, lows, -, highs⟩
  · rw [same]
    exact inside
  · intro t s
    rw [lows, highs]
    refine ⟨(inside t s).1, ?_⟩
    split
    case isTrue here =>
      obtain ⟨rfl, rfl⟩ := here
      exact Nat.lt_of_le_of_lt (Nat.sub_le _ 1) (inside .state s).2
    case isFalse => exact (inside t s).2

theorem step_inside {call : GPUCall} (next : p.step call = some p') (inside : p.Inside) :
    p'.Inside := by
  cases call with
  | addEventToStack stack event => exact addTo_inside next inside
  | addEventToNegationStack neg event => exact addTo_inside next inside
  | addEventToAggregateStack agg event => exact addTo_inside next inside
  | deleteExpiredEvents event =>
      cases next
      exact (deleteExpiredEvents_deleted event inside).inside inside
  | remove ev stack =>
      cases next
      exact remove_inside inside

/-! ## One call -/

theorem full_iff {low high : Nat} (lowIn : low < allocSize) (highIn : high < allocSize) :
    (high + 1) % allocSize = low ↔ Ring.size allocSize low high = allocSize - 1 := by
  rw [Ring.succ_mod highIn, Ring.size]
  split_ifs <;> omega

theorem addTo_sorted_iff {type : StateType} {stack : Nat} {event : PubPkt}
    (added : p.addTo type stack event = some p') (inside : p.Inside) (sorted : p.ColumnsSorted) :
    p'.ColumnsSorted ↔ p.InOrder type stack event := by
  obtain ⟨lowIn, highIn⟩ := inside type stack
  rcases addTo_cases added with ⟨full, rfl⟩ | ⟨room, -, -, -, -, -, lows, highs, times⟩
  · exact iff_of_true sorted (.inr (.inl ((full_iff lowIn highIn).mp full)))
  · have notFull : p.fill type stack ≠ allocSize - 1 :=
      fun full => room ((full_iff lowIn highIn).mpr full)
    have push := (sorted type stack).push_iff (t := event.timeStamp) lowIn highIn room
    have here : p'.SortedColumn type stack ↔ p.InOrder type stack event := by
      rw [SortedColumn, lows, highs, times, if_pos ⟨rfl, rfl⟩, if_pos ⟨rfl, rfl⟩, push]
      constructor
      · intro above
        rcases Nat.eq_zero_or_pos (p.fill type stack) with empty | some
        · exact .inl empty
        · exact .inr (.inr (above (Nat.ne_of_gt some)))
      · intro order some
        rcases order with empty | full | above
        · exact absurd empty some
        · exact absurd full notFull
        · exact above
    rw [← here]
    constructor
    · intro sorted'
      exact sorted' type stack
    · intro sorted' t s
      by_cases same : t = type ∧ s = stack
      · obtain ⟨rfl, rfl⟩ := same
        exact sorted'
      · have old := sorted t s
        rw [SortedColumn, lows, highs, times, if_neg same, if_neg same]
        exact old

theorem Deleted.sorted (deleted : Deleted p p') (inside : p.Inside) (sorted : p.ColumnsSorted) :
    p'.ColumnsSorted := by
  intro type stack
  obtain ⟨lowIn, highIn⟩ := inside type stack
  rw [SortedColumn, deleted.timestamps, deleted.highIndexes]
  rcases deleted.lowered type stack with ⟨d, few, low⟩ | ⟨-, -, single⟩
  · rw [low]
    exact (sorted type stack).drop lowIn highIn few
  · exact Ring.Sorted.of_size_le_one single

theorem deleteExpiredEvents_sorted (event : PubPkt) (inside : p.Inside)
    (sorted : p.ColumnsSorted) : (p.deleteExpiredEvents event).ColumnsSorted :=
  (deleteExpiredEvents_deleted event inside).sorted inside sorted

theorem remove_sorted (ev : EventInfo) (stack : Nat) (sorted : p.ColumnsSorted) :
    (p.remove ev stack).ColumnsSorted := by
  intro t s
  rcases p.remove_cases ev stack with ⟨-, same⟩ | ⟨i, found, -, -, -, lows, times, highs⟩
  · rw [same]
    exact sorted t s
  · rw [SortedColumn, lows, times, highs]
    split
    case isFalse => exact sorted t s
    case isTrue here =>
      obtain ⟨rfl, rfl⟩ := here
      obtain ⟨above, below⟩ := found_eq_some found
      apply (sorted .state s).take
      rw [Ring.size, Ring.size]
      split_ifs <;> omega

theorem columnsSorted_step_iff {call : GPUCall} (inside : p.Inside) (sorted : p.ColumnsSorted)
    (next : p.step call = some p') : p'.ColumnsSorted ↔ p.AddsInOrder call := by
  cases call with
  | addEventToStack stack event => exact addTo_sorted_iff next inside sorted
  | addEventToNegationStack neg event => exact addTo_sorted_iff next inside sorted
  | addEventToAggregateStack agg event => exact addTo_sorted_iff next inside sorted
  | deleteExpiredEvents event =>
      cases next
      exact iff_of_true (deleteExpiredEvents_sorted event inside sorted) trivial
  | remove ev stack =>
      cases next
      exact iff_of_true (remove_sorted ev stack sorted) trivial

/-! ## Runs -/

/-- The columns are sorted throughout a run if and only if every event that a column takes is not
older than the newest one there. -/
theorem columnsSorted_iff {rulePkt : RulePkt} {mm : MemoryManager}
    {columns : StateType → Nat → Nat → Nat} (made : init rulePkt mm columns = some p)
    (calls : List GPUCall) :
    Histories.Always step Allowed ColumnsSorted p calls ↔
      Histories.AtEachCall step Allowed AddsInOrder p calls := by
  have sorted : p.ColumnsSorted := by
    obtain ⟨-, -, -, -, -, -, -, ends⟩ := init_eq_some made
    intro type stack
    apply Ring.Sorted.of_size_le_one
    rw [(ends type stack).1, (ends type stack).2]
    decide
  have keepsInside : ∀ p call p', Inside p → Allowed p call → step p call = some p' → Inside p' :=
    fun _ _ _ inside _ next => step_inside next inside
  have keeps : ∀ p call p', Inside p → ColumnsSorted p → Allowed p call → step p call = some p' →
      (ColumnsSorted p' ↔ AddsInOrder p call) :=
    fun _ _ _ inside sorted _ next => columnsSorted_step_iff inside sorted next
  exact Histories.always_iff keepsInside keeps (init_inside made) sorted calls

/-- A rule with a terminator and one more state. -/
def twoStates : RulePkt :=
  { ruleId := 0
    predicates := [⟨1, [], -1, 0, .eachWithin⟩, ⟨2, [], 0, 10, .eachWithin⟩]
    parameters := []
    negations := []
    aggregates := []
    consuming := []
    complexParameters := []
    ceTemplate := none }

/-- An event for the state of `twoStates`. -/
def eventAt (time : Nat) : PubPkt := PubPkt.new 2 [] time

/-- The processor of `twoStates` on ten empty pages. -/
def freshProcessor : Option GPUProcessor :=
  init twoStates (.new 10 (fun _ => ⟨[], 0⟩) (fun _ => ⟨[], 0⟩)) fun _ _ _ => 0

/-- Two events in order, and one that is as old as the second. -/
def inOrderCalls : List GPUCall :=
  [.addEventToStack 0 (eventAt 5), .addEventToStack 0 (eventAt 8), .addEventToStack 0 (eventAt 8)]

theorem columnsSorted_iff_fresh : ∃ p, freshProcessor = some p ∧
    (Histories.Always step Allowed ColumnsSorted p inOrderCalls ↔
      Histories.AtEachCall step Allowed AddsInOrder p inOrderCalls) := by
  have ready : freshProcessor.isSome = true := by decide +kernel
  obtain ⟨p, made⟩ := Option.isSome_iff_exists.mp ready
  exact ⟨p, made, columnsSorted_iff made inOrderCalls⟩

/-- The second event is older than the first one. -/
theorem lateEvent_not_sorted : ∃ p, freshProcessor = some p ∧
    ¬ Histories.Always step Allowed ColumnsSorted p
      [.addEventToStack 0 (eventAt 5), .addEventToStack 0 (eventAt 3)] := by
  have after : (freshProcessor.bind fun p => Histories.run step Allowed p
      [.addEventToStack 0 (eventAt 5), .addEventToStack 0 (eventAt 3)]).map
        (fun p => (p.timestamps .state 0 0, p.timestamps .state 0 1, p.lowIndexes .state 0,
          p.highIndexes .state 0)) = some (5, 3, 0, 2) := by decide +kernel
  obtain ⟨p', ran, column⟩ := Option.map_eq_some_iff.mp after
  obtain ⟨p, made, ran⟩ := Option.bind_eq_some_iff.mp ran
  simp only [Prod.mk.injEq] at column
  obtain ⟨first, second, low, high⟩ := column
  refine ⟨p, made, fun always => ?_⟩
  have sorted := always.of_run ran .state 0
  rw [SortedColumn, low, high] at sorted
  have order := sorted 0 1 (by decide) (by decide)
  have place : ∀ k < 2, Ring.pos allocSize 0 k = k := by decide
  rw [place 0 (by decide), place 1 (by decide), first, second] at order
  exact absurd order (by decide)

end GPUProcessor

end TRex
