import TRex.Lib.Bisect
import TRex.Lib.Ring
import TRex.MemoryManager
import TRex.RulePkt

/-!
# The columns of the GPU engine

`Engine/GPU/GPUProcessor`: every stack has a circular column of timestamps, from `lowIndexes` to
`highIndexes`, and its events lie in the pages of the memory manager. The arrays for states,
negations and aggregates and the code that treats them are three copies of one another, which differ
in the kind of stack only.

A call ends in `none` where the source exits the process.
-/

namespace TRex

/-! ## Circular columns -/

/-- Subtraction of `uint64_t`s, which wraps below 0. -/
def uint64Sub (a b : Nat) : Nat := if b ≤ a then a - b else a + 2 ^ 64 - b

/-- The first place with a timestamp above the bound, -1 being `none`. The two ends of the bracket
are numbered from `lowIndex` on; `minValue` and `maxValue` are their places. In an empty column the
bracket is 0 .. -1, which neither the loop nor the test for equal ends takes up. -/
def getFirstValidElementCircular (column : Nat → Nat) (lowIndex highIndex minTimeStamp : Nat) :
    Option Nat :=
  let size := Ring.size allocSize lowIndex highIndex
  let maxValue := if highIndex = 0 then allocSize - 1 else highIndex - 1
  if column maxValue ≤ minTimeStamp then none
  else if size = 0 then
    if column lowIndex > minTimeStamp then some lowIndex else some maxValue
  else
    let (relativeMinValue, relativeMaxValue) := Bisect.narrow
      (fun mid => column (Ring.pos allocSize lowIndex mid) ≤ minTimeStamp) size 0 (size - 1)
    let minValue := Ring.pos allocSize lowIndex relativeMinValue
    let maxValue := Ring.pos allocSize lowIndex relativeMaxValue
    if relativeMaxValue - relativeMinValue = 0 then some minValue
    else if column minValue > minTimeStamp then some minValue
    else some maxValue

/-- The new `lowIndex`, and the size that the source returns. -/
def deleteInvalidElementsCircular (column : Nat → Nat) (lowIndex highIndex minTimeStamp : Nat) :
    Nat × Nat :=
  match getFirstValidElementCircular column lowIndex highIndex minTimeStamp with
  | none => (highIndex, 0)
  | some firstValidElement => (firstValidElement, Ring.size allocSize firstValidElement highIndex)

/-! ## Events -/

/-- `createEventInfo` exits if the event has too many attributes. -/
def createEventInfo (event : PubPkt) : Option EventInfo :=
  if event.attributes.length > maxNumAttr then none
  else some { attr := event.attributes, timestamp := event.timeStamp }

def compareAttr (a b : Attribute) : Bool :=
  a.type == b.type && match a.type with
    | .int => a.value.intVal == b.value.intVal
    | .float => CFloat.eq a.value.floatVal b.value.floatVal
    | .bool => a.value.boolVal == b.value.boolVal
    | .string => a.value.stringVal == b.value.stringVal

/-- Whether two events are equal in their first `size` attributes. An attribute that neither of them
has is memory that was never written; such attributes are taken to be equal. -/
def compareEvt (e1 e2 : EventInfo) (size : Nat) : Bool :=
  e1.timestamp == e2.timestamp && (List.range size).all fun i =>
    match e1.attr[i]?, e2.attr[i]? with
    | some a, some b => compareAttr a b
    | none, none => true
    | _, _ => false

/-! ## The processor -/

def maxParametersNum : Nat := 3

structure GPUProcessor where
  rulePkt : RulePkt
  mm : MemoryManager
  mmToken : Nat
  lowIndexes : StateType → Nat → Nat
  highIndexes : StateType → Nat → Nat
  timestamps : StateType → Nat → Nat → Nat
  samples : StateType → Nat → Option PubPkt

namespace GPUProcessor

/-- The numbers that the processor subscribes with. -/
def needs (rulePkt : RulePkt) : Needs :=
  { seqLen := rulePkt.predicates.length
    aggrNum := rulePkt.aggregates.length
    negNum := rulePkt.negations.length }

def checkDefinitions (rulePkt : RulePkt) : Bool :=
  rulePkt.aggregates.length ≤ maxNumAggregates && rulePkt.negations.length ≤ maxNegationsNum &&
    rulePkt.predicates.length ≤ maxRuleFields &&
    [StateType.neg, .agg, .state].all fun type =>
      (rulePkt.complexParameters.countP fun p => p.type == type) ≤ maxParametersNum

/-- `init`, on memory with the given columns. Without a slot the source goes on with -1 as an index,
which is left out. -/
def init (rulePkt : RulePkt) (mm : MemoryManager) (columns : StateType → Nat → Nat → Nat) :
    Option GPUProcessor := do
  let (token, mm) ← mm.subscribe (needs rulePkt)
  if 0 ≤ token ∧ checkDefinitions rulePkt then
    some { rulePkt, mm
           mmToken := token.toNat
           lowIndexes := fun _ _ => 0
           highIndexes := fun _ _ => 0
           timestamps := columns
           samples := fun _ _ => none }
  else none

variable (p : GPUProcessor)

def sequenceLen : Nat := p.rulePkt.predicates.length

/-! ### Adding events -/

/-- What the three functions for adding an event do; a full stack drops it. -/
def addTo (type : StateType) (stack : Nat) (event : PubPkt) : Option GPUProcessor :=
  let index := p.highIndexes type stack
  if (index + 1) % allocSize = p.lowIndexes type stack then some p
  else do
    let sample := if index = 0 then some event.copy else p.samples type stack
    let column := Function.update (p.timestamps type stack) index event.timeStamp
    let info ← createEventInfo event
    let mm ← p.mm.addEventToStack p.mmToken info stack index type
    let high := (index + 1) % allocSize
    return { p with
      mm
      samples := Function.update p.samples type (Function.update (p.samples type) stack sample)
      timestamps :=
        Function.update p.timestamps type (Function.update (p.timestamps type) stack column)
      highIndexes :=
        Function.update p.highIndexes type (Function.update (p.highIndexes type) stack high) }

def addEventToStack (stack : Nat) (event : PubPkt) : Option GPUProcessor :=
  p.addTo .state stack event

def addEventToNegationStack (neg : Nat) (event : PubPkt) : Option GPUProcessor :=
  p.addTo .neg neg event

def addEventToAggregateStack (agg : Nat) (event : PubPkt) : Option GPUProcessor :=
  p.addTo .agg agg event

/-! ### Deleting expired events -/

def deleteFrom (type : StateType) (stack minTimeStamp : Nat) : GPUProcessor :=
  let low := (deleteInvalidElementsCircular (p.timestamps type stack) (p.lowIndexes type stack)
    (p.highIndexes type stack) minTimeStamp).1
  { p with
    lowIndexes := Function.update p.lowIndexes type
      (Function.update (p.lowIndexes type) stack low) }

/-- The cutoff of a window that ends at a state: its oldest event counts, or, for the terminator,
the event that has arrived. -/
def minTimeStamp (event : PubPkt) (refersToStack : Int) (win : Nat) : Nat :=
  if refersToStack = (p.sequenceLen : Int) - 1 then uint64Sub event.timeStamp win
  else
    let oldest := p.timestamps .state refersToStack.toNat (p.lowIndexes .state refersToStack.toNat)
    if oldest > win then oldest - win else 0

/-- The stack that a predicate's window, a negation or an aggregate ends at. -/
def stackOf (index : Int) : Int := (p.sequenceLen : Int) - 1 - index

def deleteFromState (event : PubPkt) (stack : Nat) : GPUProcessor :=
  match p.rulePkt.predicates[p.sequenceLen - stack - 1]? with
  | none => p
  | some predicate =>
    if p.highIndexes .state stack = p.lowIndexes .state stack then p
    else p.deleteFrom .state stack
      (p.minTimeStamp event (p.stackOf predicate.refersTo) predicate.win)

def deleteFromNegation (event : PubPkt) (negIndex : Nat) : GPUProcessor :=
  match p.rulePkt.negations[negIndex]? with
  | none => p
  | some neg =>
    let win :=
      if neg.lowerId < 0 then neg.lowerTime
      else ((p.rulePkt.predicates[neg.lowerId.toNat]?).map Predicate.win).getD 0
    p.deleteFrom .neg negIndex (p.minTimeStamp event (p.stackOf neg.upperId) win)

/-- The source asks for `win < 0`, which is false of a `uint64_t`: an aggregate between states is
treated as a time-based one. -/
def deleteFromAggregate (event : PubPkt) (aggIndex : Nat) : GPUProcessor :=
  match p.rulePkt.aggregates[aggIndex]? with
  | none => p
  | some agg =>
    p.deleteFrom .agg aggIndex (p.minTimeStamp event (p.stackOf agg.upperId) agg.lowerTime)

def deleteExpiredEvents (event : PubPkt) : GPUProcessor :=
  let p := (List.range (p.sequenceLen - 1)).reverse.foldl
    (fun p stack => p.deleteFromState event stack) p
  let p := (List.range p.rulePkt.negations.length).foldl
    (fun p negIndex => p.deleteFromNegation event negIndex) p
  (List.range p.rulePkt.aggregates.length).foldl
    (fun p aggIndex => p.deleteFromAggregate event aggIndex) p

/-! ### Consuming events -/

/-- The place of the event that `remove` takes away. The loop is not entered when the range is past
the end of the array, and never wraps when it is entered. -/
def found (ev : EventInfo) (stack : Nat) : Option Nat :=
  let size := ((p.samples .state stack).map fun sample => sample.attributes.length).getD 0
  let low := p.lowIndexes .state stack
  (List.range' low (p.highIndexes .state stack - low)).find? fun i =>
    compareEvt (p.mm.getEvent p.mmToken stack i) ev size

def remove (ev : EventInfo) (stack : Nat) : GPUProcessor :=
  match p.found ev stack with
  | none => p
  | some i =>
    let (mm, high) := p.mm.cleanEventStack p.mmToken stack i (p.highIndexes .state stack)
    { p with
      mm
      highIndexes := Function.update p.highIndexes .state
        (Function.update (p.highIndexes .state) stack high) }

end GPUProcessor

/-! ## Runs -/

inductive GPUCall
  | addEventToStack (stack : Nat) (event : PubPkt)
  | addEventToNegationStack (neg : Nat) (event : PubPkt)
  | addEventToAggregateStack (agg : Nat) (event : PubPkt)
  | deleteExpiredEvents (event : PubPkt)
  | remove (ev : EventInfo) (stack : Nat)

namespace GPUProcessor

variable (p : GPUProcessor)

def step : GPUCall → Option GPUProcessor
  | .addEventToStack stack event => p.addEventToStack stack event
  | .addEventToNegationStack neg event => p.addEventToNegationStack neg event
  | .addEventToAggregateStack agg event => p.addEventToAggregateStack agg event
  | .deleteExpiredEvents event => some (p.deleteExpiredEvents event)
  | .remove ev stack => some (p.remove ev stack)

/-- The stacks that `processEvent` and `deleteConsumed` name. -/
def Allowed : GPUCall → Prop
  | .addEventToStack stack _ => stack < p.sequenceLen - 1
  | .addEventToNegationStack neg _ => neg < p.rulePkt.negations.length
  | .addEventToAggregateStack agg _ => agg < p.rulePkt.aggregates.length
  | .deleteExpiredEvents _ => True
  | .remove _ stack => stack < p.sequenceLen

instance : (call : GPUCall) → Decidable (p.Allowed call)
  | .addEventToStack _ _ => inferInstanceAs (Decidable (_ < _))
  | .addEventToNegationStack _ _ => inferInstanceAs (Decidable (_ < _))
  | .addEventToAggregateStack _ _ => inferInstanceAs (Decidable (_ < _))
  | .deleteExpiredEvents _ => inferInstanceAs (Decidable True)
  | .remove _ _ => inferInstanceAs (Decidable (_ < _))

end GPUProcessor

/-! ## What the calls do -/

theorem update_update_apply {β : Type} (f : StateType → Nat → β) (type t : StateType)
    (stack s : Nat) (v : β) :
    Function.update f type (Function.update (f type) stack v) t s =
      if t = type ∧ s = stack then v else f t s := by
  by_cases sameType : t = type
  · subst sameType
    by_cases sameStack : s = stack
    · simp [sameStack]
    · simp [sameStack]
  · simp [sameType]

/-- The search stays in a column that is not empty. -/
theorem getFirstValidElementCircular_eq_some {column : Nat → Nat} {low high minTS i : Nat}
    (found : getFirstValidElementCircular column low high minTS = some i)
    (notEmpty : Ring.size allocSize low high ≠ 0) :
    ∃ k < Ring.size allocSize low high, i = Ring.pos allocSize low k := by
  have narrowed := Bisect.narrow_spec
    (fun mid => decide (column (Ring.pos allocSize low mid) ≤ minTS))
    (Nat.zero_le (Ring.size allocSize low high - 1))
    (Nat.sub_le (Ring.size allocSize low high) 1)
  have last := narrowed.upper
  have first := narrowed.ordered
  rw [getFirstValidElementCircular] at found
  simp only [if_neg notEmpty] at found
  generalize (if high = 0 then allocSize - 1 else high - 1) = maxValue at found
  split at found
  case isTrue => cases found
  case isFalse =>
    split at found
    case isTrue =>
      refine ⟨_, ?_, (Option.some.inj found).symm⟩
      omega
    case isFalse =>
      split at found
      case isTrue =>
        refine ⟨_, ?_, (Option.some.inj found).symm⟩
        omega
      case isFalse =>
        refine ⟨_, ?_, (Option.some.inj found).symm⟩
        omega

/-- Deletion drops elements at the low end. Of an empty column it may make one with one element. -/
theorem deleteInvalidElementsCircular_low {column : Nat → Nat} {low high minTS : Nat}
    (lowIn : low < allocSize) (highIn : high < allocSize) :
    (∃ d ≤ Ring.size allocSize low high,
      (deleteInvalidElementsCircular column low high minTS).1 = Ring.pos allocSize low d) ∨
    high = low ∧ (deleteInvalidElementsCircular column low high minTS).1 =
      if high = 0 then allocSize - 1 else high - 1 := by
  rw [deleteInvalidElementsCircular]
  cases found : getFirstValidElementCircular column low high minTS with
  | none => exact .inl ⟨_, Nat.le_refl _, (Ring.pos_size lowIn highIn).symm⟩
  | some i =>
      by_cases empty : Ring.size allocSize low high = 0
      · rw [getFirstValidElementCircular] at found
        simp only [if_pos empty] at found
        generalize (if high = 0 then allocSize - 1 else high - 1) = maxValue at found ⊢
        split at found
        case isTrue => cases found
        case isFalse =>
          split at found
          case isTrue =>
            cases found
            exact .inl ⟨0, Nat.zero_le _, (Ring.pos_zero lowIn).symm⟩
          case isFalse =>
            cases found
            exact .inr ⟨(Ring.size_eq_zero lowIn).mp empty, rfl⟩
      · obtain ⟨k, before, at_⟩ := getFirstValidElementCircular_eq_some found empty
        exact .inl ⟨k, Nat.le_of_lt before, at_⟩

namespace GPUProcessor

variable {p p' : GPUProcessor}

/-- The two ends of every column are places of it. -/
def Inside (p : GPUProcessor) : Prop :=
  ∀ type stack, p.lowIndexes type stack < allocSize ∧ p.highIndexes type stack < allocSize

theorem addTo_cases {type : StateType} {stack : Nat} {event : PubPkt}
    (added : p.addTo type stack event = some p') :
    (p.highIndexes type stack + 1) % allocSize = p.lowIndexes type stack ∧ p' = p ∨
    (p.highIndexes type stack + 1) % allocSize ≠ p.lowIndexes type stack ∧
    ∃ info, createEventInfo event = some info ∧
      p.mm.addEventToStack p.mmToken info stack (p.highIndexes type stack) type = some p'.mm ∧
      p'.rulePkt = p.rulePkt ∧ p'.mmToken = p.mmToken ∧ p'.lowIndexes = p.lowIndexes ∧
      (∀ t s, p'.highIndexes t s = if t = type ∧ s = stack then
        (p.highIndexes type stack + 1) % allocSize else p.highIndexes t s) ∧
      ∀ t s, p'.timestamps t s = if t = type ∧ s = stack then
        Function.update (p.timestamps type stack) (p.highIndexes type stack) event.timeStamp
        else p.timestamps t s := by
  rw [addTo] at added
  split at added
  case isTrue full => exact .inl ⟨full, (Option.some.inj added).symm⟩
  case isFalse room =>
    refine .inr ⟨room, ?_⟩
    obtain ⟨info, created, rest⟩ := Option.bind_eq_some_iff.mp added
    obtain ⟨mm, stored, made⟩ := Option.bind_eq_some_iff.mp rest
    cases made
    exact ⟨info, created, stored, rfl, rfl, rfl,
      fun t s => update_update_apply p.highIndexes type t stack s _,
      fun t s => update_update_apply p.timestamps type t stack s _⟩

/-- A column has lost elements at its low end. One that is not a state's may have got its last
element back. -/
def Lowered (type : StateType) (low low' high : Nat) : Prop :=
  (∃ d ≤ Ring.size allocSize low high, low' = Ring.pos allocSize low d) ∨
    type ≠ .state ∧ low' < allocSize ∧ Ring.size allocSize low' high ≤ 1

namespace Lowered

variable {type : StateType} {low low' low'' high : Nat}

theorem refl (inside : low < allocSize) : Lowered type low low high :=
  .inl ⟨0, Nat.zero_le _, (Ring.pos_zero inside).symm⟩

theorem lt (lowered : Lowered type low low' high) (inside : low < allocSize) :
    low' < allocSize := by
  rcases lowered with ⟨d, -, rfl⟩ | ⟨-, inside', -⟩
  · exact Ring.pos_lt inside
  · exact inside'

theorem trans (first : Lowered type low low' high) (second : Lowered type low' low'' high)
    (lowIn : low < allocSize) (highIn : high < allocSize) : Lowered type low low'' high := by
  have lowIn' := first.lt lowIn
  rcases second with ⟨e, few', rfl⟩ | back
  · rcases first with ⟨d, few, rfl⟩ | ⟨other, -, single⟩
    · rw [Ring.size_pos lowIn highIn few] at few'
      exact .inl ⟨d + e, by omega, Ring.pos_pos⟩
    · refine .inr ⟨other, Ring.pos_lt lowIn', ?_⟩
      rw [Ring.size_pos lowIn' highIn few']
      exact Nat.le_trans (Nat.sub_le _ _) single
  · exact .inr back

end Lowered

/-- Deletion changes the low ends only. -/
structure Deleted (p p' : GPUProcessor) : Prop where
  rulePkt : p'.rulePkt = p.rulePkt
  mm : p'.mm = p.mm
  mmToken : p'.mmToken = p.mmToken
  highIndexes : p'.highIndexes = p.highIndexes
  timestamps : p'.timestamps = p.timestamps
  lowered : ∀ type stack, Lowered type (p.lowIndexes type stack) (p'.lowIndexes type stack)
    (p.highIndexes type stack)

theorem Deleted.refl (inside : p.Inside) : Deleted p p :=
  ⟨rfl, rfl, rfl, rfl, rfl, fun type stack => .refl (inside type stack).1⟩

theorem Deleted.inside (deleted : Deleted p p') (inside : p.Inside) : p'.Inside := by
  intro type stack
  rw [deleted.highIndexes]
  exact ⟨(deleted.lowered type stack).lt (inside type stack).1, (inside type stack).2⟩

theorem Deleted.trans {p'' : GPUProcessor} (first : Deleted p p') (second : Deleted p' p'')
    (inside : p.Inside) : Deleted p p'' := by
  refine ⟨second.rulePkt.trans first.rulePkt, second.mm.trans first.mm,
    second.mmToken.trans first.mmToken, second.highIndexes.trans first.highIndexes,
    second.timestamps.trans first.timestamps, fun type stack => ?_⟩
  have lowered := second.lowered type stack
  rw [first.highIndexes] at lowered
  exact (first.lowered type stack).trans lowered (inside type stack).1 (inside type stack).2

theorem deleteFrom_deleted (type : StateType) (stack minTS : Nat) (inside : p.Inside)
    (some : type = .state → p.highIndexes type stack ≠ p.lowIndexes type stack) :
    Deleted p (p.deleteFrom type stack minTS) := by
  refine ⟨rfl, rfl, rfl, rfl, rfl, fun t s => ?_⟩
  obtain ⟨lowIn, highIn⟩ := inside type stack
  have low : (p.deleteFrom type stack minTS).lowIndexes t s = if t = type ∧ s = stack then
      (deleteInvalidElementsCircular (p.timestamps type stack) (p.lowIndexes type stack)
        (p.highIndexes type stack) minTS).1 else p.lowIndexes t s :=
    update_update_apply p.lowIndexes type t stack s _
  rw [low]
  split
  case isFalse => exact .refl (inside t s).1
  case isTrue here =>
    obtain ⟨rfl, rfl⟩ := here
    rcases deleteInvalidElementsCircular_low lowIn highIn with dropped | ⟨empty, back⟩
    · exact .inl dropped
    · refine .inr ⟨fun state => some state empty, ?_, ?_⟩
      · rw [back]
        split <;> omega
      · rw [back, Ring.size]
        split_ifs <;> omega

theorem deleteFromState_deleted (event : PubPkt) (stack : Nat) (inside : p.Inside) :
    Deleted p (p.deleteFromState event stack) := by
  rw [deleteFromState]
  split
  case h_1 => exact .refl inside
  case h_2 =>
    split
    case isTrue => exact .refl inside
    case isFalse some => exact deleteFrom_deleted .state stack _ inside fun _ => some

theorem deleteFromNegation_deleted (event : PubPkt) (negIndex : Nat) (inside : p.Inside) :
    Deleted p (p.deleteFromNegation event negIndex) := by
  rw [deleteFromNegation]
  split
  case h_1 => exact .refl inside
  case h_2 => exact deleteFrom_deleted .neg negIndex _ inside fun state => by cases state

theorem deleteFromAggregate_deleted (event : PubPkt) (aggIndex : Nat) (inside : p.Inside) :
    Deleted p (p.deleteFromAggregate event aggIndex) := by
  rw [deleteFromAggregate]
  split
  case h_1 => exact .refl inside
  case h_2 => exact deleteFrom_deleted .agg aggIndex _ inside fun state => by cases state

theorem Deleted.foldl {delete : GPUProcessor → Nat → GPUProcessor}
    (each : ∀ p i, p.Inside → Deleted p (delete p i)) (indexes : List Nat) (inside : p.Inside) :
    Deleted p (indexes.foldl delete p) := by
  induction indexes generalizing p with
  | nil => exact .refl inside
  | cons i rest ih =>
      have first := each p i inside
      exact first.trans (ih (first.inside inside)) inside

theorem deleteExpiredEvents_deleted (event : PubPkt) (inside : p.Inside) :
    Deleted p (p.deleteExpiredEvents event) := by
  have states := Deleted.foldl (fun p i => p.deleteFromState_deleted event i)
    (List.range (p.sequenceLen - 1)).reverse inside
  have negs := Deleted.foldl (fun p i => p.deleteFromNegation_deleted event i)
    (List.range p.rulePkt.negations.length) (states.inside inside)
  have both := states.trans negs inside
  have aggs := Deleted.foldl (fun p i => p.deleteFromAggregate_deleted event i)
    (List.range p.rulePkt.aggregates.length) (both.inside inside)
  have all := both.trans aggs inside
  rw [deleteExpiredEvents]
  simp only [both.rulePkt, states.rulePkt]
  exact all

theorem found_eq_some {ev : EventInfo} {stack i : Nat} (found : p.found ev stack = some i) :
    p.lowIndexes .state stack ≤ i ∧ i < p.highIndexes .state stack := by
  have mem := List.mem_range'_1.mp (List.mem_of_find?_eq_some found)
  omega

theorem remove_cases (p : GPUProcessor) (ev : EventInfo) (stack : Nat) :
    p.found ev stack = none ∧ p.remove ev stack = p ∨
    ∃ i, p.found ev stack = some i ∧
      (p.remove ev stack).mm =
        (p.mm.cleanEventStack p.mmToken stack i (p.highIndexes .state stack)).1 ∧
      (p.remove ev stack).rulePkt = p.rulePkt ∧ (p.remove ev stack).mmToken = p.mmToken ∧
      (p.remove ev stack).lowIndexes = p.lowIndexes ∧
      (p.remove ev stack).timestamps = p.timestamps ∧
      ∀ t s, (p.remove ev stack).highIndexes t s =
        if t = .state ∧ s = stack then p.highIndexes .state stack - 1 else p.highIndexes t s := by
  rw [remove]
  cases found : p.found ev stack with
  | none => exact .inl ⟨rfl, rfl⟩
  | some i =>
      refine .inr ⟨i, rfl, rfl, rfl, rfl, rfl, rfl, fun t s => ?_⟩
      have notZero : p.highIndexes .state stack ≠ 0 := by
        have last := (found_eq_some found).2
        omega
      have high : (p.mm.cleanEventStack p.mmToken stack i (p.highIndexes .state stack)).2 =
          p.highIndexes .state stack - 1 := by
        rw [MemoryManager.cleanEventStack, if_neg notZero]
      rw [← high]
      exact update_update_apply p.highIndexes .state t stack s _

end GPUProcessor

end TRex
