import Mathlib.Data.List.Nodup
import Mathlib.Data.List.TakeWhile
import TRex.GPUProcessor

/-!
# Routing an event on the GPU

`GPUProcessor::processEvent` looks up the stacks of the event's type, checks constraints and adds
the event. The states are checked first, and one that the event does not fit ends the call; the
negations and aggregates are checked only if no state has the type, and there, too, the first one
that the event does not fit ends the call. `routesExactly_iff` says when the event nevertheless
comes to the stacks of the elements that it fits and to no others.

The constraint checks are an argument of the model, and so is the computation.
-/

namespace TRex

/-- What `processEvent` has done so far: the stacks that it has added the event to, and how often it
has started the computation. -/
structure Routing where
  processor : GPUProcessor
  added : List (StateType × Nat)
  computations : Nat

namespace GPUProcessor

variable (p : GPUProcessor)

/-- The number of stacks of a kind; the terminator's is the last one of the states. -/
def stackNum : StateType → Nat
  | .state => p.sequenceLen
  | .neg => p.rulePkt.negations.length
  | .agg => p.rulePkt.aggregates.length

/-- The number in the rule of the element that a stack belongs to. -/
def elementOf : StateType → Nat → Nat
  | .state, stack => p.sequenceLen - stack - 1
  | .neg, neg => neg
  | .agg, agg => agg

/-- The event type of a stack's element. -/
def typeOf (type : StateType) (stack : Nat) : Option Int :=
  let element := p.elementOf type stack
  match type with
  | .state => (p.rulePkt.predicates[element]?).map Predicate.eventType
  | .neg => (p.rulePkt.negations[element]?).map Negation.eventType
  | .agg => (p.rulePkt.aggregates[element]?).map Aggregate.eventType

/-- `getMatchingColumns` on the sets of stacks, one for each event type, that `init` has filled. -/
def getMatchingColumns (event : PubPkt) (type : StateType) : List Nat :=
  (List.range (p.stackNum type)).filter fun stack =>
    p.typeOf type stack = some (event.eventType : Int)

/-- "The stack is full!" -/
def isFull (type : StateType) (stack : Nat) : Bool :=
  decide ((p.highIndexes type stack + 1) % allocSize = p.lowIndexes type stack)

end GPUProcessor

/-- Adds the event to a stack; a full one drops it. -/
def Routing.add (r : Routing) (type : StateType) (stack : Nat) (event : PubPkt) :
    Option Routing := do
  let processor ← r.processor.addTo type stack event
  return { r with
    processor
    added := if r.processor.isFull type stack then r.added else r.added ++ [(type, stack)] }

namespace GPUProcessor

section Process

variable (check : StateType → Nat → Bool) (compute : GPUProcessor → PubPkt → GPUProcessor)
  (event : PubPkt)

/-- The loop for the negations, and the one for the aggregates; false where it returns. -/
def addMatching (type : StateType) (noStates : Bool) : List Nat → Routing → Option (Routing × Bool)
  | [], r => some (r, true)
  | stack :: rest, r =>
    if noStates && !check type stack then some (r, false)
    else do addMatching type noStates rest (← r.add type stack event)

/-- The loop for the states. -/
def addStates (sequenceLen : Nat) : List Nat → Routing → Option Routing
  | [], r => some r
  | state :: rest, r =>
    if state < sequenceLen - 1 then do addStates sequenceLen rest (← r.add .state state event)
    else addStates sequenceLen rest { r with
      processor := compute (r.processor.deleteExpiredEvents event) event
      computations := r.computations + 1 }

/-- `processEvent`; `check` is asked for the numbers in the rule. -/
def processEvent (p : GPUProcessor) : Option Routing :=
  let states := p.getMatchingColumns event .state
  let aggs := p.getMatchingColumns event .agg
  let negs := p.getMatchingColumns event .neg
  let r : Routing := ⟨p, [], 0⟩
  if states.any fun state => !check .state (p.sequenceLen - state - 1) then some r
  else do
    let (r, goesOn) ← addMatching check event .neg states.isEmpty negs r
    if !goesOn then return r
    let (r, goesOn) ← addMatching check event .agg states.isEmpty aggs r
    if !goesOn then return r
    addStates compute event p.sequenceLen states r

end Process

/-! ## What is required -/

variable (p : GPUProcessor) (check : StateType → Nat → Bool) (event : PubPkt)

/-- The event has the type of the stack's element and satisfies its constraints. -/
def Fits (type : StateType) (stack : Nat) : Prop :=
  stack < p.stackNum type ∧ p.typeOf type stack = some (event.eventType : Int) ∧
    check type (p.elementOf type stack) = true

/-- The event has come to the stacks of the elements that it fits, but for the terminator, and the
computation has been started if it fits the terminator. -/
def RoutesExactly (r : Routing) : Prop :=
  (∀ type stack, (type, stack) ∈ r.added ↔
    p.Fits check event type stack ∧ ¬ (type = .state ∧ stack = p.sequenceLen - 1)) ∧
  (0 < r.computations ↔ p.Fits check event .state (p.sequenceLen - 1))

/-- The event satisfies the constraints of the stack's element. -/
def Passes (type : StateType) (stack : Nat) : Bool := check type (p.elementOf type stack)

/-- The stacks of a kind that the event is added to when all of them are to have it. -/
def placed (type : StateType) : List (StateType × Nat) :=
  (p.getMatchingColumns event type).map fun stack => (type, stack)

/-- The negations and aggregates of the event's type in the order in which they are dealt with. -/
def others : List (StateType × Nat) := p.placed event .neg ++ p.placed event .agg

/-- No stack of an element that the event fits is full. Where the event has the type of a state, it
satisfies all elements of its type or none; where it does not, it satisfies no element that comes
behind one that it does not satisfy. -/
def RoutesWell : Prop :=
  (∀ type stack, p.Fits check event type stack → ¬ (type = .state ∧ stack = p.sequenceLen - 1) →
    p.isFull type stack = false) ∧
  if p.getMatchingColumns event .state = [] then
    (p.others event).Pairwise fun a b => p.Passes check b.1 b.2 → p.Passes check a.1 a.2
  else
    ((∀ state ∈ p.getMatchingColumns event .state, p.Passes check .state state) ∧
      ∀ e ∈ p.others event, p.Passes check e.1 e.2 ∨ p.isFull e.1 e.2) ∨
    ((∀ state ∈ p.getMatchingColumns event .state, ¬ p.Passes check .state state) ∧
      ∀ e ∈ p.others event, ¬ p.Passes check e.1 e.2)

/-! ## Adding -/

variable {p check event} {r r' : Routing}

/-- The event has been offered to the stacks `offered`, and has come to those with room for it. -/
structure Tracks (p : GPUProcessor) (offered : List (StateType × Nat)) (r : Routing) : Prop where
  added : ∀ e, e ∈ r.added ↔ e ∈ offered ∧ p.isFull e.1 e.2 = false
  full : ∀ e ∉ offered, r.processor.isFull e.1 e.2 = p.isFull e.1 e.2

theorem tracks_start (p : GPUProcessor) : Tracks p [] ⟨p, [], 0⟩ :=
  ⟨fun e => by simp, fun _ _ => rfl⟩

theorem add_eq_some {type : StateType} {stack : Nat} (next : r.add type stack event = some r') :
    r'.computations = r.computations ∧
      (∀ e, e ∈ r'.added ↔
        e ∈ r.added ∨ e = (type, stack) ∧ r.processor.isFull type stack = false) ∧
      ∀ e ≠ (type, stack), r'.processor.isFull e.1 e.2 = r.processor.isFull e.1 e.2 := by
  rcases Option.bind_eq_some_iff.mp next with ⟨processor, added, made⟩
  cases made
  refine ⟨rfl, fun e => ?_, fun e other => ?_⟩
  · cases full : r.processor.isFull type stack with
    | true => simp
    | false => simp
  · rcases addTo_cases added with ⟨_, same⟩ | ⟨_, _, _, _, _, _, lows, highs, _⟩
    · rw [same]
    · have notHere : ¬ (e.1 = type ∧ e.2 = stack) := fun here => other (Prod.ext here.1 here.2)
      simp only [isFull, lows, highs, if_neg notHere]

theorem Tracks.add {offered : List (StateType × Nat)} {type : StateType} {stack : Nat}
    (tracks : Tracks p offered r) (new : (type, stack) ∉ offered)
    (next : r.add type stack event = some r') : Tracks p (offered ++ [(type, stack)]) r' := by
  rcases add_eq_some next with ⟨_, added, full⟩
  constructor
  · intro e
    rw [added, tracks.added, List.mem_append, List.mem_singleton, or_and_right]
    apply or_congr_right
    apply and_congr_right
    intro here
    rw [here, tracks.full _ new]
  · intro e unseen
    rw [List.mem_append, List.mem_singleton, not_or] at unseen
    rw [full e unseen.2, tracks.full e unseen.1]

/-! ## The loops -/

/-- The stacks that the loop for negations or aggregates comes to. -/
def reached (check : StateType → Nat → Bool) (type : StateType) (noStates : Bool) (l : List Nat) :
    List Nat :=
  if noStates then l.takeWhile (check type) else l

/-- The stacks behind one that is offered the event are still to be offered it. -/
theorem not_mem_offered {type : StateType} {stack : Nat} {rest : List Nat}
    {offered : List (StateType × Nat)} (notMem : stack ∉ rest)
    (new : ∀ s ∈ stack :: rest, (type, s) ∉ offered) :
    ∀ s ∈ rest, (type, s) ∉ offered ++ [(type, stack)] := by
  intro s mem seen
  rcases List.mem_append.mp seen with old | here
  · exact new s (List.mem_cons_of_mem _ mem) old
  · have same := (Prod.mk.inj (List.mem_singleton.mp here)).2
    exact notMem (same ▸ mem)

theorem addMatching_spec {type : StateType} {noStates goesOn : Bool} {l : List Nat}
    {offered : List (StateType × Nat)} (tracks : Tracks p offered r) (nodup : l.Nodup)
    (new : ∀ stack ∈ l, (type, stack) ∉ offered)
    (next : addMatching check event type noStates l r = some (r', goesOn)) :
    Tracks p (offered ++ (reached check type noStates l).map fun stack => (type, stack)) r' ∧
      r'.computations = r.computations ∧ goesOn = (!noStates || l.all (check type)) := by
  induction l generalizing r offered with
  | nil =>
    cases next
    have none : reached check type noStates [] = [] := by
      cases noStates <;> rfl
    rw [none, List.map_nil, List.append_nil]
    exact ⟨tracks, rfl, by simp⟩
  | cons stack rest ih =>
    rw [List.nodup_cons] at nodup
    unfold addMatching at next
    split at next
    case isTrue stops =>
      cases next
      rw [Bool.and_eq_true, Bool.not_eq_true'] at stops
      have none : reached check type noStates (stack :: rest) = [] := by
        rw [reached, if_pos stops.1, List.takeWhile_cons, stops.2, if_neg Bool.false_ne_true]
      rw [none, List.map_nil, List.append_nil]
      exact ⟨tracks, rfl, by simp [stops]⟩
    case isFalse goes =>
      rcases Option.bind_eq_some_iff.mp next with ⟨mid, first, later⟩
      have tracks' := tracks.add (new stack List.mem_cons_self) first
      have new' := not_mem_offered nodup.1 new
      rcases ih tracks' nodup.2 new' later with ⟨after, count, on⟩
      have here : reached check type noStates (stack :: rest) =
          stack :: reached check type noStates rest := by
        cases noStates with
        | false => rfl
        | true =>
          have passes : check type stack = true := by simpa using goes
          simp only [reached, if_true, List.takeWhile_cons, passes]
      have checked : (!noStates || (stack :: rest).all (check type)) =
          (!noStates || rest.all (check type)) := by
        cases noStates with
        | false => rfl
        | true =>
          have passes : check type stack = true := by simpa using goes
          simp only [List.all_cons, passes, Bool.true_and]
      rw [here, List.map_cons, List.append_cons, checked]
      exact ⟨after, count.trans (add_eq_some first).1, on⟩

/-- The states but for the terminator. -/
theorem addStates_lower {compute : GPUProcessor → PubPkt → GPUProcessor} {n : Nat}
    {l rest : List Nat} {offered : List (StateType × Nat)} (tracks : Tracks p offered r)
    (nodup : l.Nodup)
    (new : ∀ stack ∈ l, (StateType.state, stack) ∉ offered) (lower : ∀ state ∈ l, state < n - 1)
    (next : addStates compute event n (l ++ rest) r = some r') :
    ∃ mid, Tracks p (offered ++ l.map fun stack => (StateType.state, stack)) mid ∧
      mid.computations = r.computations ∧ addStates compute event n rest mid = some r' := by
  induction l generalizing r offered with
  | nil =>
    rw [List.map_nil, List.append_nil]
    exact ⟨r, tracks, rfl, next⟩
  | cons stack l ih =>
    rw [List.nodup_cons] at nodup
    rw [List.cons_append, addStates, if_pos (lower stack List.mem_cons_self)] at next
    rcases Option.bind_eq_some_iff.mp next with ⟨mid, first, later⟩
    have tracks' := tracks.add (new stack List.mem_cons_self) first
    have new' := not_mem_offered nodup.1 new
    rcases ih tracks' nodup.2 new' (fun s mem => lower s (List.mem_cons_of_mem _ mem)) later with
      ⟨last, after, count, done⟩
    rw [List.map_cons, List.append_cons]
    exact ⟨last, after, count.trans (add_eq_some first).1, done⟩

/-! ## The whole call -/

theorem nodup_getMatchingColumns (p : GPUProcessor) (event : PubPkt) (type : StateType) :
    (p.getMatchingColumns event type).Nodup := List.nodup_range.filter _

theorem mem_getMatchingColumns {type : StateType} {stack : Nat} :
    stack ∈ p.getMatchingColumns event type ↔
      stack < p.stackNum type ∧ p.typeOf type stack = some (event.eventType : Int) := by
  rw [getMatchingColumns, List.mem_filter, List.mem_range, decide_eq_true_eq]

theorem fits_iff {type : StateType} {stack : Nat} :
    p.Fits check event type stack ↔
      stack ∈ p.getMatchingColumns event type ∧ p.Passes check type stack = true := by
  rw [mem_getMatchingColumns, Fits, Passes, and_assoc]

theorem mem_placed {type : StateType} {e : StateType × Nat} :
    e ∈ p.placed event type ↔ e.1 = type ∧ e.2 ∈ p.getMatchingColumns event type := by
  constructor
  · intro mem
    rcases List.mem_map.mp mem with ⟨stack, matching, same⟩
    rw [← same]
    exact ⟨rfl, matching⟩
  · intro matching
    exact List.mem_map.mpr ⟨e.2, matching.2, Prod.ext matching.1.symm rfl⟩

theorem mem_others {e : StateType × Nat} :
    e ∈ p.others event ↔ e.1 ≠ .state ∧ e.2 ∈ p.getMatchingColumns event e.1 := by
  rw [others, List.mem_append, mem_placed, mem_placed]
  rcases e with ⟨type, stack⟩
  cases type with
  | state => simp
  | neg => simp
  | agg => simp

/-- The terminator is the last of the states. -/
theorem getMatchingColumns_state (p : GPUProcessor) (event : PubPkt) :
    ∃ lower terminator, p.getMatchingColumns event .state = lower ++ terminator ∧
      (∀ state, state ∈ lower ↔ state ∈ p.getMatchingColumns event .state ∧
        state < p.sequenceLen - 1) ∧
      (terminator = [] ∧ p.sequenceLen - 1 ∉ p.getMatchingColumns event .state ∨
        terminator = [p.sequenceLen - 1] ∧
          p.sequenceLen - 1 ∈ p.getMatchingColumns event .state) := by
  have mem : ∀ state, state ∈ p.getMatchingColumns event .state ↔ state < p.sequenceLen ∧
      p.typeOf .state state = some (event.eventType : Int) := fun _ => mem_getMatchingColumns
  let matching : Nat → Bool := fun stack => p.typeOf .state stack = some (event.eventType : Int)
  have whole : p.getMatchingColumns event .state = (List.range p.sequenceLen).filter matching := rfl
  cases length : p.sequenceLen with
  | zero =>
    rw [length, List.range_zero, List.filter_nil] at whole
    rw [whole]
    exact ⟨[], [], rfl, by simp, .inl ⟨rfl, List.not_mem_nil⟩⟩
  | succ last =>
    rw [length, List.range_succ, List.filter_append] at whole
    refine ⟨_, _, whole, fun state => ?_, ?_⟩
    · rw [List.mem_filter, List.mem_range, decide_eq_true_eq, mem, length]
      constructor
      · intro lower
        exact ⟨⟨by omega, lower.2⟩, by omega⟩
      · intro lower
        exact ⟨by omega, lower.1.2⟩
    · rw [mem, length, Nat.add_sub_cancel]
      by_cases isLast : p.typeOf .state last = some (event.eventType : Int)
      · refine .inr ⟨?_, by omega, isLast⟩
        exact List.filter_cons_of_pos (decide_eq_true isLast)
      · refine .inl ⟨?_, fun matches' => isLast matches'.2⟩
        exact List.filter_cons_of_neg (fun holds => isLast (of_decide_eq_true holds))

/-- The others up to the first that the event does not satisfy: the loop for the aggregates is
entered only if the one for the negations has come to its end. -/
theorem takeWhile_others : (p.others event).takeWhile (fun e => p.Passes check e.1 e.2) =
    if (p.getMatchingColumns event .neg).all (check .neg) then
      p.placed event .neg ++ ((p.getMatchingColumns event .agg).takeWhile (check .agg)).map
        fun stack => (StateType.agg, stack)
    else ((p.getMatchingColumns event .neg).takeWhile (check .neg)).map
        fun stack => (StateType.neg, stack) := by
  rw [others, placed, placed, List.takeWhile_append, List.takeWhile_map, List.takeWhile_map,
    List.length_map, List.length_map]
  have negs : ((fun e : StateType × Nat => p.Passes check e.1 e.2) ∘
      fun stack => (StateType.neg, stack)) = check .neg := rfl
  have aggs : ((fun e : StateType × Nat => p.Passes check e.1 e.2) ∘
      fun stack => (StateType.agg, stack)) = check .agg := rfl
  rw [negs, aggs]
  by_cases all : (p.getMatchingColumns event .neg).all (check .neg) = true
  · rw [if_pos all, List.takeWhile_eq_self_iff.mpr (List.all_eq_true.mp all), if_pos rfl]
  · rw [if_neg all, if_neg]
    intro whole
    have self := (List.takeWhile_prefix (check .neg)).eq_of_length whole
    exact all (List.all_eq_true.mpr (List.takeWhile_eq_self_iff.mp self))

/-- The stacks of the event's type, but for the terminator's. -/
def OfType (p : GPUProcessor) (event : PubPkt) (e : StateType × Nat) : Prop :=
  e ∈ p.others event ∨ e.1 = .state ∧ e.2 ∈ p.getMatchingColumns event .state ∧
    e.2 < p.sequenceLen - 1

theorem agg_not_mem_negs {l : List Nat} {stack : Nat} :
    (StateType.agg, stack) ∉ l.map fun stack => (StateType.neg, stack) := by
  intro seen
  rcases List.mem_map.mp seen with ⟨_, _, same⟩
  cases (Prod.mk.inj same).1

/-- Without a state of the event's type, the event is offered to the others up to the first that it
does not satisfy. -/
theorem added_of_noStates {r₁ : Routing} {goesOn : Bool}
    (negs : addMatching check event .neg true (p.getMatchingColumns event .neg) ⟨p, [], 0⟩ =
      some (r₁, goesOn))
    (aggs : goesOn = false ∧ r = r₁ ∨ goesOn = true ∧ ∃ goesOn',
      addMatching check event .agg true (p.getMatchingColumns event .agg) r₁ =
        some (r, goesOn')) :
    r.computations = 0 ∧
      ∀ e, e ∈ r.added ↔ e ∈ (p.others event).takeWhile (fun e => p.Passes check e.1 e.2) ∧
        p.isFull e.1 e.2 = false := by
  rcases addMatching_spec (tracks_start p) (nodup_getMatchingColumns p event .neg)
    (fun _ _ => List.not_mem_nil) negs with ⟨tracks, count, goes⟩
  rw [List.nil_append] at tracks
  rw [Bool.not_true, Bool.false_or] at goes
  rcases aggs with ⟨stops, last⟩ | ⟨goesOn, _, aggs⟩
  · rw [stops] at goes
    rw [last]
    refine ⟨count, fun e => ?_⟩
    rw [tracks.added, takeWhile_others, if_neg (Bool.eq_false_iff.mp goes.symm)]
    rfl
  · rw [goesOn] at goes
    rcases addMatching_spec tracks (nodup_getMatchingColumns p event .agg)
      (fun _ _ => agg_not_mem_negs) aggs with ⟨tracks', count', _⟩
    have allNegs : reached check .neg true (p.getMatchingColumns event .neg) =
        p.getMatchingColumns event .neg :=
      List.takeWhile_eq_self_iff.mpr (List.all_eq_true.mp goes.symm)
    refine ⟨count'.trans count, fun e => ?_⟩
    rw [tracks'.added, takeWhile_others, if_pos goes.symm, allNegs]
    rfl

/-- With a state of the event's type, the event is offered to all others. -/
theorem tracks_of_states {r₁ : Routing} {goesOn goesOn' : Bool}
    (negs : addMatching check event .neg false (p.getMatchingColumns event .neg) ⟨p, [], 0⟩ =
      some (r₁, goesOn))
    (aggs : addMatching check event .agg false (p.getMatchingColumns event .agg) r₁ =
      some (r, goesOn')) :
    Tracks p (p.others event) r ∧ r.computations = 0 ∧ goesOn' = true := by
  rcases addMatching_spec (tracks_start p) (nodup_getMatchingColumns p event .neg)
    (fun _ _ => List.not_mem_nil) negs with ⟨tracks, count, _⟩
  rcases addMatching_spec tracks (nodup_getMatchingColumns p event .agg)
    (fun _ _ => agg_not_mem_negs) aggs with ⟨tracks', count', goes⟩
  have offered : (reached check .neg false (p.getMatchingColumns event .neg)).map
      (fun stack => (StateType.neg, stack)) ++
        (reached check .agg false (p.getMatchingColumns event .agg)).map
          (fun stack => (StateType.agg, stack)) = p.others event := rfl
  rw [List.nil_append, offered] at tracks'
  exact ⟨tracks', count'.trans count, goes⟩

/-- The loop for the states adds the event to the lower ones and computes at the terminator. -/
theorem addStates_spec {compute : GPUProcessor → PubPkt → GPUProcessor}
    (tracks : Tracks p (p.others event) r)
    (next : addStates compute event p.sequenceLen (p.getMatchingColumns event .state) r =
      some r') :
    (r.computations < r'.computations ↔
        p.sequenceLen - 1 ∈ p.getMatchingColumns event .state) ∧
      ∀ e, e ∈ r'.added ↔ p.OfType event e ∧ p.isFull e.1 e.2 = false := by
  rcases getMatchingColumns_state p event with ⟨lower, terminator, split, isLower, isLast⟩
  have nodup : lower.Nodup := by
    have whole := nodup_getMatchingColumns p event .state
    rw [split] at whole
    exact (List.nodup_append.mp whole).1
  have new : ∀ stack ∈ lower, (StateType.state, stack) ∉ p.others event :=
    fun _ _ seen => (mem_others.mp seen).1 rfl
  have states : addStates compute event p.sequenceLen (lower ++ terminator) r = some r' := by
    rw [← split]
    exact next
  rcases addStates_lower tracks nodup new (fun state mem => ((isLower state).mp mem).2)
    states with ⟨mid, tracks, same, rest⟩
  have added : ∀ e, e ∈ mid.added ↔ p.OfType event e ∧ p.isFull e.1 e.2 = false := by
    intro e
    rw [tracks.added, List.mem_append, OfType, ← isLower]
    apply and_congr_left'
    apply or_congr_right
    constructor
    · intro mem
      rcases List.mem_map.mp mem with ⟨stack, mem, same⟩
      rw [← same]
      exact ⟨rfl, mem⟩
    · intro mem
      exact List.mem_map.mpr ⟨e.2, mem.2, Prod.ext mem.1.symm rfl⟩
  rcases isLast with ⟨none, notLast⟩ | ⟨one, last⟩
  · rw [none] at rest
    cases rest
    rw [same]
    exact ⟨iff_of_false (Nat.lt_irrefl _) notLast, added⟩
  · rw [one, addStates, if_neg (Nat.lt_irrefl _)] at rest
    cases rest
    exact ⟨iff_of_true (same ▸ Nat.lt_succ_self _) last, added⟩

/-- The two ways that `processEvent` takes once the states have been checked. -/
theorem processEvent_eq_some {compute : GPUProcessor → PubPkt → GPUProcessor}
    (done : processEvent check compute event p = some r) :
    ((∃ state ∈ p.getMatchingColumns event .state, ¬ p.Passes check .state state = true) ∧
      r = ⟨p, [], 0⟩) ∨
    ((∀ state ∈ p.getMatchingColumns event .state, p.Passes check .state state = true) ∧
      ∃ r₁ goesOn, addMatching check event .neg (p.getMatchingColumns event .state).isEmpty
          (p.getMatchingColumns event .neg) ⟨p, [], 0⟩ = some (r₁, goesOn) ∧
        (goesOn = false ∧ r = r₁ ∨ goesOn = true ∧ ∃ r₂ goesOn',
          addMatching check event .agg (p.getMatchingColumns event .state).isEmpty
              (p.getMatchingColumns event .agg) r₁ = some (r₂, goesOn') ∧
            (goesOn' = false ∧ r = r₂ ∨ goesOn' = true ∧
              addStates compute event p.sequenceLen (p.getMatchingColumns event .state) r₂ =
                some r))) := by
  unfold processEvent at done
  dsimp only at done
  split at done
  case isTrue fails =>
    cases done
    rcases List.any_eq_true.mp fails with ⟨state, mem, fails⟩
    rw [Bool.not_eq_true'] at fails
    exact .inl ⟨⟨state, mem, fun passes => Bool.false_ne_true (fails.symm.trans passes)⟩, rfl⟩
  case isFalse pass =>
    refine .inr ⟨fun state mem => ?_, ?_⟩
    · by_contra fails
      refine pass (List.any_eq_true.mpr ⟨state, mem, ?_⟩)
      rw [Bool.not_eq_true']
      exact Bool.eq_false_iff.mpr fails
    · rcases Option.bind_eq_some_iff.mp done with ⟨⟨r₁, goesOn⟩, negs, done⟩
      refine ⟨r₁, goesOn, negs, ?_⟩
      cases goesOn with
      | false => exact .inl ⟨rfl, (Option.some.inj done).symm⟩
      | true =>
        rcases Option.bind_eq_some_iff.mp done with ⟨⟨r₂, goesOn'⟩, aggs, done⟩
        refine .inr ⟨rfl, r₂, goesOn', aggs, ?_⟩
        cases goesOn' with
        | false => exact .inl ⟨rfl, (Option.some.inj done).symm⟩
        | true => exact .inr ⟨rfl, done⟩

/-- What `processEvent` does in the three cases that it tells apart. -/
theorem processEvent_cases {compute : GPUProcessor → PubPkt → GPUProcessor}
    (done : processEvent check compute event p = some r) :
    ((∃ state ∈ p.getMatchingColumns event .state, ¬ p.Passes check .state state = true) ∧
      r.added = [] ∧ r.computations = 0) ∨
    (p.getMatchingColumns event .state = [] ∧ r.computations = 0 ∧
      ∀ e, e ∈ r.added ↔ e ∈ (p.others event).takeWhile (fun e => p.Passes check e.1 e.2) ∧
        p.isFull e.1 e.2 = false) ∨
    (p.getMatchingColumns event .state ≠ [] ∧
      (∀ state ∈ p.getMatchingColumns event .state, p.Passes check .state state = true) ∧
      (0 < r.computations ↔ p.sequenceLen - 1 ∈ p.getMatchingColumns event .state) ∧
      ∀ e, e ∈ r.added ↔ p.OfType event e ∧ p.isFull e.1 e.2 = false) := by
  rcases processEvent_eq_some done with ⟨fails, last⟩ | ⟨passes, r₁, goesOn, negs, aggs⟩
  · rw [last]
    exact .inl ⟨fails, rfl, rfl⟩
  by_cases empty : p.getMatchingColumns event .state = []
  · rw [empty] at negs aggs
    -- the loop for the states has nothing to do
    have whole : goesOn = false ∧ r = r₁ ∨ goesOn = true ∧ ∃ goesOn', addMatching check event .agg
        true (p.getMatchingColumns event .agg) r₁ = some (r, goesOn') := by
      refine aggs.imp id fun goes => ⟨goes.1, ?_⟩
      rcases goes.2 with ⟨r₂, goesOn', aggs, ⟨_, last⟩ | ⟨_, states⟩⟩
      · exact ⟨goesOn', last ▸ aggs⟩
      · exact ⟨goesOn', Option.some.inj states ▸ aggs⟩
    exact .inr (.inl ⟨empty, added_of_noStates negs whole⟩)
  · have someStates : (p.getMatchingColumns event .state).isEmpty = false :=
      Bool.eq_false_iff.mpr fun none => empty (List.isEmpty_iff.mp none)
    rw [someStates] at negs aggs
    have goes : goesOn = true := (addMatching_spec (tracks_start p)
      (nodup_getMatchingColumns p event .neg) (fun _ _ => List.not_mem_nil) negs).2.2
    rcases aggs with ⟨stops, _⟩ | ⟨_, r₂, goesOn', aggs, states⟩
    · exact absurd (goes.symm.trans stops) Bool.true_eq_false.mp
    · rcases tracks_of_states negs aggs with ⟨tracks, count, goes'⟩
      rcases states with ⟨stops, _⟩ | ⟨_, states⟩
      · exact absurd (goes'.symm.trans stops) Bool.true_eq_false.mp
      · have routed := addStates_spec tracks states
        rw [count] at routed
        exact .inr (.inr ⟨empty, passes, routed⟩)

/-! ## Exact routing -/

/-- The stacks of the elements that the event fits, but for the terminator. -/
theorem fits_lower_iff (e : StateType × Nat) :
    p.Fits check event e.1 e.2 ∧ ¬ (e.1 = .state ∧ e.2 = p.sequenceLen - 1) ↔
      p.OfType event e ∧ p.Passes check e.1 e.2 = true := by
  rw [fits_iff, OfType, mem_others]
  rcases e with ⟨type, stack⟩
  by_cases isState : type = .state
  · subst isState
    have inside : stack ∈ p.getMatchingColumns event .state → stack < p.sequenceLen :=
      fun mem => (mem_getMatchingColumns.mp mem).1
    constructor
    · intro fits
      have lt := inside fits.1.1
      have notLast : stack ≠ p.sequenceLen - 1 := fun same => fits.2 ⟨rfl, same⟩
      exact ⟨.inr ⟨rfl, fits.1.1, by omega⟩, fits.1.2⟩
    · intro lower
      rcases lower.1 with ⟨notState, _⟩ | ⟨_, mem, lt⟩
      · exact absurd rfl notState
      · exact ⟨⟨mem, lower.2⟩, fun last => Nat.ne_of_lt lt last.2⟩
  · simp [isState]

theorem mem_takeWhile_of_pairwise {α : Type*} {f : α → Bool} {l : List α} {a : α}
    (ordered : l.Pairwise fun a b => f b = true → f a = true) (mem : a ∈ l) (holds : f a = true) :
    a ∈ l.takeWhile f := by
  induction l with
  | nil => cases mem
  | cons b rest ih =>
    rw [List.pairwise_cons] at ordered
    rcases List.mem_cons.mp mem with here | later
    · subst here
      rw [List.takeWhile_cons, if_pos holds]
      exact List.mem_cons_self
    · rw [List.takeWhile_cons, if_pos (ordered.1 a later holds)]
      exact List.mem_cons_of_mem b (ih ordered.2 later)

theorem pairwise_of_mem_takeWhile {α : Type*} {f : α → Bool} {l : List α} (nodup : l.Nodup)
    (taken : ∀ a ∈ l, f a = true → a ∈ l.takeWhile f) :
    l.Pairwise fun a b => f b = true → f a = true := by
  induction l with
  | nil => exact List.Pairwise.nil
  | cons b rest ih =>
    rw [List.nodup_cons] at nodup
    by_cases holds : f b = true
    · refine List.pairwise_cons.mpr ⟨fun _ _ _ => holds, ih nodup.2 fun a mem isTrue => ?_⟩
      have inFront := taken a (List.mem_cons_of_mem b mem) isTrue
      rw [List.takeWhile_cons, if_pos holds] at inFront
      rcases List.mem_cons.mp inFront with same | later
      · exact absurd (same ▸ mem) nodup.1
      · exact later
    · have none : ∀ a ∈ b :: rest, f a ≠ true := by
        intro a mem isTrue
        have inFront := taken a mem isTrue
        rw [List.takeWhile_cons, if_neg holds] at inFront
        cases inFront
      exact List.pairwise_of_forall_mem_list fun _ _ a mem isTrue => absurd isTrue (none a mem)

theorem nodup_others (p : GPUProcessor) (event : PubPkt) : (p.others event).Nodup := by
  have one : ∀ type, (p.placed event type).Nodup := fun type =>
    List.Nodup.map (fun _ _ same => (Prod.mk.inj same).2) (nodup_getMatchingColumns p event type)
  refine List.nodup_append.mpr ⟨one .neg, one .agg, fun a neg b agg same => ?_⟩
  have kinds := (mem_placed.mp neg).1.symm.trans
    ((congrArg Prod.fst same).trans (mem_placed.mp agg).1)
  cases kinds

/-- The requirement in terms of the stacks of the event's type. -/
theorem routesExactly_iff_added : p.RoutesExactly check event r ↔
    (∀ e, e ∈ r.added ↔ p.OfType event e ∧ p.Passes check e.1 e.2 = true) ∧
      (0 < r.computations ↔ p.sequenceLen - 1 ∈ p.getMatchingColumns event .state ∧
        p.Passes check .state (p.sequenceLen - 1) = true) := by
  rw [RoutesExactly, fits_iff]
  apply and_congr_left'
  constructor
  · intro exact_ e
    exact (exact_ e.1 e.2).trans (fits_lower_iff e)
  · intro exact_ type stack
    exact (exact_ (type, stack)).trans (fits_lower_iff (type, stack)).symm

/-- The first condition in the same terms. -/
theorem room_iff :
    (∀ type stack, p.Fits check event type stack → ¬ (type = .state ∧ stack = p.sequenceLen - 1) →
      p.isFull type stack = false) ↔
    ∀ e, p.OfType event e → p.Passes check e.1 e.2 = true → p.isFull e.1 e.2 = false := by
  constructor
  · intro room e ofType passes
    have fits := (fits_lower_iff e).mpr ⟨ofType, passes⟩
    exact room e.1 e.2 fits.1 fits.2
  · intro room type stack fits lower
    have ofType := (fits_lower_iff (type, stack)).mp ⟨fits, lower⟩
    exact room (type, stack) ofType.1 ofType.2

/-- A state that the event does not satisfy: the event goes nowhere. -/
theorem routesExactly_of_failing {state : Nat} (mem : state ∈ p.getMatchingColumns event .state)
    (fails : ¬ p.Passes check .state state = true) (none : r.added = [])
    (count : r.computations = 0) : p.RoutesExactly check event r ↔ p.RoutesWell check event := by
  rw [routesExactly_iff_added, RoutesWell, room_iff, if_neg (List.ne_nil_of_mem mem), none, count]
  constructor
  · intro exact_
    have nowhere : ∀ e, p.OfType event e → p.Passes check e.1 e.2 ≠ true :=
      fun e ofType passes => List.not_mem_nil ((exact_.1 e).mpr ⟨ofType, passes⟩)
    refine ⟨fun e ofType passes => absurd passes (nowhere e ofType), .inr ⟨?_, ?_⟩⟩
    · intro s matching passes
      have before := (mem_getMatchingColumns.mp matching).1
      rcases Nat.lt_or_ge s (p.sequenceLen - 1) with lower | last
      · exact nowhere (.state, s) (.inr ⟨rfl, matching, lower⟩) passes
      · have isLast : s = p.sequenceLen - 1 := by
          have bound : s < p.sequenceLen := before
          omega
        rw [isLast] at matching passes
        exact Nat.lt_irrefl 0 (exact_.2.mpr ⟨matching, passes⟩)
    · intro e other
      exact nowhere e (.inl other)
  · intro well
    rcases well.2 with ⟨all, _⟩ | ⟨states, others⟩
    · exact absurd (all state mem) fails
    · refine ⟨fun e => ⟨fun seen => absurd seen List.not_mem_nil, fun fits => ?_⟩,
        fun more => absurd more (Nat.lt_irrefl 0), fun fits => ?_⟩
      · rcases fits.1 with other | ⟨isState, matching, _⟩
        · exact absurd fits.2 (others e other)
        · rw [isState] at fits
          exact absurd fits.2 (states e.2 matching)
      · exact absurd fits.2 (states _ fits.1)

/-- No state of the type: the event goes to the first of the others, up to one that it does not
satisfy. -/
theorem routesExactly_without_states (empty : p.getMatchingColumns event .state = [])
    (count : r.computations = 0)
    (added : ∀ e, e ∈ r.added ↔ e ∈ (p.others event).takeWhile (fun e => p.Passes check e.1 e.2) ∧
      p.isFull e.1 e.2 = false) :
    p.RoutesExactly check event r ↔ p.RoutesWell check event := by
  have ofType : ∀ e, p.OfType event e ↔ e ∈ p.others event := by
    intro e
    rw [OfType, empty]
    exact or_iff_left fun lower => List.not_mem_nil lower.2.1
  rw [routesExactly_iff_added, RoutesWell, room_iff, if_pos empty, count, empty]
  simp only [ofType, added]
  constructor
  · intro exact_
    refine ⟨fun e other passes => ((exact_.1 e).mpr ⟨other, passes⟩).2, ?_⟩
    exact pairwise_of_mem_takeWhile (nodup_others p event)
      fun e other passes => ((exact_.1 e).mpr ⟨other, passes⟩).1
  · intro well
    refine ⟨fun e => ⟨fun taken => ?_, fun fits => ?_⟩, fun more => absurd more (Nat.lt_irrefl 0),
      fun fits => absurd fits.1 List.not_mem_nil⟩
    · let holds : StateType × Nat → Bool := fun e => p.Passes check e.1 e.2
      have inFront : e ∈ (p.others event).takeWhile holds := taken.1
      have passes : holds e = true := List.mem_takeWhile_imp inFront
      exact ⟨(List.takeWhile_prefix _).subset taken.1, passes⟩
    · exact ⟨mem_takeWhile_of_pairwise well.2 fits.1 fits.2, well.1 e fits.1 fits.2⟩

/-- All states of the type are satisfied: the others are not checked. -/
theorem routesExactly_of_passing (nonempty : p.getMatchingColumns event .state ≠ [])
    (passes : ∀ state ∈ p.getMatchingColumns event .state, p.Passes check .state state = true)
    (count : 0 < r.computations ↔ p.sequenceLen - 1 ∈ p.getMatchingColumns event .state)
    (added : ∀ e, e ∈ r.added ↔ p.OfType event e ∧ p.isFull e.1 e.2 = false) :
    p.RoutesExactly check event r ↔ p.RoutesWell check event := by
  rw [routesExactly_iff_added, RoutesWell, room_iff, if_neg nonempty]
  simp only [added]
  constructor
  · intro exact_
    refine ⟨fun e ofType fits => ((exact_.1 e).mpr ⟨ofType, fits⟩).2, .inl ⟨passes, ?_⟩⟩
    intro e other
    cases full : p.isFull e.1 e.2 with
    | true => exact .inr rfl
    | false => exact .inl ((exact_.1 e).mp ⟨.inl other, full⟩).2
  · intro well
    rcases well.2 with ⟨_, others⟩ | ⟨states, _⟩
    · refine ⟨fun e => ⟨fun room => ⟨room.1, ?_⟩, fun fits => ⟨fits.1, well.1 e fits.1 fits.2⟩⟩,
        count.trans ⟨fun last => ⟨last, passes _ last⟩, And.left⟩⟩
      rcases room.1 with other | ⟨isState, matching, _⟩
      · exact (others e other).resolve_right fun full => Bool.false_ne_true (room.2.symm.trans full)
      · rw [isState]
        exact passes e.2 matching
    · rcases List.exists_mem_of_ne_nil _ nonempty with ⟨state, mem⟩
      exact absurd (passes state mem) (states state mem)

/-- The event comes to the elements that it fits and to no others exactly under these conditions. -/
theorem routesExactly_iff (p : GPUProcessor) (check : StateType → Nat → Bool)
    (compute : GPUProcessor → PubPkt → GPUProcessor) (event : PubPkt) (r : Routing)
    (done : processEvent check compute event p = some r) :
    p.RoutesExactly check event r ↔ p.RoutesWell check event := by
  rcases processEvent_cases done with ⟨⟨state, mem, fails⟩, none, count⟩ | ⟨empty, count, added⟩ |
    ⟨nonempty, passes, count, added⟩
  · exact routesExactly_of_failing mem fails none count
  · exact routesExactly_without_states empty count added
  · exact routesExactly_of_passing nonempty passes count added

/-- A rule with one event type for a state and a negation. -/
def sharedType : RulePkt :=
  { ruleId := 0
    predicates := [⟨1, [], -1, 0, .eachWithin⟩, ⟨2, [], 0, 10, .eachWithin⟩]
    parameters := []
    negations := [⟨2, [], -1, 10, 0⟩]
    aggregates := []
    consuming := []
    complexParameters := []
    ceTemplate := none }

/-- A processor of the rule that has seen no event. -/
def sharedProcessor : GPUProcessor where
  rulePkt := sharedType
  mm := .new 10 (fun _ => ⟨[], 0⟩) (fun _ => ⟨[], 0⟩)
  mmToken := 0
  lowIndexes _ _ := 0
  highIndexes _ _ := 0
  timestamps _ _ _ := 0
  samples _ _ := none

/-- The event satisfies both and comes to both stacks. -/
theorem routesExactly_iff_shared : ∃ r,
    processEvent (fun _ _ => true) (fun p _ => p) (PubPkt.new 2 [] 5) sharedProcessor = some r ∧
      r.added = [(.neg, 0), (.state, 0)] ∧
      (sharedProcessor.RoutesExactly (fun _ _ => true) (PubPkt.new 2 [] 5) r ↔
        sharedProcessor.RoutesWell (fun _ _ => true) (PubPkt.new 2 [] 5)) := by
  have done : (processEvent (fun _ _ => true) (fun p _ => p) (PubPkt.new 2 [] 5)
      sharedProcessor).map Routing.added = some [(.neg, 0), (.state, 0)] := by decide +kernel
  obtain ⟨r, routed, added⟩ := Option.map_eq_some_iff.mp done
  exact ⟨r, routed, added, routesExactly_iff sharedProcessor _ _ _ r routed⟩

/-- The event satisfies the negation, but not the state. -/
theorem shared_not_routesExactly :
    processEvent (fun type _ => type == .neg) (fun p _ => p) (PubPkt.new 2 [] 5) sharedProcessor =
      some ⟨sharedProcessor, [], 0⟩ ∧
    ¬ sharedProcessor.RoutesExactly (fun type _ => type == .neg) (PubPkt.new 2 [] 5)
      ⟨sharedProcessor, [], 0⟩ := by
  refine ⟨rfl, fun exact_ => ?_⟩
  have fits : sharedProcessor.Fits (fun type _ => type == .neg) (PubPkt.new 2 [] 5) .neg 0 :=
    ⟨by decide, by decide, by decide⟩
  exact List.not_mem_nil ((exact_.1 .neg 0).mpr ⟨fits, by decide⟩)

end GPUProcessor

end TRex
