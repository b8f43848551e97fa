import TRex.TimestampColumns

/-!
# Removing a consumed event

`GPUProcessor::remove` looks for the event from `lowIndex` on and lets `cleanEventStack` move the
events behind it up. The search stops at `highIndex` by comparing the two, so it finds nothing in a
range that is wrapped, and it compares as many attributes as the stack's sample has, so it may stop
at another event. `removesOnly_iff` says when the event is removed and nothing else.
-/

namespace TRex

/-- The pages that the loop of `cleanEventStack` looks up: to invalidate one, to read from one and
to write to one. -/
def MemoryManager.cleanLookups (idx highIndex : Nat) : Nat → Nat → List Nat
  | 0, _ => []
  | fuel + 1, i =>
    if (idx + i + 1) % allocSize = highIndex then []
    else [(idx + i) / pageSize, (idx + i + 1) % allocSize / pageSize,
      (idx + i) % allocSize / pageSize] ++ cleanLookups idx highIndex fuel (i + 1)

namespace GPUProcessor

variable (p : GPUProcessor) (ev : EventInfo) (stack : Nat)

/-- The pages that `remove` looks up: one for each event that it compares, and those of
`cleanEventStack`. -/
def removeLookups : List Nat :=
  let low := p.lowIndexes .state stack
  let high := p.highIndexes .state stack
  match p.found ev stack with
  | none => (List.range' low (high - low)).map fun i => i / pageSize
  | some idx => (List.range' low (idx + 1 - low)).map (fun i => i / pageSize) ++
      MemoryManager.cleanLookups idx high allocSize 0

/-- The events of a state's stack, from `lowIndex` to `highIndex`. -/
def eventsOf : List EventInfo :=
  (List.range (p.fill .state stack)).map fun k =>
    p.eventStored stack (Ring.pos allocSize (p.lowIndexes .state stack) k)

/-- How many attributes `remove` compares. -/
def sampleSize : Nat :=
  ((p.samples .state stack).map fun sample => sample.attributes.length).getD 0

/-- `remove` ends, takes the event out of its stack and leaves the others as they are, and looks up
pages of the stack only. -/
structure RemovesOnly : Prop where
  ends : ∀ idx, p.found ev stack = some idx →
    ∃ i < allocSize, (idx + i + 1) % allocSize = p.highIndexes .state stack
  erased : ∃ j, (p.eventsOf stack)[j]? = some ev ∧
    (p.remove ev stack).eventsOf stack = (p.eventsOf stack).eraseIdx j
  others : ∀ s < p.sequenceLen - 1, s ≠ stack → (p.remove ev stack).eventsOf s = p.eventsOf s
  inPages : ∀ page ∈ p.removeLookups ev stack, page < p.pages .state stack

/-- The range is in one piece, and the first of its events that passes for the event is the
event. -/
def FindsIt : Prop :=
  p.lowIndexes .state stack ≤ p.highIndexes .state stack ∧
    (p.eventsOf stack).find? (fun e => compareEvt e ev (p.sampleSize stack)) = some ev

end GPUProcessor

/-! ## Erasing -/

/-- Two elements whose removal leaves the same list are equal. -/
theorem getElem?_eq_of_eraseIdx_eq {α : Type*} {l : List α} {i j : Nat} (le : i ≤ j)
    (inside : j < l.length) (same : l.eraseIdx i = l.eraseIdx j) : l[i]? = l[j]? := by
  induction l generalizing i j with
  | nil => exact absurd inside (Nat.not_lt_zero j)
  | cons a rest ih =>
    cases j with
    | zero => rw [Nat.le_zero.mp le]
    | succ j =>
      rw [List.length_cons, Nat.succ_lt_succ_iff] at inside
      cases i with
      | succ i =>
        rw [List.eraseIdx_cons_succ, List.eraseIdx_cons_succ] at same
        exact ih (Nat.le_of_succ_le_succ le) inside (List.cons.inj same).2
      | zero =>
        -- the first element moves up to the place of the second, and so on
        rw [List.eraseIdx_cons_zero, List.eraseIdx_cons_succ] at same
        cases rest with
        | nil => exact absurd inside (Nat.not_lt_zero j)
        | cons b rest =>
          rcases j with _ | j
          · rw [List.eraseIdx_cons_zero] at same
            rw [(List.cons.inj same).1]
            rfl
          · rw [List.eraseIdx_cons_succ] at same
            have first := (List.cons.inj same).1
            have tail : (b :: rest).eraseIdx 0 = (b :: rest).eraseIdx (j + 1) := by
              rw [List.eraseIdx_cons_zero, List.eraseIdx_cons_succ]
              exact (List.cons.inj same).2
            have moved := ih (Nat.zero_le _) inside tail
            rw [List.getElem?_cons_zero, first] at moved
            exact moved

namespace GPUProcessor

variable {p : GPUProcessor} {ev : EventInfo} {stack : Nat}

/-! ## Events of a range in one piece -/

section Ordered

variable (ordered : p.lowIndexes .state stack ≤ p.highIndexes .state stack)

include ordered

theorem fill_of_ordered :
    p.fill .state stack = p.highIndexes .state stack - p.lowIndexes .state stack := by
  rw [fill, Ring.size, if_pos ordered]

theorem eventsOf_of_ordered (inside : p.Inside) : p.eventsOf stack =
    (List.range' (p.lowIndexes .state stack)
      (p.highIndexes .state stack - p.lowIndexes .state stack)).map (p.eventStored stack) := by
  have bounds := inside .state stack
  rw [eventsOf, fill_of_ordered ordered, List.range'_eq_map_range, List.map_map]
  apply List.map_congr_left
  intro k mem
  have before := List.mem_range.mp mem
  rw [Function.comp_apply, Ring.pos_eq bounds.1 (by omega), if_pos (by omega)]

theorem getElem?_eventsOf (inside : p.Inside) {idx : Nat}
    (fromLow : p.lowIndexes .state stack ≤ idx) (toHigh : idx < p.highIndexes .state stack) :
    (p.eventsOf stack)[idx - p.lowIndexes .state stack]? = some (p.eventStored stack idx) := by
  rw [eventsOf_of_ordered ordered inside, List.getElem?_map, List.getElem?_range' (by omega),
    Option.map_some, Nat.one_mul, Nat.add_sub_cancel' fromLow]

/-- The search of `remove` in terms of the events. -/
theorem find?_eventsOf (inside : p.Inside) :
    (p.eventsOf stack).find? (fun e => compareEvt e ev (p.sampleSize stack)) =
      (p.found ev stack).map (p.eventStored stack) := by
  rw [eventsOf_of_ordered ordered inside, List.find?_map]
  rfl

end Ordered

/-- Without a place for the event nothing changes. -/
theorem remove_of_not_found (none : p.found ev stack = none) : p.remove ev stack = p := by
  rw [remove, none]

/-- The ends of the range when an event has been found. -/
theorem remove_ends {idx : Nat} (found : p.found ev stack = some idx) :
    (p.remove ev stack).lowIndexes = p.lowIndexes ∧
      (p.remove ev stack).sequenceLen = p.sequenceLen ∧
      ∀ t s, (p.remove ev stack).highIndexes t s =
        if t = .state ∧ s = stack then p.highIndexes .state stack - 1 else p.highIndexes t s := by
  rcases p.remove_cases ev stack with ⟨none, _⟩ | ⟨_, _, _, rule, _, lows, _, highs⟩
  · rw [none] at found
    cases found
  · exact ⟨lows, by rw [sequenceLen, rule, sequenceLen], highs⟩

/-- The events behind the one that was found move up. -/
theorem eventsOf_remove {idx : Nat} (stored : p.Stored) (found : p.found ev stack = some idx) :
    (p.remove ev stack).eventsOf stack =
      (p.eventsOf stack).eraseIdx (idx - p.lowIndexes .state stack) := by
  rcases remove_stored stored found with ⟨own, stored', read⟩
  rcases found_eq_some found with ⟨fromLow, toHigh⟩
  rcases remove_ends found with ⟨lows, _, highs⟩
  have high : (p.remove ev stack).highIndexes .state stack = p.highIndexes .state stack - 1 := by
    rw [highs, if_pos ⟨rfl, rfl⟩]
  have ordered : p.lowIndexes .state stack ≤ p.highIndexes .state stack := by omega
  have ordered' : (p.remove ev stack).lowIndexes .state stack ≤
      (p.remove ev stack).highIndexes .state stack := by
    rw [lows, high]
    omega
  have pages : ∀ k, p.lowIndexes .state stack + k < p.highIndexes .state stack →
      (StateType.state, stack, (p.lowIndexes .state stack + k) / pageSize) ∈
        p.mm.pagesOf p.mmToken (needs p.rulePkt) := by
    intro k before
    have inFill : k < p.fill .state stack := by
      rw [fill_of_ordered ordered]
      omega
    have page := stored.allocated own inFill
    have bounds := stored.inside .state stack
    rwa [Ring.pos_eq bounds.1 (by omega), if_pos (by omega)] at page
  rw [eventsOf_of_ordered ordered' stored'.inside, eventsOf_of_ordered ordered stored.inside, lows,
    high]
  apply List.ext_getElem
  · rw [List.length_map, List.length_range', List.length_eraseIdx, List.length_map,
      List.length_range', if_pos (by omega)]
    omega
  · intro k before before'
    rw [List.length_map, List.length_range'] at before
    rw [List.getElem_eraseIdx]
    simp only [List.getElem_map, List.getElem_range', Nat.one_mul]
    rw [read stack _ (pages k (by omega))]
    split
    case isTrue moved => rw [dif_neg (by omega), Nat.add_assoc]
    case isFalse stays => rw [dif_pos (by omega)]

/-- The events of the other states stay. -/
theorem eventsOf_remove_other {s : Nat} (stored : p.Stored) (own : s < p.sequenceLen - 1)
    (other : s ≠ stack) : (p.remove ev stack).eventsOf s = p.eventsOf s := by
  cases found : p.found ev stack with
  | none => rw [remove_of_not_found found]
  | some idx =>
    rcases remove_stored stored found with ⟨_, _, read⟩
    rcases remove_ends found with ⟨lows, _, highs⟩
    have sameFill : (p.remove ev stack).fill .state s = p.fill .state s := by
      rw [fill, lows, highs, if_neg fun here => other here.2, fill]
    rw [eventsOf, sameFill, lows, eventsOf]
    apply List.map_congr_left
    intro k mem
    rw [read s _ (stored.allocated own (List.mem_range.mp mem)), if_neg fun here => other here.1]

/-! ## Pages -/

theorem mem_cleanLookups {idx high fuel i page : Nat} (before : idx + i < high)
    (inside : high < allocSize) (mem : page ∈ MemoryManager.cleanLookups idx high fuel i) :
    ∃ j < high, page = j / pageSize := by
  induction fuel generalizing i with
  | zero => cases mem
  | succ fuel ih =>
    unfold MemoryManager.cleanLookups at mem
    rw [Nat.mod_eq_of_lt (show idx + i + 1 < allocSize by omega),
      Nat.mod_eq_of_lt (show idx + i < allocSize by omega)] at mem
    split at mem
    case isTrue => cases mem
    case isFalse more =>
      rcases List.mem_append.mp mem with here | later
      · rcases List.mem_cons.mp here with invalidated | here
        · exact ⟨idx + i, before, invalidated⟩
        · rcases List.mem_cons.mp here with read | here
          · exact ⟨idx + i + 1, by omega, read⟩
          · exact ⟨idx + i, before, List.mem_singleton.mp here⟩
      · exact ih (by omega) later

/-- `remove` looks up pages of places before `highIndex`. -/
theorem mem_removeLookups (inside : p.Inside) {page : Nat} (mem : page ∈ p.removeLookups ev stack) :
    p.lowIndexes .state stack < p.highIndexes .state stack ∧
      ∃ j < p.highIndexes .state stack, page = j / pageSize := by
  unfold removeLookups at mem
  dsimp only at mem
  split at mem
  case h_1 none =>
    rcases List.mem_map.mp mem with ⟨j, mem, isPage⟩
    have range := List.mem_range'_1.mp mem
    exact ⟨by omega, j, by omega, isPage.symm⟩
  case h_2 idx found =>
    rcases found_eq_some found with ⟨fromLow, toHigh⟩
    refine ⟨by omega, ?_⟩
    rcases List.mem_append.mp mem with compared | cleaned
    · rcases List.mem_map.mp compared with ⟨j, mem, isPage⟩
      have range := List.mem_range'_1.mp mem
      exact ⟨j, by omega, isPage.symm⟩
    · exact mem_cleanLookups toHigh (inside .state stack).2 cleaned

theorem removeLookups_inPages (stored : p.Stored) (own : stack < p.sequenceLen - 1) :
    ∀ page ∈ p.removeLookups ev stack, page < p.pages .state stack := by
  intro page mem
  rcases mem_removeLookups stored.inside mem with ⟨_, j, before, isPage⟩
  have highIn := (stored.inside .state stack).2
  rw [isPage]
  rcases stored.reached .state stack own with reached | all
  · exact Nat.div_lt_of_lt_mul (Nat.lt_of_lt_of_le before reached)
  · exact Nat.lt_of_lt_of_le (page_lt (Nat.lt_trans before highIn)) all

/-- The loop of `cleanEventStack` comes to its end within one round. -/
theorem exists_cleanEnd {idx high : Nat} (below : idx < high) (inside : high < allocSize) :
    ∃ i < allocSize, (idx + i + 1) % allocSize = high :=
  ⟨high - idx - 1, by omega, by
    rw [show idx + (high - idx - 1) + 1 = high by omega]
    exact Nat.mod_eq_of_lt inside⟩

/-! ## Removal -/

/-- Something is removed only if a place has been found. -/
theorem exists_found_of_erased {j : Nat} (at_ : (p.eventsOf stack)[j]? = some ev)
    (erased : (p.remove ev stack).eventsOf stack = (p.eventsOf stack).eraseIdx j) :
    ∃ idx, p.found ev stack = some idx := by
  cases found : p.found ev stack with
  | some idx => exact ⟨idx, rfl⟩
  | none =>
    have inside := (List.getElem?_eq_some_iff.mp at_).1
    rw [remove_of_not_found found] at erased
    have length := congrArg List.length erased
    rw [List.length_eraseIdx, if_pos inside] at length
    omega

/-- `remove` takes a stored event away and nothing else exactly if the range is in one piece and the
first event that passes for it is the event. -/
theorem removesOnly_iff (p : GPUProcessor) (ev : EventInfo) (stack : Nat) (stored : p.Stored)
    (own : stack < p.sequenceLen - 1) : p.RemovesOnly ev stack ↔
      p.FindsIt ev stack := by
  constructor
  · intro removes
    rcases removes.erased with ⟨j, at_, erased⟩
    rcases exists_found_of_erased at_ erased with ⟨idx, found⟩
    rcases found_eq_some found with ⟨fromLow, toHigh⟩
    have ordered : p.lowIndexes .state stack ≤ p.highIndexes .state stack := by omega
    refine ⟨ordered, ?_⟩
    rw [find?_eventsOf ordered stored.inside, found]
    have jIn := (List.getElem?_eq_some_iff.mp at_).1
    have place := getElem?_eventsOf ordered stored.inside fromLow toHigh
    have idxIn := (List.getElem?_eq_some_iff.mp place).1
    have same := (eventsOf_remove stored found).symm.trans erased
    rcases Nat.le_total (idx - p.lowIndexes .state stack) j with le | ge
    · rw [getElem?_eq_of_eraseIdx_eq le jIn same, at_] at place
      exact place.symm
    · rw [← getElem?_eq_of_eraseIdx_eq ge idxIn same.symm, at_] at place
      exact place.symm
  · intro finds
    rcases finds with ⟨ordered, first⟩
    rw [find?_eventsOf ordered stored.inside] at first
    rcases Option.map_eq_some_iff.mp first with ⟨idx, found, isEv⟩
    rcases found_eq_some found with ⟨fromLow, toHigh⟩
    refine ⟨?_, ⟨idx - p.lowIndexes .state stack, ?_, eventsOf_remove stored found⟩, ?_,
      removeLookups_inPages stored own⟩
    · intro idx' found'
      exact exists_cleanEnd (found_eq_some found').2 (stored.inside .state stack).2
    · rw [getElem?_eventsOf ordered stored.inside fromLow toHigh, isEv]
    · intro s lt other
      exact eventsOf_remove_other stored lt other

/-- A processor of `twoStates` whose stack has all its pages and the given range; the event at a
place has its number as a timestamp. -/
def ringProcessor (low high : Nat) : GPUProcessor where
  rulePkt := twoStates
  mm :=
    { MemoryManager.new 32 (fun a => ⟨[], a⟩) (fun a => ⟨[], a⟩) with
      rules := fun _ => ⟨fun _ _ page => some page, fun _ _ => maxPagesPerStack⟩ }
  mmToken := 0
  lowIndexes _ stack := if stack = 0 then low else 0
  highIndexes _ stack := if stack = 0 then high else 0
  timestamps _ _ i := i
  samples _ _ := some (eventAt 0)

theorem ringProcessor_stored {low high : Nat} (lowIn : low < allocSize)
    (highIn : high < allocSize) : (ringProcessor low high).Stored := by
  have oneStack : ∀ type stack, stack < (needs twoStates).stacks type →
      type = .state ∧ stack = 0 := by
    intro type stack lt
    cases type with
    | state => exact ⟨rfl, Nat.lt_one_iff.mp lt⟩
    | neg => exact absurd lt (Nat.not_lt_zero stack)
    | agg => exact absurd lt (Nat.not_lt_zero stack)
  refine ⟨?_, show checkDefinitions twoStates = true by decide, ⟨fun _ => rfl, ?_, ?_, ?_⟩,
    ?_, ?_, ?_⟩
  · intro type stack
    by_cases first : stack = 0
    · simp only [ringProcessor, if_pos first]
      exact ⟨lowIn, highIn⟩
    · simp only [ringProcessor, if_neg first]
      decide
  · intro x mem
    rcases oneStack x.1 x.2.1 mem.1 with ⟨type, stack⟩
    rw [type, stack]
    exact ⟨by decide, mem.2⟩
  · intro x _
    exact ⟨x.2.2, rfl⟩
  · intro x memX y memY same
    rcases oneStack x.1 x.2.1 memX.1 with ⟨typeX, stackX⟩
    rcases oneStack y.1 y.2.1 memY.1 with ⟨typeY, stackY⟩
    have page : x.2.2 = y.2.2 := Option.some.inj same
    exact Prod.ext (typeX.trans typeY.symm) (Prod.ext (stackX.trans stackY.symm) page)
  · intro _ _ _
    exact .inr le_rfl
  · intro _ _
    exact .inr le_rfl
  · intro stack beyond
    have notFirst : stack ≠ 0 := Nat.ne_of_gt beyond
    simp only [ringProcessor, if_neg notFirst]

theorem removesOnly_iff_ring :
    (ringProcessor 3 9).RemovesOnly ⟨[], 5⟩ 0 ↔ (ringProcessor 3 9).FindsIt ⟨[], 5⟩ 0 :=
  removesOnly_iff (ringProcessor 3 9) ⟨[], 5⟩ 0 (ringProcessor_stored (by decide) (by decide))
    (by decide)

/-- The range has run past the end of the array, and its oldest event is consumed. -/
theorem wrapped_not_removesOnly : (ringProcessor 65535 2).Stored ∧
    ⟨[], 65535⟩ ∈ (ringProcessor 65535 2).eventsOf 0 ∧
    ¬ (ringProcessor 65535 2).RemovesOnly ⟨[], 65535⟩ 0 := by
  refine ⟨ringProcessor_stored (by decide) (by decide), by decide, fun removes => ?_⟩
  rcases removes.erased with ⟨j, at_, erased⟩
  rcases exists_found_of_erased at_ erased with ⟨idx, found⟩
  have range := found_eq_some found
  have empty : (2 : Nat) < 65535 := by decide
  exact absurd (range.1.trans_lt range.2) (Nat.not_lt.mpr empty.le)

end GPUProcessor

end TRex
