import TRex.ColumnOrder
import TRex.EventStore

/-!
# The timestamp column and the event store

The events of a state's stack lie in the pages of the memory manager, their timestamps in a column
of the processor. Adding writes both, deletion moves only the ends they share, but `remove` moves
the events behind the removed one and leaves their timestamps where they are. `inStep_iff` says in
which runs the two stay in step: those in which events are removed only if all from there to the
newest one have one timestamp. -/

namespace TRex

namespace GPUProcessor

variable {p p' : GPUProcessor}

/-! ## What is required -/

/-- The event that the memory manager returns for a place of a state's stack. -/
def eventStored (p : GPUProcessor) (stack i : Nat) : EventInfo := p.mm.getEvent p.mmToken stack i

/-- Every place of the range of a state's stack has the timestamp of the event stored there. -/
def InStep (p : GPUProcessor) : Prop :=
  ∀ stack < p.sequenceLen - 1, ∀ k < p.fill .state stack,
    p.timestamps .state stack (Ring.pos allocSize (p.lowIndexes .state stack) k) =
      (p.eventStored stack (Ring.pos allocSize (p.lowIndexes .state stack) k)).timestamp

/-- The condition on a call: if an event is removed, it and those behind it have one timestamp. -/
def RemovesAmongEqual (p : GPUProcessor) : GPUCall → Prop
  | .remove ev stack => ∀ i, p.found ev stack = some i → ∀ j, i ≤ j →
    j + 1 < p.highIndexes .state stack →
      p.timestamps .state stack j = p.timestamps .state stack (j + 1)
  | _ => True

/-! ## What holds in every run -/

/-- The pages in use of a stack. -/
def pages (p : GPUProcessor) (type : StateType) (stack : Nat) : Nat :=
  p.mm.num p.mmToken type stack

/-- Columns do not run ahead of their pages; a column that has run past the end of the array has all
the pages there are. -/
structure Stored (p : GPUProcessor) : Prop where
  inside : p.Inside
  sizes : checkDefinitions p.rulePkt = true
  paged : p.mm.Paged p.mmToken (p.mm.pagesOf p.mmToken (needs p.rulePkt))
  reached : ∀ type stack, stack < (needs p.rulePkt).stacks type →
    p.highIndexes type stack ≤ pageSize * p.pages type stack ∨
      maxPagesPerStack ≤ p.pages type stack
  ordered : ∀ stack < p.sequenceLen - 1,
    p.lowIndexes .state stack ≤ p.highIndexes .state stack ∨
      maxPagesPerStack ≤ p.pages .state stack
  unused : ∀ stack, p.sequenceLen - 1 ≤ stack →
    p.highIndexes .state stack = p.lowIndexes .state stack

theorem page_lt {i : Nat} (inside : i < allocSize) : i / pageSize < maxPagesPerStack := by
  rw [maxPagesPerStack]
  exact Nat.div_lt_div_of_lt_of_dvd (by decide) inside

theorem fits_of_checkDefinitions {rulePkt : RulePkt} (sizes : checkDefinitions rulePkt = true)
    (type : StateType) : (needs rulePkt).stacks type ≤ maxStacks type := by
  simp only [checkDefinitions, Bool.and_eq_true, decide_eq_true_eq] at sizes
  obtain ⟨⟨⟨aggs, negs⟩, preds⟩, -⟩ := sizes
  cases type with
  | state => exact Nat.sub_le_sub_right preds 1
  | neg => exact negs
  | agg => exact aggs

/-- The places of a range lie in pages in use. -/
theorem Stored.allocated (stored : p.Stored) {stack k : Nat} (own : stack < p.sequenceLen - 1)
    (before : k < p.fill .state stack) :
    (StateType.state, stack, Ring.pos allocSize (p.lowIndexes .state stack) k / pageSize) ∈
      p.mm.pagesOf p.mmToken (needs p.rulePkt) := by
  obtain ⟨lowIn, highIn⟩ := stored.inside .state stack
  refine ⟨own, ?_⟩
  have whole : maxPagesPerStack ≤ p.pages .state stack →
      Ring.pos allocSize (p.lowIndexes .state stack) k / pageSize < p.pages .state stack :=
    fun all => Nat.lt_of_lt_of_le (page_lt (Ring.pos_lt lowIn)) all
  rcases stored.ordered stack own with order | all
  · rcases stored.reached .state stack own with reached | all
    · have below : Ring.pos allocSize (p.lowIndexes .state stack) k <
          p.highIndexes .state stack := by
        rw [fill, Ring.size, if_pos order] at before
        rw [Ring.pos_eq lowIn (by omega)]
        split <;> omega
      exact Nat.div_lt_of_lt_mul (Nat.lt_of_lt_of_le below reached)
    · exact whole all
  · exact whole all

/-! ## A new processor -/

theorem init_stored {rulePkt : RulePkt} {mm : MemoryManager}
    {columns : StateType → Nat → Nat → Nat} (made : init rulePkt mm columns = some p)
    (numbered : ∀ c, (mm.chunks c).pageIdx = c) : p.Stored := by
  obtain ⟨token, subscribed, nonneg, tokenIs, sizes, rule, -, ends⟩ := init_eq_some made
  have rules : needs p.rulePkt = needs rulePkt := by rw [rule]
  refine ⟨init_inside made, rule ▸ sizes, ?_, ?_, ?_, ?_⟩
  · rw [MemoryManager.subscribe] at subscribed
    split at subscribed
    case h_1 =>
      cases subscribed
      exact absurd nonneg (by decide)
    case h_2 i free =>
      obtain ⟨mm₁, paged, rest⟩ := Option.bind_eq_some_iff.mp subscribed
      have made := Prod.mk.inj (Option.some.inj rest)
      have slot : p.mmToken = i := by
        rw [tokenIs, ← made.1, Int.toNat_natCast]
      have none : mm.Paged i ∅ := by
        refine ⟨numbered, ?_, ?_, ?_⟩
        · intro x mem
          cases mem
        · intro x mem
          cases mem
        · intro x mem
          cases mem
      have all := MemoryManager.firstPages_paged paged
        (MemoryManager.nodup_stacksOf (needs rulePkt)) none
        (fun x mem => Nat.lt_of_lt_of_le (MemoryManager.mem_stacksOf.mp mem)
          (fits_of_checkDefinitions sizes x.1)) (fun x _ mem => by cases mem)
      obtain ⟨-, nums⟩ := MemoryManager.firstPages_num paged
      have pagesIs : p.mm.pagesOf i (needs rulePkt) =
          ∅ ∪ {y | ∃ x ∈ MemoryManager.stacksOf (needs rulePkt), y = (x.1, x.2, 0)} := by
        ext ⟨t, s, q⟩
        have member : (t, s, q) ∈ p.mm.pagesOf i (needs rulePkt) ↔
            s < (needs rulePkt).stacks t ∧ q < mm₁.num i t s := by
          rw [← made.2]
          rfl
        rw [member, nums, Set.empty_union]
        constructor
        · rintro ⟨lt, first⟩
          have mem := MemoryManager.mem_stacksOf.mpr lt
          rw [if_pos ⟨rfl, mem⟩] at first
          have zero : q = 0 := by omega
          exact ⟨(t, s), mem, by rw [zero]⟩
        · rintro ⟨x, mem, same⟩
          cases same
          rw [if_pos ⟨rfl, mem⟩]
          exact ⟨MemoryManager.mem_stacksOf.mp mem, Nat.one_pos⟩
      rw [slot, rules, pagesIs]
      apply all.of_same
      · rw [← made.2]
        rfl
      · intro c
        rw [← made.2]
  · intro type stack _
    refine .inl ?_
    rw [(ends type stack).2]
    exact Nat.zero_le _
  · intro stack _
    refine .inl ?_
    rw [(ends .state stack).1]
    exact Nat.zero_le _
  · intro stack _
    rw [(ends .state stack).1, (ends .state stack).2]

theorem init_inStep {rulePkt : RulePkt} {mm : MemoryManager}
    {columns : StateType → Nat → Nat → Nat} (made : init rulePkt mm columns = some p) :
    p.InStep := by
  obtain ⟨-, -, -, -, -, -, -, ends⟩ := init_eq_some made
  intro stack _ k before
  rw [fill, (ends .state stack).1, (ends .state stack).2] at before
  exact absurd before (Nat.not_lt_zero k)

/-! ## Adding events -/

/-- What `addTo` does to the columns and the event store, unless the column is full. -/
structure Appended (p p' : GPUProcessor) (type : StateType) (stack time : Nat) : Prop where
  rulePkt : p'.rulePkt = p.rulePkt
  room : (p.highIndexes type stack + 1) % allocSize ≠ p.lowIndexes type stack
  lows : p'.lowIndexes = p.lowIndexes
  highs : ∀ t s, p'.highIndexes t s = if t = type ∧ s = stack then
    (p.highIndexes type stack + 1) % allocSize else p.highIndexes t s
  times : ∀ t s, p'.timestamps t s = if t = type ∧ s = stack then
    Function.update (p.timestamps type stack) (p.highIndexes type stack) time
    else p.timestamps t s
  paged : p'.mm.Paged p'.mmToken (p'.mm.pagesOf p'.mmToken (needs p'.rulePkt))
  pages : ∀ t s, p'.pages t s = if t = type ∧ s = stack then
    max (p.pages t s) (p.highIndexes type stack / pageSize + 1) else p.pages t s
  others : ∀ s i, (StateType.state, s, i / pageSize) ∈ p.mm.pagesOf p.mmToken (needs p.rulePkt) →
    (type = .state → s = stack → i ≠ p.highIndexes type stack) →
      p'.eventStored s i = p.eventStored s i
  newest : type = .state → (p'.eventStored stack (p.highIndexes type stack)).timestamp = time

theorem createEventInfo_timestamp {event : PubPkt} {info : EventInfo}
    (created : createEventInfo event = some info) : info.timestamp = event.timeStamp := by
  rw [createEventInfo] at created
  split at created
  case isTrue => cases created
  case isFalse =>
    cases created
    rfl

theorem Stored.high_page_le (stored : p.Stored) {type : StateType} {stack : Nat}
    (own : stack < (needs p.rulePkt).stacks type) :
    p.highIndexes type stack / pageSize ≤ p.pages type stack := by
  rcases stored.reached type stack own with reached | all
  · exact Nat.div_le_of_le_mul reached
  · exact Nat.le_trans (Nat.le_of_lt (page_lt (stored.inside type stack).2)) all

theorem addTo_appended {type : StateType} {stack : Nat} {event : PubPkt} (stored : p.Stored)
    (own : stack < (needs p.rulePkt).stacks type)
    (added : p.addTo type stack event = some p') :
    p' = p ∨ Appended p p' type stack event.timeStamp := by
  rcases addTo_cases added with ⟨-, same⟩ | ⟨room, info, created, inMemory, rule, token, rest⟩
  · exact .inl same
  · obtain ⟨lows, highs, times⟩ := rest
    obtain ⟨paged, pages, others, newest⟩ := MemoryManager.addEventToStack_added stored.paged
      (fits_of_checkDefinitions stored.sizes type) own (stored.inside type stack).2
      (stored.high_page_le own) inMemory
    refine .inr ⟨rule, room, lows, highs, times, ?_, ?_, ?_, ?_⟩
    · rw [token, rule]
      exact paged
    · intro t s
      rw [GPUProcessor.pages, token]
      exact pages t s
    · intro s i mem other
      rw [eventStored, token, others s i mem, if_neg]
      · rfl
      · exact fun same => other same.1 same.2.1 same.2.2
    · intro state
      rw [eventStored, token, newest state, createEventInfo_timestamp created]

theorem Appended.stored {type : StateType} {stack time : Nat}
    (appended : Appended p p' type stack time) (stored : p.Stored) (inside : p'.Inside)
    (own : stack < (needs p.rulePkt).stacks type) : p'.Stored := by
  have sequence : p'.sequenceLen = p.sequenceLen := by
    rw [sequenceLen, appended.rulePkt, sequenceLen]
  have highIn := (stored.inside type stack).2
  have covered : p.highIndexes type stack < pageSize * (p.highIndexes type stack / pageSize + 1) :=
    Nat.lt_mul_div_succ _ (by decide)
  -- the last place of the array lies in the last page
  have atEnd : p.highIndexes type stack + 1 = allocSize →
      maxPagesPerStack ≤ p.highIndexes type stack / pageSize + 1 := by
    simp only [allocSize, maxPagesPerStack, pageSize]
    omega
  refine ⟨inside, appended.rulePkt ▸ stored.sizes, appended.paged, ?_, ?_, ?_⟩
  · intro t s lt
    rw [appended.rulePkt] at lt
    rw [appended.highs, appended.pages]
    by_cases here : t = type ∧ s = stack
    · obtain ⟨rfl, rfl⟩ := here
      rw [if_pos ⟨rfl, rfl⟩, if_pos ⟨rfl, rfl⟩, Ring.succ_mod highIn]
      refine .inl ?_
      split
      case isTrue => exact Nat.zero_le _
      case isFalse => exact Nat.le_trans covered (Nat.mul_le_mul_left _ (Nat.le_max_right _ _))
    · rw [if_neg here, if_neg here]
      exact stored.reached t s lt
  · intro s lt
    rw [sequence] at lt
    rw [appended.lows, appended.highs, appended.pages]
    by_cases here : StateType.state = type ∧ s = stack
    · obtain ⟨rfl, rfl⟩ := here
      rw [if_pos ⟨rfl, rfl⟩, if_pos ⟨rfl, rfl⟩, Ring.succ_mod highIn]
      rcases stored.ordered s lt with order | all
      · split
        case isTrue last => exact .inr (Nat.le_trans (atEnd last) (Nat.le_max_right _ _))
        case isFalse => exact .inl (Nat.le_succ_of_le order)
      · exact .inr (Nat.le_trans all (Nat.le_max_left _ _))
    · rw [if_neg here, if_neg here]
      exact stored.ordered s lt
  · intro s beyond
    rw [sequence] at beyond
    rw [appended.lows, appended.highs, if_neg]
    · exact stored.unused s beyond
    · intro here
      obtain ⟨rfl, rfl⟩ := here
      exact absurd own (Nat.not_lt.mpr beyond)

theorem Appended.inStep {type : StateType} {stack time : Nat}
    (appended : Appended p p' type stack time) (stored : p.Stored) (inStep : p.InStep) :
    p'.InStep := by
  have sequence : p'.sequenceLen = p.sequenceLen := by
    rw [sequenceLen, appended.rulePkt, sequenceLen]
  intro s lt k before
  rw [sequence] at lt
  obtain ⟨lowIn, highIn⟩ := stored.inside .state s
  rw [fill, appended.lows, appended.highs] at before
  rw [appended.lows, appended.times]
  by_cases here : StateType.state = type ∧ s = stack
  · obtain ⟨rfl, rfl⟩ := here
    rw [if_pos ⟨rfl, rfl⟩] at before ⊢
    rw [Ring.size_push lowIn highIn appended.room] at before
    have top := Ring.pos_size lowIn highIn
    have few := Ring.size_lt lowIn highIn
    rcases Nat.lt_succ_iff_lt_or_eq.mp before with old | new
    · have other : Ring.pos allocSize (p.lowIndexes .state s) k ≠ p.highIndexes .state s := by
        intro same
        rw [← top] at same
        have equal := Ring.pos_injective lowIn (Nat.lt_trans old few) few same
        omega
      rw [Function.update_of_ne other, appended.others _ _ (stored.allocated lt old)
        fun _ _ => other]
      exact inStep s lt k old
    · rw [new, top, Function.update_self]
      exact (appended.newest rfl).symm
  · rw [if_neg here] at before ⊢
    rw [appended.others _ _ (stored.allocated lt before)
      fun state same => absurd ⟨state.symm, same⟩ here]
    exact inStep s lt k before

/-! ## Deleting events -/

theorem Deleted.stored (deleted : Deleted p p') (stored : p.Stored) : p'.Stored := by
  have inside := stored.inside
  have sequence : p'.sequenceLen = p.sequenceLen := by
    rw [sequenceLen, deleted.rulePkt, sequenceLen]
  have pages : ∀ type stack, p'.pages type stack = p.pages type stack := by
    intro type stack
    rw [GPUProcessor.pages, deleted.mm, deleted.mmToken, GPUProcessor.pages]
  have lowered : ∀ stack, ∃ d ≤ p.fill .state stack,
      p'.lowIndexes .state stack = Ring.pos allocSize (p.lowIndexes .state stack) d := by
    intro stack
    rcases deleted.lowered .state stack with dropped | ⟨other, -⟩
    · exact dropped
    · exact absurd rfl other
  refine ⟨deleted.inside inside, deleted.rulePkt ▸ stored.sizes, ?_, ?_, ?_, ?_⟩
  · rw [deleted.mm, deleted.mmToken, deleted.rulePkt]
    exact stored.paged
  · intro type stack lt
    rw [deleted.rulePkt] at lt
    rw [deleted.highIndexes, pages]
    exact stored.reached type stack lt
  · intro stack lt
    rw [sequence] at lt
    obtain ⟨d, few, low⟩ := lowered stack
    obtain ⟨lowIn, highIn⟩ := inside .state stack
    rw [deleted.highIndexes, pages, low]
    rcases stored.ordered stack lt with order | all
    · refine .inl ?_
      rw [fill, Ring.size, if_pos order] at few
      rw [Ring.pos_eq lowIn (by omega)]
      split <;> omega
    · exact .inr all
  · intro stack beyond
    rw [sequence] at beyond
    obtain ⟨d, few, low⟩ := lowered stack
    have empty := stored.unused stack beyond
    have lowIn := (inside .state stack).1
    rw [fill, (Ring.size_eq_zero lowIn).mpr empty] at few
    rw [deleted.highIndexes, low, Nat.le_zero.mp few, Ring.pos_zero lowIn, empty]

theorem Deleted.inStep (deleted : Deleted p p') (stored : p.Stored) (inStep : p.InStep) :
    p'.InStep := by
  intro stack lt k before
  rw [sequenceLen, deleted.rulePkt] at lt
  rw [fill, deleted.highIndexes] at before
  rw [eventStored, deleted.timestamps, deleted.mm, deleted.mmToken]
  obtain ⟨lowIn, highIn⟩ := stored.inside .state stack
  rcases deleted.lowered .state stack with ⟨d, few, low⟩ | ⟨other, -⟩
  · rw [low, Ring.size_pos lowIn highIn few] at before
    rw [low, Ring.pos_pos]
    exact inStep stack lt (d + k) (by rw [fill]; omega)
  · exact absurd rfl other

/-! ## Removing events -/

/-- What `remove` does to the event store if it finds the event. -/
theorem remove_stored {ev : EventInfo} {stack i : Nat} (stored : p.Stored)
    (found : p.found ev stack = some i) :
    stack < p.sequenceLen - 1 ∧ (p.remove ev stack).Stored ∧
    ∀ s j, (StateType.state, s, j / pageSize) ∈ p.mm.pagesOf p.mmToken (needs p.rulePkt) →
      (p.remove ev stack).eventStored s j =
        if s = stack ∧ i ≤ j ∧ j + 1 < p.highIndexes .state stack then p.eventStored s (j + 1)
        else p.eventStored s j := by
  obtain ⟨fromLow, toHigh⟩ := found_eq_some found
  have own : stack < p.sequenceLen - 1 := by
    apply Nat.not_le.mp
    intro beyond
    have empty := stored.unused stack beyond
    omega
  have highIn := (stored.inside .state stack).2
  have reached : ∀ j < p.highIndexes .state stack, (StateType.state, stack, j / pageSize) ∈
      p.mm.pagesOf p.mmToken (needs p.rulePkt) := by
    intro j before
    refine ⟨own, ?_⟩
    rcases stored.reached .state stack own with reached | all
    · exact Nat.div_lt_of_lt_mul (Nat.lt_of_lt_of_le before reached)
    · exact Nat.lt_of_lt_of_le (page_lt (Nat.lt_trans before highIn)) all
  obtain ⟨rules, paged, read⟩ := MemoryManager.cleanLoop_getEvent allocSize 0 stored.paged
    reached highIn toHigh (by omega)
  rcases p.remove_cases ev stack with ⟨none, -⟩ | removed
  · rw [none] at found
    cases found
  · obtain ⟨i', found', memory, rule, token, lows, -, highs⟩ := removed
    rw [found] at found'
    cases found'
    have clean : (p.remove ev stack).mm = MemoryManager.cleanLoop p.mmToken stack i
        (p.highIndexes .state stack) allocSize 0 p.mm := memory
    have numSame : (p.remove ev stack).mm.num = p.mm.num := by
      rw [clean]
      exact Memory.num_of_rules rules
    have pagesSame : ∀ t s, (p.remove ev stack).pages t s = p.pages t s := by
      intro t s
      rw [GPUProcessor.pages, numSame, token, GPUProcessor.pages]
    have sequence : (p.remove ev stack).sequenceLen = p.sequenceLen := by
      rw [sequenceLen, rule, sequenceLen]
    have fewer : ∀ t s, (p.remove ev stack).highIndexes t s ≤ p.highIndexes t s := by
      intro t s
      rw [highs]
      split
      case isTrue here =>
        obtain ⟨rfl, rfl⟩ := here
        exact Nat.sub_le _ 1
      case isFalse => exact Nat.le_refl _
    refine ⟨own, ⟨remove_inside stored.inside, rule ▸ stored.sizes, ?_, ?_, ?_, ?_⟩, ?_⟩
    · have pagesOfSame : (p.remove ev stack).mm.pagesOf p.mmToken (needs p.rulePkt) =
          p.mm.pagesOf p.mmToken (needs p.rulePkt) := by
        rw [MemoryManager.pagesOf, numSame, MemoryManager.pagesOf]
      rw [token, rule, pagesOfSame, clean]
      exact paged
    · intro t s lt
      rw [rule] at lt
      rw [pagesSame]
      rcases stored.reached t s lt with reached | all
      · exact .inl (Nat.le_trans (fewer t s) reached)
      · exact .inr all
    · intro s lt
      rw [sequence] at lt
      rw [lows, pagesSame, highs]
      split
      case isTrue here =>
        obtain ⟨-, rfl⟩ := here
        exact .inl (by omega)
      case isFalse => exact stored.ordered s lt
    · intro s beyond
      rw [sequence] at beyond
      rw [lows, highs, if_neg]
      · exact stored.unused s beyond
      · intro here
        obtain ⟨-, rfl⟩ := here
        omega
    · intro s j mem
      have moved := read s j mem
      rw [Nat.add_zero] at moved
      rw [eventStored, token, clean]
      exact moved

/-- Removing keeps the two in step if and only if the timestamps do not have to move. -/
theorem remove_inStep_iff {ev : EventInfo} {stack : Nat} (stored : p.Stored) (inStep : p.InStep) :
    (p.remove ev stack).InStep ↔ p.RemovesAmongEqual (.remove ev stack) := by
  rcases p.remove_cases ev stack with ⟨none, same⟩ | removed
  · rw [same]
    refine iff_of_true inStep ?_
    intro i found
    rw [none] at found
    cases found
  · obtain ⟨i, found, -, rule, -, lows, times, highs⟩ := removed
    obtain ⟨own, -, read⟩ := remove_stored stored found
    obtain ⟨fromLow, toHigh⟩ := found_eq_some found
    obtain ⟨lowIn, highIn⟩ := stored.inside .state stack
    have order : p.lowIndexes .state stack ≤ p.highIndexes .state stack := by omega
    -- a place of the range in terms of its number
    have place : ∀ k < p.fill .state stack,
        Ring.pos allocSize (p.lowIndexes .state stack) k = p.lowIndexes .state stack + k := by
      intro k before
      rw [fill, Ring.size, if_pos order] at before
      rw [Ring.pos_eq lowIn (by omega), if_pos (by omega)]
    have fillIs : p.fill .state stack =
        p.highIndexes .state stack - p.lowIndexes .state stack := by
      rw [fill, Ring.size, if_pos order]
    have fillAfter : (p.remove ev stack).fill .state stack =
        p.highIndexes .state stack - 1 - p.lowIndexes .state stack := by
      rw [fill, lows, highs, if_pos ⟨rfl, rfl⟩, Ring.size, if_pos (by omega)]
    have known : ∀ j, p.lowIndexes .state stack ≤ j → j < p.highIndexes .state stack →
        p.timestamps .state stack j = (p.eventStored stack j).timestamp ∧
        (StateType.state, stack, j / pageSize) ∈ p.mm.pagesOf p.mmToken (needs p.rulePkt) := by
      intro j above below
      have before : j - p.lowIndexes .state stack < p.fill .state stack := by
        rw [fillIs]
        omega
      have here := inStep stack own _ before
      have there := stored.allocated own before
      rw [place _ before, Nat.add_sub_cancel' above] at here there
      exact ⟨here, there⟩
    constructor
    · intro inStep' i' found' j above below
      rw [found] at found'
      cases found'
      have before : j - p.lowIndexes .state stack < (p.remove ev stack).fill .state stack := by
        rw [fillAfter]
        omega
      have after := inStep' stack (by rw [sequenceLen, rule]; exact own) _ before
      rw [lows, times, place _ (by rw [fillIs]; omega), Nat.add_sub_cancel' (by omega),
        read stack j (known j (by omega) (by omega)).2, if_pos ⟨rfl, above, below⟩,
        ← (known (j + 1) (by omega) below).1] at after
      exact after
    · intro equal s lt k before
      rw [sequenceLen, rule] at lt
      by_cases here : s = stack
      · subst here
        rw [fillAfter] at before
        have inRange : k < p.fill .state s := by
          rw [fillIs]
          omega
        have entry := known (p.lowIndexes .state s + k) (by omega) (by omega)
        rw [lows, times, place k inRange, read _ _ entry.2]
        by_cases behind : i ≤ p.lowIndexes .state s + k
        · have next : p.lowIndexes .state s + k + 1 < p.highIndexes .state s := by omega
          rw [if_pos ⟨rfl, behind, next⟩, ← (known _ (by omega) next).1]
          exact equal i found _ behind next
        · rw [if_neg (fun h => behind h.2.1)]
          exact entry.1
      · rw [fill, lows, highs, if_neg (fun h => here h.2)] at before
        rw [lows, times, read _ _ (stored.allocated lt before), if_neg (fun h => here h.1)]
        exact inStep s lt k before

/-! ## Runs -/

theorem step_stored {call : GPUCall} (stored : p.Stored) (allowed : p.Allowed call)
    (next : p.step call = some p') : p'.Stored := by
  have inside := step_inside next stored.inside
  cases call with
  | addEventToStack stack event =>
      rcases addTo_appended stored allowed next with rfl | appended
      · exact stored
      · exact appended.stored stored inside allowed
  | addEventToNegationStack neg event =>
      rcases addTo_appended stored allowed next with rfl | appended
      · exact stored
      · exact appended.stored stored inside allowed
  | addEventToAggregateStack agg event =>
      rcases addTo_appended stored allowed next with rfl | appended
      · exact stored
      · exact appended.stored stored inside allowed
  | deleteExpiredEvents event =>
      cases next
      exact (deleteExpiredEvents_deleted event stored.inside).stored stored
  | remove ev stack =>
      cases next
      rcases p.remove_cases ev stack with ⟨-, same⟩ | ⟨i, found, -⟩
      · rw [same]
        exact stored
      · exact (remove_stored stored found).2.1

theorem addTo_inStep {type : StateType} {stack : Nat} {event : PubPkt} (stored : p.Stored)
    (own : stack < (needs p.rulePkt).stacks type) (inStep : p.InStep)
    (added : p.addTo type stack event = some p') : p'.InStep := by
  rcases addTo_appended stored own added with rfl | appended
  · exact inStep
  · exact appended.inStep stored inStep

theorem inStep_step_iff {call : GPUCall} (stored : p.Stored) (inStep : p.InStep)
    (allowed : p.Allowed call) (next : p.step call = some p') :
    p'.InStep ↔ p.RemovesAmongEqual call := by
  cases call with
  | addEventToStack stack event =>
      exact iff_of_true (addTo_inStep stored allowed inStep next) trivial
  | addEventToNegationStack neg event =>
      exact iff_of_true (addTo_inStep stored allowed inStep next) trivial
  | addEventToAggregateStack agg event =>
      exact iff_of_true (addTo_inStep stored allowed inStep next) trivial
  | deleteExpiredEvents event =>
      cases next
      have deleted := deleteExpiredEvents_deleted event stored.inside
      exact iff_of_true (deleted.inStep stored inStep) trivial
  | remove ev stack =>
      cases next
      exact remove_inStep_iff stored inStep

/-- The timestamps of a processor stay in step with the event store throughout a run if and only if
whenever an event is removed, all events from there to the newest one have one timestamp. -/
theorem inStep_iff {dChunksnum : Nat} {host device : Nat → EventInfo} {before : List MemoryCall}
    {m : Memory}
    (ran : Histories.run Memory.step Memory.Allowed (.new dChunksnum host device) before = some m)
    {rulePkt : RulePkt} {columns : StateType → Nat → Nat → Nat}
    (made : init rulePkt m.mm columns = some p) (calls : List GPUCall) :
    Histories.Always step Allowed InStep p calls ↔
      Histories.AtEachCall step Allowed RemovesAmongEqual p calls := by
  have keepsStored : ∀ p call p', Stored p → Allowed p call → step p call = some p' → Stored p' :=
    fun _ _ _ stored allowed next => step_stored stored allowed next
  have keeps : ∀ p call p', Stored p → InStep p → Allowed p call → step p call = some p' →
      (InStep p' ↔ RemovesAmongEqual p call) :=
    fun _ _ _ stored inStep allowed next => inStep_step_iff stored inStep allowed next
  exact Histories.always_iff keepsStored keeps (init_stored made (Memory.run_numbered ran))
    (init_inStep made) calls

/-- Two events, of which the first is consumed. -/
def consumesOldest : List GPUCall :=
  [.addEventToStack 0 (eventAt 5), .addEventToStack 0 (eventAt 8), .remove ⟨[], 5⟩ 0]

theorem inStep_iff_fresh : ∃ p, freshProcessor = some p ∧
    (Histories.Always step Allowed InStep p consumesOldest ↔
      Histories.AtEachCall step Allowed RemovesAmongEqual p consumesOldest) := by
  have ready : freshProcessor.isSome = true := by decide +kernel
  obtain ⟨p, made⟩ := Option.isSome_iff_exists.mp ready
  have ran : Histories.run Memory.step Memory.Allowed
      (.new 10 (fun _ => ⟨[], 0⟩) (fun _ => ⟨[], 0⟩)) [] =
        some (.new 10 (fun _ => ⟨[], 0⟩) (fun _ => ⟨[], 0⟩)) := rfl
  exact ⟨p, made, inStep_iff ran made consumesOldest⟩

/-- The second event moves to the place of the first one, whose timestamp stays there. -/
theorem consumesOldest_not_inStep : ∃ p, freshProcessor = some p ∧
    ¬ Histories.Always step Allowed InStep p consumesOldest := by
  have after : (freshProcessor.bind fun p => Histories.run step Allowed p consumesOldest).map
      (fun p => (p.timestamps .state 0 0, (p.eventStored 0 0).timestamp, p.lowIndexes .state 0,
        p.highIndexes .state 0, p.sequenceLen)) = some (5, 8, 0, 1, 2) := by decide +kernel
  obtain ⟨p', ran, column⟩ := Option.map_eq_some_iff.mp after
  obtain ⟨p, made, ran⟩ := Option.bind_eq_some_iff.mp ran
  simp only [Prod.mk.injEq] at column
  obtain ⟨time, stored, low, high, length⟩ := column
  refine ⟨p, made, fun always => ?_⟩
  have one : p'.fill .state 0 = 1 := by
    rw [fill, low, high]
    decide
  have same := always.of_run ran 0 (by rw [length]; decide) 0 (by rw [one]; decide)
  rw [low, Ring.pos_zero (by decide), time, stored] at same
  exact absurd same (by decide)

end GPUProcessor

end TRex
