import TRex.BuilderChecks
import TRex.CircularSearch
import TRex.TimestampColumns

/-!
# Expiry on the device

`deleteExpiredEvents` trims one stack after the other. A window that ends at a state is taken to end
at the oldest event of that state's stack, one that ends at the terminator at the event that has
arrived. `Used` says which events a partial result can use, now or later; `correct_of_sound` says in
which runs no such event is dropped.

The cutoff for the terminator wraps where the window is longer than the timestamp. A stack that is
empty still has a first slot, with whatever it last held, and its timestamp serves as the oldest one
of the state. And of a negation's or an aggregate's stack that is empty the search looks at the slot
behind, from which it may take an element that was never there.
-/

namespace TRex

/-! ## The three loops as one -/

namespace RulePkt

/-- The state that a stack's window ends at, and its length. -/
def windowOf (rulePkt : RulePkt) : StateType × Nat → Option (Int × Nat)
  | (.state, stack) =>
    (rulePkt.predicates[rulePkt.predicates.length - stack - 1]?).map fun predicate =>
      (predicate.refersTo, predicate.win)
  | (.neg, negIndex) =>
    (rulePkt.negations[negIndex]?).map fun neg =>
      (neg.upperId, if neg.lowerId < 0 then neg.lowerTime
        else ((rulePkt.predicates[neg.lowerId.toNat]?).map Predicate.win).getD 0)
  | (.agg, aggIndex) =>
    (rulePkt.aggregates[aggIndex]?).map fun agg => (agg.upperId, agg.lowerTime)

/-- Aggregates between states are not considered. -/
def Considered (rulePkt : RulePkt) (t : StateType × Nat) : Prop :=
  ∀ agg, t.1 = .agg → rulePkt.aggregates[t.2]? = some agg → agg.lowerId < 0

/-- Negations between states are between one and the state that it refers to. -/
def JoinsDirectly (rulePkt : RulePkt) : Prop :=
  ∀ neg ∈ rulePkt.negations, 0 ≤ neg.lowerId → ∀ predicate,
    rulePkt.predicates[neg.lowerId.toNat]? = some predicate → predicate.refersTo = neg.upperId

end RulePkt

/-- The timestamp that a call brings along. -/
def GPUCall.time : GPUCall → Option Nat
  | .addEventToStack _ event => some event.timeStamp
  | .addEventToNegationStack _ event => some event.timeStamp
  | .addEventToAggregateStack _ event => some event.timeStamp
  | .deleteExpiredEvents event => some event.timeStamp
  | .remove _ _ => none

namespace GPUProcessor

variable (p : GPUProcessor) (event : PubPkt)

def trim : StateType × Nat → GPUProcessor
  | (.state, stack) => p.deleteFromState event stack
  | (.neg, negIndex) => p.deleteFromNegation event negIndex
  | (.agg, aggIndex) => p.deleteFromAggregate event aggIndex

/-- The stacks in the order in which they are trimmed. -/
def targets : List (StateType × Nat) :=
  (List.range (p.sequenceLen - 1)).reverse.map (StateType.state, ·) ++
    ((List.range p.rulePkt.negations.length).map (StateType.neg, ·) ++
      (List.range p.rulePkt.aggregates.length).map (StateType.agg, ·))

variable {p event}

theorem trim_eq (t : StateType × Nat) :
    p.trim event t = match p.rulePkt.windowOf t with
      | none => p
      | some (index, win) =>
        if t.1 = .state ∧ p.highIndexes .state t.2 = p.lowIndexes .state t.2 then p
        else p.deleteFrom t.1 t.2 (p.minTimeStamp event (p.stackOf index) win) := by
  obtain ⟨type, stack⟩ := t
  cases type with
  | state =>
    simp only [trim, deleteFromState, RulePkt.windowOf, sequenceLen]
    cases p.rulePkt.predicates[p.rulePkt.predicates.length - stack - 1]? with
    | none => rfl
    | some predicate => simp
  | neg =>
    simp only [trim, deleteFromNegation, RulePkt.windowOf]
    cases p.rulePkt.negations[stack]? with
    | none => rfl
    | some neg => simp
  | agg =>
    simp only [trim, deleteFromAggregate, RulePkt.windowOf]
    cases p.rulePkt.aggregates[stack]? with
    | none => rfl
    | some agg => simp

variable (event) in
theorem trim_deleted (t : StateType × Nat) (inside : p.Inside) : Deleted p (p.trim event t) := by
  obtain ⟨type, stack⟩ := t
  cases type with
  | state => exact deleteFromState_deleted event stack inside
  | neg => exact deleteFromNegation_deleted event stack inside
  | agg => exact deleteFromAggregate_deleted event stack inside

theorem foldl_map_trim (type : StateType) (indexes : List Nat) :
    (indexes.map (type, ·)).foldl (fun q t => q.trim event t) p =
      indexes.foldl (fun q i => q.trim event (type, i)) p :=
  List.foldl_map

theorem deleteExpiredEvents_eq (inside : p.Inside) :
    p.deleteExpiredEvents event = p.targets.foldl (fun q t => q.trim event t) p := by
  have states := Deleted.foldl (fun p i => p.deleteFromState_deleted event i)
    (List.range (p.sequenceLen - 1)).reverse inside
  have negs := Deleted.foldl (fun p i => p.deleteFromNegation_deleted event i)
    (List.range p.rulePkt.negations.length) (states.inside inside)
  rw [targets, List.foldl_append, List.foldl_append, foldl_map_trim, foldl_map_trim, foldl_map_trim,
    deleteExpiredEvents]
  simp only [trim, (states.trans negs inside).rulePkt, states.rulePkt]

/-! ## What is required -/

variable (p event)

/-- The time of an element of a stack: for a state, of the event stored there. -/
def timeOf (type : StateType) (stack k : Nat) : Nat :=
  let place := Ring.pos allocSize (p.lowIndexes type stack) k
  match type with
  | .state => (p.eventStored stack place).timestamp
  | _ => p.timestamps type stack place

/-- A partial result of a terminator from `now` on may have an event of this time for the state: one
of the stack's or one that is still to come, inside the window before the event it refers to. -/
inductive Reached (now : Nat) : Int → Nat → Prop
  | terminator {time : Nat} : now ≤ time → Reached now 0 time
  | state {i time ref : Nat} {predicate : Predicate} :
    p.rulePkt.predicates[i]? = some predicate →
    (now ≤ time ∨ ∃ k < p.fill .state (p.sequenceLen - 1 - i),
      p.timeOf .state (p.sequenceLen - 1 - i) k = time) →
    Reached now predicate.refersTo ref → ref - predicate.win < time → time < ref →
    Reached now i time

/-- A partial result of a terminator from `now` on can use an event of this time: the CPU's windows
are open intervals, and begin at 0 if they are longer than the timestamp. Aggregates between states
are left out. -/
def Used (now : Nat) (t : StateType × Nat) (time : Nat) : Prop :=
  match t with
  | (.state, stack) => ∃ predicate ref,
      p.rulePkt.predicates[p.sequenceLen - stack - 1]? = some predicate ∧
      p.Reached now predicate.refersTo ref ∧ ref - predicate.win < time ∧ time < ref
  | (.neg, negIndex) => ∃ neg ref, p.rulePkt.negations[negIndex]? = some neg ∧
      p.Reached now neg.upperId ref ∧ time < ref ∧
      if neg.lowerId < 0 then ref - neg.lowerTime < time
      else ∃ lower predicate, p.rulePkt.predicates[neg.lowerId.toNat]? = some predicate ∧
        (predicate.refersTo = neg.upperId → ref - predicate.win < lower) ∧ lower < time
  | (.agg, aggIndex) => ∃ agg ref, p.rulePkt.aggregates[aggIndex]? = some agg ∧ agg.lowerId < 0 ∧
      p.Reached now agg.upperId ref ∧ ref - agg.lowerTime < time ∧ time < ref

/-- An element of a stack that is none any more. -/
def Dropped (p' : GPUProcessor) (t : StateType × Nat) (k : Nat) : Prop :=
  k < p.fill t.1 t.2 ∧ ∀ k' < p'.fill t.1 t.2,
    Ring.pos allocSize (p'.lowIndexes t.1 t.2) k' ≠ Ring.pos allocSize (p.lowIndexes t.1 t.2) k

/-- Expiry drops no event that a partial result can use. -/
def Correct : GPUCall → Prop
  | .deleteExpiredEvents event => ∀ t k, p.Dropped (p.deleteExpiredEvents event) t k →
    ¬ p.Used event.timeStamp t (p.timeOf t.1 t.2 k)
  | _ => True

/-! ## What a run must meet -/

/-- The slot behind the high end of a column, which the search looks at first. -/
def lastSlot (type : StateType) (stack : Nat) : Nat :=
  p.timestamps type stack
    (if p.highIndexes type stack = 0 then allocSize - 1 else p.highIndexes type stack - 1)

/-- The cutoff of a window is not after what a partial result has for it: the window is not longer
than the timestamp, or the state has an event, or the slot that is read holds no later time. -/
def CutoffSound (index : Int) (win : Nat) : Prop :=
  if index = 0 then win ≤ event.timeStamp
  else
    let stack := (p.stackOf index).toNat
    0 < p.fill .state stack ∨
      p.timestamps .state stack (p.lowIndexes .state stack) ≤ event.timeStamp

/-- The condition on trimming one stack. -/
def TrimSound (t : StateType × Nat) : Prop :=
  if p.fill t.1 t.2 = 0 then t.1 = .state ∨ p.lastSlot t.1 t.2 ≤ event.timeStamp
  else p.rulePkt.Considered t → ∀ index win, p.rulePkt.windowOf t = some (index, win) →
    p.CutoffSound event index win

/-- The condition on a call. -/
def Sound : GPUCall → Prop
  | .remove ev stack => p.RemovesAmongEqual (.remove ev stack)
  | .deleteExpiredEvents event =>
    Histories.AtEachCall (fun q t => some (q.trim event t)) (fun _ _ => True)
      (fun q t => q.TrimSound event t) p p.targets
  | _ => True

variable {p event} {p' : GPUProcessor}

/-! ## Trimming one stack -/

variable (event) in
/-- Nothing happens, or elements up to the cutoff are dropped at the low end, or an empty stack that
is not a state's takes in its last slot. -/
theorem trim_cases (t : StateType × Nat) (inside : p.Inside) (sorted : p.ColumnsSorted) :
    (∀ s, s ≠ t → (p.trim event t).lowIndexes s.1 s.2 = p.lowIndexes s.1 s.2) ∧
    ((p.trim event t).lowIndexes t.1 t.2 = p.lowIndexes t.1 t.2 ∨
      (∃ index win d, p.rulePkt.windowOf t = some (index, win) ∧ p.fill t.1 t.2 ≠ 0 ∧
        d ≤ p.fill t.1 t.2 ∧
        (p.trim event t).lowIndexes t.1 t.2 = Ring.pos allocSize (p.lowIndexes t.1 t.2) d ∧
        ∀ k < d, p.timestamps t.1 t.2 (Ring.pos allocSize (p.lowIndexes t.1 t.2) k) ≤
          p.minTimeStamp event (p.stackOf index) win) ∨
      (t.1 ≠ .state ∧ p.fill t.1 t.2 = 0 ∧ (p.trim event t).lowIndexes t.1 t.2 =
        if p.highIndexes t.1 t.2 = 0 then allocSize - 1 else p.highIndexes t.1 t.2 - 1)) := by
  obtain ⟨lowIn, highIn⟩ := inside t.1 t.2
  rw [trim_eq]
  cases window : p.rulePkt.windowOf t with
  | none => exact ⟨fun _ _ => rfl, .inl rfl⟩
  | some pair =>
    obtain ⟨index, win⟩ := pair
    dsimp only
    by_cases skipped : t.1 = .state ∧ p.highIndexes .state t.2 = p.lowIndexes .state t.2
    · rw [if_pos skipped]
      exact ⟨fun _ _ => rfl, .inl rfl⟩
    · rw [if_neg skipped]
      have lows : ∀ s : StateType × Nat,
          (p.deleteFrom t.1 t.2 (p.minTimeStamp event (p.stackOf index) win)).lowIndexes s.1 s.2 =
            if s.1 = t.1 ∧ s.2 = t.2 then
              (deleteInvalidElementsCircular (p.timestamps t.1 t.2) (p.lowIndexes t.1 t.2)
                (p.highIndexes t.1 t.2) (p.minTimeStamp event (p.stackOf index) win)).1
            else p.lowIndexes s.1 s.2 :=
        fun s => update_update_apply p.lowIndexes t.1 s.1 t.2 s.2 _
      refine ⟨fun s ne => ?_, ?_⟩
      · rw [lows, if_neg fun same => ne (Prod.ext same.1 same.2)]
      · rw [lows, if_pos ⟨rfl, rfl⟩]
        by_cases empty : p.fill t.1 t.2 = 0
        · have same : p.highIndexes t.1 t.2 = p.lowIndexes t.1 t.2 :=
            (Ring.size_eq_zero lowIn).mp empty
          rcases deleteInvalidElementsCircular_low lowIn highIn with ⟨d, few, low⟩ | ⟨-, back⟩
          · have none' : d = 0 := Nat.le_zero.mp (empty ▸ few)
            rw [none', Ring.pos_zero lowIn] at low
            exact .inl low
          · refine .inr (.inr ⟨fun state => skipped ⟨state, ?_⟩, empty, back⟩)
            rw [← state]
            exact same
        · obtain ⟨d, few, deleted, old, -⟩ :=
            deleteInvalidElementsCircular_cuts lowIn highIn empty (sorted t.1 t.2)
          exact .inr (.inl ⟨index, win, d, rfl, empty, few, congrArg Prod.fst deleted, old⟩)

/-! ## Times -/

/-- What a call finds: the columns are in step with the store and in order, and nothing in them is
after the time of the last call. -/
structure Timed (now : Nat) (p : GPUProcessor) : Prop where
  stored : p.Stored
  inStep : p.InStep
  sorted : p.ColumnsSorted
  past : ∀ type stack, ∀ k < p.fill type stack,
    p.timestamps type stack (Ring.pos allocSize (p.lowIndexes type stack) k) ≤ now

theorem Timed.mono {now now' : Nat} (timed : p.Timed now) (le : now ≤ now') : p.Timed now' :=
  ⟨timed.stored, timed.inStep, timed.sorted, fun type stack k before =>
    Nat.le_trans (timed.past type stack k before) le⟩

theorem Timed.timeOf_eq {now : Nat} (timed : p.Timed now) {type : StateType} {stack k : Nat}
    (own : type = .state → stack < p.sequenceLen - 1) (before : k < p.fill type stack) :
    p.timeOf type stack k =
      p.timestamps type stack (Ring.pos allocSize (p.lowIndexes type stack) k) := by
  cases type with
  | state => exact (timed.inStep stack (own rfl) k before).symm
  | neg => rfl
  | agg => rfl

/-- A column that trimming leaves holds nothing after the terminator. -/
theorem Timed.trim {t : StateType × Nat} (timed : p.Timed event.timeStamp)
    (sound : p.TrimSound event t) : (p.trim event t).Timed event.timeStamp := by
  have inside := timed.stored.inside
  have deleted := trim_deleted event t inside
  refine ⟨deleted.stored timed.stored, deleted.inStep timed.stored timed.inStep,
    deleted.sorted inside timed.sorted, fun type stack k before => ?_⟩
  obtain ⟨lowIn, highIn⟩ := inside type stack
  obtain ⟨others, here⟩ := trim_cases event t inside timed.sorted
  rw [fill, deleted.highIndexes] at before
  rw [deleted.timestamps]
  by_cases same : (type, stack) = t
  · subst same
    rcases here with kept | ⟨_, _, d, _, _, few, low, _⟩ | ⟨other, empty, back⟩
    · rw [kept] at before ⊢
      exact timed.past type stack k before
    · dsimp only at low few
      rw [low, Ring.size_pos lowIn highIn few] at before
      rw [low, Ring.pos_pos]
      exact timed.past type stack (d + k) (by rw [fill]; omega)
    · rw [TrimSound, if_pos empty] at sound
      dsimp only at back
      have slot : (if p.highIndexes type stack = 0 then allocSize - 1
          else p.highIndexes type stack - 1) < allocSize := by
        split <;> omega
      have first : k = 0 := by
        rw [back, Ring.size] at before
        split_ifs at before <;> omega
      rw [first, Ring.pos_zero (back ▸ slot), back]
      exact sound.resolve_left other
  · have low := others (type, stack) same
    dsimp only at low
    rw [low] at before ⊢
    exact timed.past type stack k before

/-! ## One call -/

/-- In the loops: what has been dropped is of no use, and the stacks to come are as before. -/
structure Trimming (event : PubPkt) (p q : GPUProcessor) (rest : List (StateType × Nat)) :
    Prop where
  deleted : Deleted p q
  timed : q.Timed event.timeStamp
  useless : ∀ t k, p.Dropped q t k → ¬ p.Used event.timeStamp t (p.timeOf t.1 t.2 k)
  untouched : ∀ t ∈ rest, q.lowIndexes t.1 t.2 = p.lowIndexes t.1 t.2
  nodup : rest.Nodup
  own : ∀ t ∈ rest, t.1 = .state → t.2 < p.sequenceLen - 1

variable {q : GPUProcessor} {rest : List (StateType × Nat)}

theorem Reached.nonneg {now time : Nat} {index : Int} (reached : p.Reached now index time) :
    0 ≤ index := by
  cases reached with
  | terminator => exact Int.le_refl 0
  | state => exact Int.natCast_nonneg _

theorem Reached.root {now time : Nat} (rule : p.rulePkt.WellFormed)
    (reached : p.Reached now 0 time) : now ≤ time := by
  generalize zero : (0 : Int) = index at reached
  cases reached with
  | terminator later => exact later
  | @state i _ _ predicate found _ reached' _ _ =>
    have first : i = 0 := by omega
    subst first
    have negative := reached'.nonneg
    rw [rule.root predicate found] at negative
    omega

theorem Timed.low_le {now : Nat} (timed : p.Timed now) {type : StateType} {stack : Nat}
    (some' : 0 < p.fill type stack) : p.timestamps type stack (p.lowIndexes type stack) ≤ now := by
  have first := timed.past type stack 0 some'
  rwa [Ring.pos_zero (timed.stored.inside type stack).1] at first

/-- An event that can be used is still in its column. -/
theorem Trimming.kept_of_used (trimming : Trimming event p q rest) {t : StateType × Nat} {k : Nat}
    (inside : k < p.fill t.1 t.2) (used : p.Used event.timeStamp t (p.timeOf t.1 t.2 k)) :
    ∃ k' < q.fill t.1 t.2, Ring.pos allocSize (q.lowIndexes t.1 t.2) k' =
      Ring.pos allocSize (p.lowIndexes t.1 t.2) k := by
  by_contra absent
  exact trimming.useless t k
    ⟨inside, fun k' inside' place => absent ⟨k', inside', place⟩⟩ used

/-- No event that a partial result has for a state is before the one that the code takes for the
oldest. -/
theorem Trimming.oldest_le (trimming : Trimming event p q rest) (inStep : p.InStep) {i ref : Nat}
    (positive : i ≠ 0)
    (sound : 0 < q.fill .state (p.sequenceLen - 1 - i) ∨
      q.timestamps .state (p.sequenceLen - 1 - i) (q.lowIndexes .state (p.sequenceLen - 1 - i)) ≤
        event.timeStamp)
    (reached : p.Reached event.timeStamp i ref) :
    q.timestamps .state (p.sequenceLen - 1 - i)
      (q.lowIndexes .state (p.sequenceLen - 1 - i)) ≤ ref := by
  have upToNow : q.timestamps .state (p.sequenceLen - 1 - i)
      (q.lowIndexes .state (p.sequenceLen - 1 - i)) ≤ event.timeStamp := by
    rcases sound with some' | slot
    · exact trimming.timed.low_le some'
    · exact slot
  generalize same : (i : Int) = index at reached
  cases reached with
  | terminator => omega
  | @state j _ _ predicate found origin reached' after before =>
    have equal : i = j := by omega
    subst equal
    rcases origin with later | ⟨k, inside, time⟩
    · exact Nat.le_trans upToNow later
    · have inRule : i < p.sequenceLen := (List.getElem?_eq_some_iff.mp found).1
      have used : p.Used event.timeStamp (.state, p.sequenceLen - 1 - i) ref := by
        refine ⟨predicate, _, ?_, reached', after, before⟩
        rwa [show p.sequenceLen - (p.sequenceLen - 1 - i) - 1 = i by omega]
      obtain ⟨k', inside', place⟩ := trimming.kept_of_used inside (time ▸ used)
      dsimp only at inside' place
      have order :=
        trimming.timed.sorted .state (p.sequenceLen - 1 - i) 0 k' (Nat.zero_le _) inside'
      rw [Ring.pos_zero (trimming.timed.stored.inside .state _).1, place,
        trimming.deleted.timestamps] at order
      rw [trimming.deleted.timestamps]
      refine Nat.le_trans order (Nat.le_of_eq ?_)
      rw [← time, inStep _ (by omega) k inside]
      rfl

/-- The cutoff is not after the beginning of any window that ends at an event in use. -/
theorem Trimming.cutoff_le (trimming : Trimming event p q rest) (rule : p.rulePkt.WellFormed)
    (inStep : p.InStep) {index : Int} {win ref : Nat} (sound : q.CutoffSound event index win)
    (reached : p.Reached event.timeStamp index ref) :
    q.minTimeStamp event (q.stackOf index) win ≤ ref - win := by
  have length : q.sequenceLen = p.sequenceLen := by
    rw [sequenceLen, trimming.deleted.rulePkt, sequenceLen]
  unfold CutoffSound at sound
  unfold minTimeStamp
  by_cases first : index = 0
  · subst first
    rw [if_pos rfl] at sound
    have later := reached.root rule
    rw [if_pos (by rw [stackOf]; omega), uint64Sub, if_pos sound]
    omega
  · rw [if_neg first] at sound
    obtain ⟨i, rfl⟩ := Int.eq_ofNat_of_zero_le reached.nonneg
    have stack : (q.stackOf i).toNat = p.sequenceLen - 1 - i := by
      rw [stackOf, length]
      omega
    dsimp only at sound
    rw [stack] at sound
    have oldest := trimming.oldest_le inStep (by omega) sound reached
    rw [if_neg (by rw [stackOf]; omega), stack]
    dsimp only
    split
    case isTrue => omega
    case isFalse => exact Nat.zero_le _

/-- What can be used lies in a window that ends at an event in use. -/
theorem Used.reached {now time : Nat} {t : StateType × Nat} (direct : p.rulePkt.JoinsDirectly)
    (used : p.Used now t time) :
    p.rulePkt.Considered t ∧ ∃ index win ref, p.rulePkt.windowOf t = some (index, win) ∧
      p.Reached now index ref ∧ ref - win < time := by
  obtain ⟨type, i⟩ := t
  cases type with
  | state =>
    obtain ⟨predicate, ref, found, reached, after, _⟩ := used
    refine ⟨fun _ other => StateType.noConfusion other, _, _, ref, ?_, reached, after⟩
    rw [sequenceLen] at found
    rw [RulePkt.windowOf, found]
    rfl
  | neg =>
    obtain ⟨neg, ref, found, reached, _, window⟩ := used
    refine ⟨fun _ other => StateType.noConfusion other, neg.upperId,
      if neg.lowerId < 0 then neg.lowerTime
      else ((p.rulePkt.predicates[neg.lowerId.toNat]?).map Predicate.win).getD 0,
      ref, ?_, reached, ?_⟩
    · rw [RulePkt.windowOf, found]
      rfl
    · by_cases timed : neg.lowerId < 0
      · rw [if_pos timed] at window ⊢
        exact window
      · rw [if_neg timed] at window ⊢
        obtain ⟨lower, predicate, foundLower, bounds, after⟩ := window
        have linked := direct neg (List.mem_of_getElem? found) (by omega) predicate foundLower
        rw [foundLower]
        exact Nat.lt_trans (bounds linked) after
  | agg =>
    obtain ⟨agg, ref, found, timeBased, reached, after, _⟩ := used
    refine ⟨fun agg' _ found' => ?_, _, _, ref, ?_, reached, after⟩
    · rw [found] at found'
      cases found'
      exact timeBased
    · rw [RulePkt.windowOf, found]
      rfl

/-- Trimming one more stack drops nothing that can be used. -/
theorem Trimming.trim {t : StateType × Nat} (trimming : Trimming event p q (t :: rest))
    (rule : p.rulePkt.WellFormed) (direct : p.rulePkt.JoinsDirectly)
    (timed : p.Timed event.timeStamp) (sound : q.TrimSound event t) :
    Trimming event p (q.trim event t) rest := by
  have inside := trimming.timed.stored.inside
  have deleted := trim_deleted event t inside
  obtain ⟨others, here⟩ := trim_cases event t inside trimming.timed.sorted
  have untouched := trimming.untouched t List.mem_cons_self
  have fillSame : q.fill t.1 t.2 = p.fill t.1 t.2 := by
    rw [fill, untouched, trimming.deleted.highIndexes, fill]
  refine ⟨trimming.deleted.trans deleted timed.stored.inside, trimming.timed.trim sound, ?_, ?_,
    (List.nodup_cons.mp trimming.nodup).2, fun s mem => trimming.own s (List.mem_cons_of_mem t mem)⟩
  · intro s k dropped
    by_cases other : s ≠ t
    · refine trimming.useless s k ⟨dropped.1, fun k' before => ?_⟩
      have low := others s other
      have elsewhere := dropped.2 k'
      rw [fill, low, deleted.highIndexes] at elsewhere
      exact elsewhere before
    · have same := not_ne_iff.mp other
      subst same
      obtain ⟨before, gone⟩ := dropped
      rw [fill, deleted.highIndexes] at gone
      rcases here with kept | ⟨index, win, d, window, some', few, low, old⟩ | ⟨_, empty, _⟩
      · rw [kept, untouched] at gone
        rw [fill, ← trimming.deleted.highIndexes] at before
        exact absurd rfl (gone k before)
      · intro used
        obtain ⟨considered, index', win', ref, window', reached, after⟩ := used.reached direct
        rw [trimming.deleted.rulePkt, window'] at window
        cases window
        have dropped : k < d := by
          by_contra stays
          refine gone (k - d) ?_ ?_
          · rw [low, Ring.size_pos (inside s.1 s.2).1 (inside s.1 s.2).2 few]
            have : Ring.size allocSize (q.lowIndexes s.1 s.2) (q.highIndexes s.1 s.2) =
              p.fill s.1 s.2 := fillSame
            omega
          · rw [low, Ring.pos_pos, untouched, Nat.add_sub_cancel' (Nat.le_of_not_lt stays)]
        rw [TrimSound, if_neg some', trimming.deleted.rulePkt] at sound
        have cutoff := trimming.cutoff_le rule timed.inStep (sound considered _ _ window') reached
        have time := old k dropped
        rw [untouched, trimming.deleted.timestamps,
          ← timed.timeOf_eq (trimming.own s List.mem_cons_self) before] at time
        omega
      · rw [fillSame] at empty
        omega
  · intro s mem
    have ne : s ≠ t := by
      intro same
      exact (List.nodup_cons.mp trimming.nodup).1 (same ▸ mem)
    rw [others s ne]
    exact trimming.untouched s (List.mem_cons_of_mem t mem)

theorem mem_targets {t : StateType × Nat} (mem : t ∈ p.targets) (state : t.1 = .state) :
    t.2 < p.sequenceLen - 1 := by
  rcases List.mem_append.mp mem with states | others
  · obtain ⟨stack, inside, rfl⟩ := List.mem_map.mp states
    exact List.mem_range.mp (List.mem_reverse.mp inside)
  · rcases List.mem_append.mp others with negs | aggs
    · obtain ⟨_, _, rfl⟩ := List.mem_map.mp negs
      cases state
    · obtain ⟨_, _, rfl⟩ := List.mem_map.mp aggs
      cases state

theorem nodup_map_mk (type : StateType) {indexes : List Nat} (nodup : indexes.Nodup) :
    (indexes.map (type, ·)).Nodup :=
  nodup.map (Prod.mk_right_injective type)

theorem disjoint_map_mk {type type' : StateType} (ne : type ≠ type') (l l' : List Nat) :
    List.Disjoint (l.map (type, ·)) (l'.map (type', ·)) := by
  intro t mem mem'
  obtain ⟨_, _, rfl⟩ := List.mem_map.mp mem
  obtain ⟨_, _, same⟩ := List.mem_map.mp mem'
  exact ne (Prod.mk.inj same).1.symm

theorem targets_nodup : p.targets.Nodup := by
  refine List.Nodup.append (nodup_map_mk _ (List.nodup_reverse.mpr List.nodup_range))
    ((nodup_map_mk _ List.nodup_range).append (nodup_map_mk _ List.nodup_range)
      (disjoint_map_mk (by decide) _ _)) ?_
  exact List.disjoint_append_right.mpr
    ⟨disjoint_map_mk (by decide) _ _, disjoint_map_mk (by decide) _ _⟩

/-- A call whose cutoffs are right drops nothing that can be used. -/
theorem deleteExpiredEvents_correct (rule : p.rulePkt.WellFormed)
    (direct : p.rulePkt.JoinsDirectly) (timed : p.Timed event.timeStamp)
    (sound : p.Sound (.deleteExpiredEvents event)) :
    p.Correct (.deleteExpiredEvents event) ∧
      (p.deleteExpiredEvents event).Timed event.timeStamp := by
  have inside := timed.stored.inside
  have begins : Trimming event p p p.targets :=
    ⟨.refl inside, timed, fun t k dropped => absurd rfl (dropped.2 k dropped.1),
      fun _ _ => rfl, targets_nodup, fun _ mem => mem_targets mem⟩
  have ends := Histories.AtEachCall.foldl (Trimming event p)
    (fun q t rest trimming right => trimming.trim rule direct timed right) begins sound
  rw [← deleteExpiredEvents_eq inside] at ends
  exact ⟨ends.useless, ends.timed⟩

/-! ## Runs -/

theorem Timed.inOrder {now : Nat} (timed : p.Timed now) (type : StateType) (stack : Nat)
    (later : now ≤ event.timeStamp) : p.InOrder type stack event := by
  rcases Nat.eq_zero_or_pos (p.fill type stack) with empty | some'
  · exact .inl empty
  · exact .inr (.inr (Nat.le_trans (timed.past type stack _ (Nat.sub_lt some' Nat.one_pos)) later))

theorem Timed.addTo {now : Nat} (timed : p.Timed now) {type : StateType} {stack : Nat}
    (own : stack < (needs p.rulePkt).stacks type) (added : p.addTo type stack event = some p')
    (stored' : p'.Stored) (later : now ≤ event.timeStamp) : p'.Timed event.timeStamp := by
  have inside := timed.stored.inside
  refine ⟨stored', addTo_inStep timed.stored own timed.inStep added,
    (addTo_sorted_iff added inside timed.sorted).mpr (timed.inOrder type stack later), ?_⟩
  rcases addTo_cases added with ⟨-, rfl⟩ | ⟨room, -, -, -, -, -, lows, highs, times⟩
  · exact (timed.mono later).past
  · intro t s k before
    obtain ⟨lowIn, highIn⟩ := inside t s
    rw [fill, lows, highs] at before
    rw [times, lows]
    by_cases here : t = type ∧ s = stack
    · obtain ⟨rfl, rfl⟩ := here
      rw [if_pos ⟨rfl, rfl⟩, Ring.size_push lowIn highIn room] at before
      rw [if_pos ⟨rfl, rfl⟩]
      have bound := Ring.size_lt lowIn highIn
      by_cases newest : k = p.fill t s
      · rw [newest, fill, Ring.pos_size lowIn highIn, Function.update_self]
      · have old : k < p.fill t s := by
          unfold fill at newest ⊢
          omega
        have other : Ring.pos allocSize (p.lowIndexes t s) k ≠ p.highIndexes t s := by
          intro same
          rw [← Ring.pos_size lowIn highIn] at same
          exact newest (Ring.pos_injective lowIn (Nat.lt_trans old bound) bound same)
        rw [Function.update_of_ne other]
        exact Nat.le_trans (timed.past t s k old) later
    · rw [if_neg here] at before ⊢
      exact Nat.le_trans (timed.past t s k before) later

theorem Timed.remove {now : Nat} (timed : p.Timed now) {ev : EventInfo} {stack : Nat}
    (stored' : (p.remove ev stack).Stored) (sound : p.RemovesAmongEqual (.remove ev stack)) :
    (p.remove ev stack).Timed now := by
  refine ⟨stored', (remove_inStep_iff timed.stored timed.inStep).mpr sound,
    remove_sorted ev stack timed.sorted, ?_⟩
  rcases p.remove_cases ev stack with ⟨-, same⟩ | ⟨i, found, -, -, -, lows, times, highs⟩
  · rw [same]
    exact timed.past
  · intro t s k before
    obtain ⟨above, below⟩ := found_eq_some found
    have fewer : k < p.fill t s := by
      rw [fill, lows, highs] at before
      rw [fill]
      split at before
      case isTrue here =>
        obtain ⟨rfl, rfl⟩ := here
        rw [Ring.size] at before ⊢
        split_ifs at before ⊢ <;> omega
      case isFalse => exact before
    rw [times, lows]
    exact timed.past t s k fewer

theorem rulePkt_step {call : GPUCall} (next : p.step call = some p') (inside : p.Inside) :
    p'.rulePkt = p.rulePkt := by
  have added : ∀ {type stack event}, p.addTo type stack event = some p' →
      p'.rulePkt = p.rulePkt := by
    intro type stack event added
    rcases addTo_cases added with ⟨-, rfl⟩ | ⟨-, -, -, -, same, -⟩
    · rfl
    · exact same
  cases call with
  | addEventToStack stack event => exact added next
  | addEventToNegationStack neg event => exact added next
  | addEventToAggregateStack agg event => exact added next
  | deleteExpiredEvents event =>
    cases next
    exact (deleteExpiredEvents_deleted event inside).rulePkt
  | remove ev stack =>
    cases next
    rcases p.remove_cases ev stack with ⟨-, same⟩ | ⟨-, -, -, same, -⟩
    · rw [same]
    · exact same

/-- One call that meets the condition is correct, and leaves the columns as the next one needs them;
`latest` is the time of the call if it has one. -/
theorem step_correct {call : GPUCall} {now latest : Nat} (rule : p.rulePkt.WellFormed)
    (direct : p.rulePkt.JoinsDirectly) (timed : p.Timed now) (later : now ≤ latest)
    (time : ∀ t, call.time = some t → t = latest) (allowed : p.Allowed call)
    (sound : p.Sound call) (next : p.step call = some p') : p.Correct call ∧ p'.Timed latest := by
  have stored' := step_stored timed.stored allowed next
  have timed' := timed.mono later
  cases call with
  | addEventToStack stack event =>
    cases time _ rfl
    exact ⟨trivial, timed.addTo allowed next stored' later⟩
  | addEventToNegationStack neg event =>
    cases time _ rfl
    exact ⟨trivial, timed.addTo allowed next stored' later⟩
  | addEventToAggregateStack agg event =>
    cases time _ rfl
    exact ⟨trivial, timed.addTo allowed next stored' later⟩
  | deleteExpiredEvents event =>
    cases time _ rfl
    cases next
    exact deleteExpiredEvents_correct rule direct timed' sound
  | remove ev stack =>
    cases next
    exact ⟨trivial, timed'.remove stored' sound⟩

/-- What the calls to come rely on: no time is before the last one. -/
def Ready (p : GPUProcessor) (calls : List GPUCall) : Prop :=
  p.rulePkt.WellFormed ∧ p.rulePkt.JoinsDirectly ∧
    ∃ now, p.Timed now ∧ (now :: calls.filterMap GPUCall.time).Pairwise (· ≤ ·)

theorem Ready.step {call : GPUCall} {rest : List GPUCall} (ready : p.Ready (call :: rest))
    (sound : p.Sound call) (allowed : p.Allowed call) (next : p.step call = some p') :
    p.Correct call ∧ p'.Ready rest := by
  obtain ⟨rule, direct, now, timed, ordered⟩ := ready
  have same := rulePkt_step next timed.stored.inside
  cases time : call.time with
  | none =>
    rw [List.filterMap_cons_none time] at ordered
    obtain ⟨correct, timed'⟩ := step_correct rule direct timed (Nat.le_refl now)
      (fun t is => by rw [time] at is; cases is) allowed sound next
    exact ⟨correct, same ▸ rule, same ▸ direct, now, timed', ordered⟩
  | some latest =>
    rw [List.filterMap_cons_some time] at ordered
    obtain ⟨first, ordered'⟩ := List.pairwise_cons.mp ordered
    obtain ⟨correct, timed'⟩ := step_correct rule direct timed (first latest List.mem_cons_self)
      (fun t is => by rw [time] at is; cases is; rfl) allowed sound next
    exact ⟨correct, same ▸ rule, same ▸ direct, latest, timed', ordered'⟩

/-- In every run with non-decreasing timestamps whose calls meet the condition, no event that a
partial result can use is dropped. -/
theorem correct_of_sound {dChunksnum : Nat} {host device : Nat → EventInfo}
    {before : List MemoryCall} {m : Memory}
    (ran : Histories.run Memory.step Memory.Allowed (.new dChunksnum host device) before = some m)
    {rulePkt : RulePkt} {columns : StateType → Nat → Nat → Nat}
    (made : init rulePkt m.mm columns = some p) (rule : rulePkt.WellFormed)
    (direct : rulePkt.JoinsDirectly) (calls : List GPUCall)
    (ordered : (calls.filterMap GPUCall.time).Pairwise (· ≤ ·))
    (sound : Histories.AtEachCall step Allowed Sound p calls) :
    Histories.AtEachCall step Allowed Correct p calls := by
  obtain ⟨-, -, -, -, -, rulePktIs, -, ends⟩ := init_eq_some made
  have empty : ∀ type stack, p.fill type stack = 0 := by
    intro type stack
    rw [fill, (ends type stack).1, (ends type stack).2]
    decide
  have timed : p.Timed 0 := by
    refine ⟨init_stored made (Memory.run_numbered ran), init_inStep made, ?_, ?_⟩
    · intro type stack
      exact Ring.Sorted.of_size_le_one (Nat.le_trans (Nat.le_of_eq (empty type stack)) (by decide))
    · intro type stack k inside
      rw [empty] at inside
      exact absurd inside (Nat.not_lt_zero k)
  have ready : p.Ready calls :=
    ⟨rulePktIs ▸ rule, rulePktIs ▸ direct, 0, timed,
      List.pairwise_cons.mpr ⟨fun _ _ => Nat.zero_le _, ordered⟩⟩
  exact Histories.AtEachCall.imp Ready
    (fun _ _ _ _ ready sound allowed next => ready.step sound allowed next) ready sound

theorem twoStates_wellFormed : twoStates.WellFormed where
  root := by
    intro p found
    cases found
    rfl
  refersTo := by
    intro i p found positive
    rcases i with _ | _ | i
    · omega
    · cases found
      exact ⟨by decide, by decide⟩
    · cases found
  few := by
    intro type
    cases type <;> decide
  negations := by simp [twoStates]
  aggregates := by simp [twoStates]
  parameters := by simp [twoStates]
  complexParameters := by simp [twoStates]
  consuming := by simp [twoStates]

theorem twoStates_joinsDirectly : twoStates.JoinsDirectly := by
  simp [RulePkt.JoinsDirectly, twoStates]

/-- An event at time 5, whose window of 10 ends at the terminator. -/
def expires (time : Nat) : List GPUCall :=
  [.addEventToStack 0 (eventAt 5), .deleteExpiredEvents (PubPkt.new 1 [] time)]

/-- A terminator after the window's length. -/
theorem correct_of_sound_late : ∃ p, freshProcessor = some p ∧
    Histories.AtEachCall step Allowed Correct p (expires 17) := by
  have ready : freshProcessor.isSome = true := by decide +kernel
  obtain ⟨p, made⟩ := Option.isSome_iff_exists.mp ready
  have ran : Histories.run Memory.step Memory.Allowed
      (.new 10 (fun _ => ⟨[], 0⟩) (fun _ => ⟨[], 0⟩)) [] =
        some (.new 10 (fun _ => ⟨[], 0⟩) (fun _ => ⟨[], 0⟩)) := rfl
  refine ⟨p, made, correct_of_sound ran made twoStates_wellFormed twoStates_joinsDirectly
    (expires 17) (by decide) ?_⟩
  intro _ q added
  refine ⟨trivial, fun _ _ _ => ⟨?_, trivial⟩⟩
  obtain ⟨-, -, -, -, -, rule, -, -⟩ := init_eq_some made
  have same : q.rulePkt = twoStates := (rulePkt_step added (init_inside made)).trans rule
  have targets : q.targets = [(.state, 0)] := by
    rw [GPUProcessor.targets, sequenceLen, same]
    rfl
  rw [Sound, targets]
  refine fun _ _ _ => ⟨?_, trivial⟩
  change q.TrimSound (PubPkt.new 1 [] 17) (.state, 0)
  rw [TrimSound]
  split
  case isTrue => exact .inl rfl
  case isFalse =>
    intro _ index win window
    rw [same] at window
    cases window
    exact show 10 ≤ 17 by decide

/-- At time 7 the difference 7 - 10 wraps, and the event is dropped that the terminator could
use. -/
theorem early_not_correct : ∃ p, freshProcessor = some p ∧ twoStates.WellFormed ∧
    twoStates.JoinsDirectly ∧ ((expires 7).filterMap GPUCall.time).Pairwise (· ≤ ·) ∧
    ¬ Histories.AtEachCall step Allowed Correct p (expires 7) := by
  have after : (freshProcessor.bind fun p => p.step (.addEventToStack 0 (eventAt 5))).map
      (fun q => (q.fill .state 0, q.timeOf .state 0 0,
        (q.deleteExpiredEvents (PubPkt.new 1 [] 7)).fill .state 0)) = some (1, 5, 0) := by
    decide +kernel
  obtain ⟨q, added, columns⟩ := Option.map_eq_some_iff.mp after
  obtain ⟨p, made, added⟩ := Option.bind_eq_some_iff.mp added
  simp only [Prod.mk.injEq] at columns
  obtain ⟨one, time, none'⟩ := columns
  refine ⟨p, made, twoStates_wellFormed, twoStates_joinsDirectly, by decide, fun each => ?_⟩
  obtain ⟨-, -, -, -, -, rule, -, -⟩ := init_eq_some made
  have same : q.rulePkt = twoStates := (rulePkt_step added (init_inside made)).trans rule
  have allowed : p.Allowed (.addEventToStack 0 (eventAt 5)) := by
    rw [Allowed, sequenceLen, rule]
    decide
  obtain ⟨correct, -⟩ := (each allowed q added).2 trivial _ rfl
  refine correct (.state, 0) 0 ⟨by rw [one]; decide, fun k' before => ?_⟩ ?_
  · rw [none'] at before
    exact absurd before (Nat.not_lt_zero k')
  · rw [time]
    refine ⟨⟨2, [], 0, 10, .eachWithin⟩, 7, ?_, .terminator (Nat.le_refl 7), by decide, by decide⟩
    rw [sequenceLen, same]
    rfl

end GPUProcessor

end TRex
