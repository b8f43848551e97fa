import Mathlib.Data.List.Perm.Subperm
import TRex.CudaKernels
import TRex.PatternSearch
import TRex.PatternSemantics

/-!
# Negations on the device

`gcheckN` runs through the negations packed for a turn, but takes their bounds from the device's
table of all negations by the index in the pack, and their events from the pages that
`setAllNegations` has entered under the wrong index. `alike_iff` says for which rules the turns of
`compute` nevertheless invalidate what `checkNegation` invalidates: the negation packed at index `i`
must have the bounds of negation `i`, which must have been packed at the number of the first one.
-/

namespace TRex

open StacksRule

/-! ## Intervals -/

/-- Strictly inside an interval. -/
def Within (x : Nat) (span : Nat × Nat) : Prop := span.1 < x ∧ x < span.2

/-- The interval that the device looks into for a negation of the rule in the turn for state `c`, if
states up to `c` have the times `time`, and those behind it, and `c` itself in the earlier results,
the times `stale`. -/
def Negation.deviceSpan (neg : Negation) (c : Nat) (time stale : Nat → Nat) : Nat × Nat :=
  let upper := neg.upperId.toNat
  if neg.lowerId < 0 then
    let maxTS := if upper ≤ c then time upper else stale upper
    (uint64Sub maxTS neg.lowerTime, maxTS)
  else (time c, if upper < c then time upper else stale upper)

/-- Two negations have the same bounds in a turn: they end at the same state and start at the same
time before it, or both at the state of the turn, or neither has room for an event. -/
def Negation.SameBounds (a b : Negation) : Prop :=
  (0 ≤ a.lowerId ∧ 0 ≤ b.lowerId ∧ a.upperId = b.upperId) ∨
  (a.lowerId < 0 ∧ b.lowerId < 0 ∧
    (a.upperId = b.upperId ∧ a.lowerTime = b.lowerTime ∨ a.lowerTime ≤ 1 ∧ b.lowerTime ≤ 1))

/-- No event fits into the window before the upper state. -/
def Negation.NoRoom (neg : Negation) : Prop := neg.lowerId < 0 ∧ neg.lowerTime ≤ 1

/-- A window of at most one time unit has no room. -/
theorem not_within_uint64Sub {x t w : Nat} (short : w ≤ 1) : ¬ Within x (uint64Sub t w, t) := by
  intro ⟨above, below⟩
  simp only [uint64Sub] at above below
  split at above <;> omega

namespace Negation

variable {a b : Negation} {c : Nat}

theorem SameBounds.within_iff (same : a.SameBounds b) (time stale : Nat → Nat) (x : Nat) :
    Within x (a.deviceSpan c time stale) ↔ Within x (b.deviceSpan c time stale) := by
  rcases same with ⟨lowerA, lowerB, upper⟩ | ⟨lowerA, lowerB, equal | short⟩
  · simp only [deviceSpan, if_neg (Int.not_lt.mpr lowerA), if_neg (Int.not_lt.mpr lowerB), upper]
  · simp only [deviceSpan, if_pos lowerA, if_pos lowerB, equal.1, equal.2]
  · simp only [deviceSpan, if_pos lowerA, if_pos lowerB]
    exact iff_of_false (not_within_uint64Sub short.1) (not_within_uint64Sub short.2)

theorem SameBounds.noRoom (same : a.SameBounds b) (noRoom : a.NoRoom) : b.NoRoom := by
  obtain ⟨time, short⟩ := noRoom
  rcases same with ⟨lowerA, -⟩ | ⟨-, lowerB, equal | both⟩
  · exact absurd time (Int.not_lt.mpr lowerA)
  · exact ⟨lowerB, equal.2 ▸ short⟩
  · exact ⟨lowerB, both.2⟩

theorem NoRoom.not_within (noRoom : a.NoRoom) (time stale : Nat → Nat) (x : Nat) :
    ¬ Within x (a.deviceSpan c time stale) := by
  simp only [deviceSpan, if_pos noRoom.1]
  exact not_within_uint64Sub noRoom.2

/-- An interval that never holds an event has no room. -/
theorem noRoom_of_never {w : Nat} (small : a.lowerId < 0 → a.lowerTime ≤ w)
    (never : ∀ (time stale : Nat → Nat) x, (∀ i, w < time i) →
      ¬ Within x (a.deviceSpan c time stale)) : a.NoRoom := by
  rcases Int.lt_or_le a.lowerId 0 with timed | between
  · refine ⟨timed, ?_⟩
    by_contra long
    have few := small timed
    have here := never (fun _ => w + 2) (fun _ => w + 2) (w + 1) (fun i => by omega)
    simp only [deviceSpan, if_pos timed, Within, uint64Sub, ite_self] at here
    grind
  · have here := never (fun i => if i = c then w + 1 else w + 3) (fun _ => w + 3) (w + 2)
      (fun i => by split <;> omega)
    simp only [deviceSpan, if_neg (Int.not_lt.mpr between), Within] at here
    grind

/-- The negation is checked in the turn for state `c`. -/
def CheckedIn (neg : Negation) (c : Nat) : Prop := neg.LinkedTo c ∨ c = 1 ∧ neg.LinkedTo 0

theorem timed_sameBounds {w : Nat} (timeA : a.lowerId < 0) (timeB : b.lowerId < 0)
    (upperA : 0 ≤ a.upperId) (upperB : 0 ≤ b.upperId) (within : b.upperId.toNat ≤ c)
    (smallA : a.lowerTime ≤ w) (smallB : b.lowerTime ≤ w)
    (agree : ∀ (time stale : Nat → Nat) x, (∀ i, w < time i) →
      (Within x (a.deviceSpan c time stale) ↔ Within x (b.deviceSpan c time stale))) :
    a.SameBounds b := by
  refine .inr ⟨timeA, timeB, ?_⟩
  by_cases short : a.lowerTime ≤ 1 ∧ b.lowerTime ≤ 1
  · exact .inr short
  refine .inl ?_
  have upper : a.upperId = b.upperId := by
    by_contra differ
    have differ' : b.upperId.toNat ≠ a.upperId.toNat := by omega
    by_cases longB : 2 ≤ b.lowerTime
    · -- an event right before the upper state of `b`, all other states before it
      have here := agree (fun i => if i = b.upperId.toNat then w + 2 else w + 1)
        (fun _ => w + 1) (w + 1) (fun i => by split <;> omega)
      simp only [deviceSpan, if_pos timeA, if_pos timeB, if_pos within, Within, uint64Sub] at here
      grind
    · have here := agree (fun i => if i = a.upperId.toNat then w + 2 else w + 1)
        (fun _ => w + 2) (w + 1) (fun i => by split <;> omega)
      simp only [deviceSpan, if_pos timeA, if_pos timeB, if_pos within, Within, uint64Sub] at here
      grind
  refine ⟨upper, ?_⟩
  have withinA : a.upperId.toNat ≤ c := by rw [upper]; exact within
  by_contra differ
  rcases Nat.lt_or_gt_of_ne differ with less | more
  · have here := agree (fun _ => w + 1) (fun _ => 0) (w + 2 - b.lowerTime) (fun i => by omega)
    simp only [deviceSpan, if_pos timeA, if_pos timeB, if_pos within, if_pos withinA, Within,
      uint64Sub] at here
    grind
  · have here := agree (fun _ => w + 1) (fun _ => 0) (w + 2 - a.lowerTime) (fun i => by omega)
    simp only [deviceSpan, if_pos timeA, if_pos timeB, if_pos within, if_pos withinA, Within,
      uint64Sub] at here
    grind

theorem not_timed_between {w : Nat} (betweenA : 0 ≤ a.lowerId) (timeB : b.lowerId < 0)
    (within : b.upperId.toNat ≤ c) (smallB : b.lowerTime ≤ w)
    (agree : ∀ (time stale : Nat → Nat) x, (∀ i, w < time i) →
      (Within x (a.deviceSpan c time stale) ↔ Within x (b.deviceSpan c time stale))) : False := by
  have notTimed := Int.not_lt.mpr betweenA
  by_cases same : a.upperId.toNat = b.upperId.toNat ∧ a.upperId.toNat < c
  · by_cases long : 2 ≤ b.lowerTime
    · have here := agree (fun _ => w + 2) (fun _ => 0) (w + 1) (fun i => by omega)
      simp only [deviceSpan, if_neg notTimed, if_pos timeB, if_pos within, if_pos same.2, Within,
        uint64Sub] at here
      grind
    · have here := agree (fun i => if i = c then w + 1 else w + 3) (fun _ => 0) (w + 2)
        (fun i => by split <;> omega)
      simp only [deviceSpan, if_neg notTimed, if_pos timeB, if_pos within, if_pos same.2, Within,
        uint64Sub] at here
      grind
  · have here := agree
      (fun i => if i = a.upperId.toNat ∧ a.upperId.toNat < c then w + 3 else w + 1)
      (fun _ => w + 3) (w + 2) (fun i => by split <;> omega)
    simp only [deviceSpan, if_neg notTimed, if_pos timeB, if_pos within, Within, uint64Sub] at here
    grind

theorem not_between_timed {w : Nat} (timeA : a.lowerId < 0) (betweenB : 0 ≤ b.lowerId)
    (within : b.upperId.toNat < c) (smallA : a.lowerTime ≤ w)
    (agree : ∀ (time stale : Nat → Nat) x, (∀ i, w < time i) →
      (Within x (a.deviceSpan c time stale) ↔ Within x (b.deviceSpan c time stale))) : False := by
  have notTimed := Int.not_lt.mpr betweenB
  by_cases same : a.upperId.toNat = b.upperId.toNat
  · by_cases long : 2 ≤ a.lowerTime
    · have here := agree (fun _ => w + 2) (fun _ => 0) (w + 1) (fun i => by omega)
      simp only [deviceSpan, if_neg notTimed, if_pos timeA, if_pos within, Within,
        uint64Sub] at here
      grind
    · have here := agree (fun i => if i = c then w + 1 else w + 3) (fun _ => 0) (w + 2)
        (fun i => by split <;> omega)
      simp only [deviceSpan, if_neg notTimed, if_pos timeA, if_pos within, Within,
        uint64Sub] at here
      grind
  · have here := agree (fun i => if i = b.upperId.toNat then w + 3 else w + 1)
      (fun _ => w + 1) (w + 2) (fun i => by split <;> omega)
    simp only [deviceSpan, if_neg notTimed, if_pos timeA, if_pos within, Within, uint64Sub] at here
    grind

theorem between_sameBounds {w : Nat} (betweenA : 0 ≤ a.lowerId) (betweenB : 0 ≤ b.lowerId)
    (upperA : 0 ≤ a.upperId) (upperB : 0 ≤ b.upperId) (within : b.upperId.toNat < c)
    (agree : ∀ (time stale : Nat → Nat) x, (∀ i, w < time i) →
      (Within x (a.deviceSpan c time stale) ↔ Within x (b.deviceSpan c time stale))) :
    a.SameBounds b := by
  refine .inl ⟨betweenA, betweenB, ?_⟩
  by_contra differ
  have differ' : b.upperId.toNat ≠ a.upperId.toNat := by omega
  have here := agree (fun i => if i = b.upperId.toNat then w + 3 else w + 1)
    (fun _ => w + 1) (w + 2) (fun i => by split <;> omega)
  simp only [deviceSpan, if_neg (Int.not_lt.mpr betweenA), if_neg (Int.not_lt.mpr betweenB),
    if_pos within, Within] at here
  grind

theorem deviceSpan_congr {time time' stale stale' : Nat → Nat}
    (same : ∀ k ≤ c, time k = time' k)
    (sameStale : stale a.upperId.toNat = stale' a.upperId.toNat) :
    a.deviceSpan c time stale = a.deviceSpan c time' stale' := by
  simp only [deviceSpan, same c (Nat.le_refl c), sameStale]
  by_cases within : a.upperId.toNat ≤ c
  · rw [same _ within]
  · have after : ¬ a.upperId.toNat < c := fun less => within (Nat.le_of_lt less)
    simp only [if_neg within, if_neg after]

theorem CheckedIn.upper_le {n : Nat} (checked : a.CheckedIn c)
    (bounds : RulePkt.InBounds n a.lowerId a.upperId) (pos : 1 ≤ c) :
    a.upperId.toNat ≤ c ∧ (0 ≤ a.lowerId → a.lowerId = c ∧ a.upperId.toNat < c) := by
  obtain ⟨upper, -, -, order⟩ := bounds
  simp only [CheckedIn, LinkedTo] at checked
  omega

theorem sameBounds_of_within_iff {n w : Nat} (boundsA : RulePkt.InBounds n a.lowerId a.upperId)
    (boundsB : RulePkt.InBounds n b.lowerId b.upperId) (pos : 1 ≤ c) (checked : b.CheckedIn c)
    (smallA : a.lowerId < 0 → a.lowerTime ≤ w) (smallB : b.lowerId < 0 → b.lowerTime ≤ w)
    (agree : ∀ (time stale : Nat → Nat) x, (∀ i, w < time i) →
      (Within x (a.deviceSpan c time stale) ↔ Within x (b.deviceSpan c time stale))) :
    a.SameBounds b := by
  obtain ⟨within, between⟩ := checked.upper_le boundsB pos
  rcases Int.lt_or_le b.lowerId 0 with timeB | betweenB
  · rcases Int.lt_or_le a.lowerId 0 with timeA | betweenA
    · exact timed_sameBounds timeA timeB boundsA.1 boundsB.1 within (smallA timeA) (smallB timeB)
        agree
    · exact (not_timed_between betweenA timeB within (smallB timeB) agree).elim
  · obtain ⟨-, before⟩ := between betweenB
    rcases Int.lt_or_le a.lowerId 0 with timeA | betweenA
    · exact (not_between_timed timeA betweenB before (smallA timeA) agree).elim
    · exact between_sameBounds betweenA betweenB boundsA.1 boundsB.1 before agree

/-- A negation that is checked in a turn has there the interval of the rule. -/
theorem deviceSpan_eq {n : Nat} (bounds : RulePkt.InBounds n a.lowerId a.upperId) (pos : 1 ≤ c)
    (checked : a.CheckedIn c) (pe : PartialEvent) (stale : Nat → Nat)
    (late : a.lowerId < 0 → a.lowerTime ≤ pe.timeOf a.upperId) :
    a.deviceSpan c (fun i => pe.timeOf i) stale = negationBounds a pe := by
  obtain ⟨within, between⟩ := checked.upper_le bounds pos
  have upperIs : ((a.upperId.toNat : Nat) : Int) = a.upperId := Int.toNat_of_nonneg bounds.1
  rcases Int.lt_or_le a.lowerId 0 with time | lower
  · simp only [deviceSpan, negationBounds, if_pos time, if_pos within, upperIs, uint64Sub,
      if_pos (late time)]
  · obtain ⟨lowerIs, before⟩ := between lower
    have notTimed := Int.not_lt.mpr lower
    simp only [deviceSpan, negationBounds, if_neg notTimed, if_pos before, upperIs]
    rw [lowerIs]

end Negation

/-! ## The negations of a turn -/

namespace RulePkt

variable {pkt : RulePkt} {c n : Nat}

theorem mem_negationsFor (bounded : pkt.Bounded) (pos : 1 ≤ c)
    (before : c < pkt.predicates.length) :
    n ∈ pkt.negationsFor (pkt.predicates.length - 1 - c) ↔
      ∃ neg, pkt.negations[n]? = some neg ∧ neg.CheckedIn c := by
  have state : ((pkt.predicates.length - 1 - c : Nat) : Int) =
      (pkt.predicates.length : Int) - 1 - c := by omega
  rw [negationsFor, List.mem_append, firstNegations, otherNegations, List.mem_filter,
    List.mem_range, state]
  cases found : pkt.negations[n]? with
  | none =>
      have beyond := List.getElem?_eq_none_iff.mp found
      simp only [reduceCtorEq, false_and, exists_false, iff_false, not_or]
      constructor
      · split
        case isTrue =>
          intro mem
          exact absurd (List.mem_range.mp (List.mem_filter.mp mem).1) (Nat.not_lt.mpr beyond)
        case isFalse => exact List.not_mem_nil
      · exact fun both => absurd both.1 (Nat.not_lt.mpr beyond)
  | some neg =>
      obtain ⟨upper, -, -, order⟩ := bounded.negations neg (List.mem_of_getElem? found)
      have inside := (List.getElem?_eq_some_iff.mp found).1
      have first : n ∈ (if (pkt.predicates.length : Int) - 1 - c = (pkt.predicates.length : Int) - 2
          then (List.range pkt.negations.length).filter fun n =>
            (pkt.negations[n]?).any fun neg => neg.lowerId < 0 && neg.upperId == 0
          else []) ↔ c = 1 ∧ neg.lowerId < 0 ∧ neg.upperId = 0 := by
        split
        case isTrue one =>
          rw [List.mem_filter, List.mem_range, found]
          simp only [Option.any_some, Bool.and_eq_true, decide_eq_true_eq, beq_iff_eq, inside,
            true_and]
          exact ⟨fun both => ⟨by omega, both⟩, fun both => both.2⟩
        case isFalse other =>
          exact iff_of_false List.not_mem_nil fun both => other (by omega)
      rw [first]
      simp only [inside, Option.any_some, true_and, Option.some.injEq, exists_eq_left',
        Bool.if_true_left, Bool.or_eq_true, decide_eq_true_eq, Bool.and_eq_true, beq_iff_eq,
        Negation.CheckedIn, Negation.LinkedTo]
      omega

theorem nodup_negationsFor (pkt : RulePkt) (state : Nat) : (pkt.negationsFor state).Nodup := by
  rw [negationsFor, List.nodup_append]
  refine ⟨?_, List.nodup_range.filter _, ?_⟩
  · rw [firstNegations]
    split
    case isTrue => exact List.nodup_range.filter _
    case isFalse => exact List.nodup_nil
  · intro i first j other same
    subst same
    rw [firstNegations] at first
    split at first
    case isFalse => exact absurd first List.not_mem_nil
    case isTrue top =>
      have both := (List.mem_filter.mp first).2
      have also := (List.mem_filter.mp other).2
      cases found : pkt.negations[i]? with
      | none =>
          rw [found] at both
          cases both
      | some neg =>
          rw [found] at both also
          simp only [Option.any_some, Bool.and_eq_true, decide_eq_true_eq, beq_iff_eq,
            Bool.if_true_left, Bool.or_eq_true] at both also
          omega

theorem length_negationsFor_le (bounded : pkt.Bounded) (pos : 1 ≤ c)
    (before : c < pkt.predicates.length) :
    (pkt.negationsFor (pkt.predicates.length - 1 - c)).length ≤ pkt.negations.length := by
  have nodup := pkt.nodup_negationsFor (pkt.predicates.length - 1 - c)
  have sub := List.subperm_of_subset nodup fun n mem => List.mem_range.mpr (by
    obtain ⟨neg, found, -⟩ := (mem_negationsFor bounded pos before).mp mem
    exact (List.getElem?_eq_some_iff.mp found).1)
  have le := sub.length_le
  rwa [List.length_range] at le

/-- The negations have no parameters. -/
def PlainNegations (pkt : RulePkt) : Prop := ∀ param ∈ pkt.complexParameters, param.type ≠ .neg

/-- A negation is checked in one turn only. -/
theorem checkedIn_unique {neg : Negation} {c c' : Nat} (bounded : pkt.Bounded)
    (mem : neg ∈ pkt.negations) (pos : 1 ≤ c) (pos' : 1 ≤ c') (checked : neg.CheckedIn c)
    (checked' : neg.CheckedIn c') : c = c' := by
  obtain ⟨upper, -, -, order⟩ := bounded.negations neg mem
  simp only [Negation.CheckedIn, Negation.LinkedTo] at checked checked'
  omega

end RulePkt

/-! ## What a turn checks -/

namespace GPUProcessor

variable {p : GPUProcessor} {st : Stacks}

/-- A negation is packed at an index, its pages apart. -/
structure Packed (p : GPUProcessor) (nP : NegsPasser) (i n : Nat) : Prop where
  size : nP.size i = Ring.size allocSize (p.lowIndexes .neg n) (p.highIndexes .neg n)
  minId : nP.minId i = p.lowIndexes .neg n
  parameters : nP.parameters i = p.negationsParametersSize n

theorem setAllNegations_packed (i n : Nat) (nP : NegsPasser) :
    p.Packed (p.setAllNegations i n nP) i n :=
  ⟨Function.update_self .., Function.update_self .., Function.update_self ..⟩

theorem Packed.packNegations {negs : List Nat} {start i n : Nat} {nP : NegsPasser}
    (packed : p.Packed nP i n) (before : i < start) :
    p.Packed (p.packNegations negs start nP) i n := by
  induction negs generalizing start nP with
  | nil => exact packed
  | cons m rest ih =>
      have other : i ≠ start := Nat.ne_of_lt before
      refine ih ⟨?_, ?_, ?_⟩ (Nat.lt_succ_of_lt before)
      · exact (Function.update_of_ne other _ _).trans packed.size
      · exact (Function.update_of_ne other _ _).trans packed.minId
      · exact (Function.update_of_ne other _ _).trans packed.parameters

theorem packNegations_packed (p : GPUProcessor) {negs : List Nat} {i n : Nat} (start : Nat)
    (nP : NegsPasser) (at_ : negs[i]? = some n) :
    p.Packed (p.packNegations negs start nP) (start + i) n := by
  induction negs generalizing start i nP with
  | nil => cases at_
  | cons m rest ih =>
      cases i with
      | zero =>
          cases at_
          exact (setAllNegations_packed start n nP).packNegations (Nat.lt_succ_self start)
      | succ i =>
          rw [Nat.add_succ, ← Nat.succ_add]
          exact ih (start + 1) (p.setAllNegations start m nP) at_

/-! ### Pages -/

/-- The pages at index `m` are those of negation `k`. -/
def PagesOf (p : GPUProcessor) (nP : NegsPasser) (m k : Nat) : Prop :=
  ∀ j < (p.mm.rules p.mmToken).numChunks .neg k,
    nP.pages m j = p.mm.pageOf p.mmToken .neg k j % p.mm.dChunksnum

/-- Pages are entered only under the numbers of the negations packed. -/
theorem pages_packNegations {negs : List Nat} {m : Nat} (absent : m ∉ negs) (start : Nat)
    (nP : NegsPasser) : (p.packNegations negs start nP).pages m = nP.pages m := by
  induction negs generalizing start nP with
  | nil => rfl
  | cons n rest ih =>
      rw [List.mem_cons, not_or] at absent
      exact (ih absent.2 _ _).trans (Function.update_of_ne absent.1 _ _)

theorem packNegations_pagesOf {negs : List Nat} {k m : Nat} (nodup : negs.Nodup) (start : Nat)
    (nP : NegsPasser) (at_ : negs[k]? = some m) :
    p.PagesOf (p.packNegations negs start nP) m (start + k) := by
  induction negs generalizing start k nP with
  | nil => cases at_
  | cons n rest ih =>
      obtain ⟨absent, nodup⟩ := List.nodup_cons.mp nodup
      cases k with
      | zero =>
          cases at_
          intro j used
          rw [packNegations, pages_packNegations absent]
          simp only [setAllNegations, Function.update_self]
          exact if_pos used
      | succ k =>
          rw [Nat.add_succ, ← Nat.succ_add]
          exact ih nodup (start + 1) _ at_

/-- The numbers of the negations that a turn lists. -/
abbrev listed (p : GPUProcessor) (c : Nat) : List Nat :=
  p.rulePkt.negationsFor (p.sequenceLen - 1 - c)

/-- A negation that no turn has listed yet has the pages it had. -/
theorem pages_packedAfter {m c : Nat} (nP : NegsPasser)
    (absent : ∀ c', 1 ≤ c' → c' ≤ c → m ∉ p.listed c') :
    (p.packedAfter nP c).pages m = nP.pages m := by
  induction c with
  | zero => rfl
  | succ c ih =>
      refine (pages_packNegations (absent (c + 1) (by omega) (Nat.le_refl _)) 0 _).trans ?_
      exact ih fun c' one le => absent c' one (Nat.le_succ_of_le le)

/-- Under the number of a negation are the pages of the one whose number is its index. -/
theorem packedAfter_pagesOf (bounded : p.rulePkt.Bounded) {m k c c' : Nat} (nP : NegsPasser)
    (one : 1 ≤ c') (le : c' ≤ c) (before : c < p.sequenceLen)
    (at_ : (p.listed c')[k]? = some m) : p.PagesOf (p.packedAfter nP c) m k := by
  induction c with
  | zero => omega
  | succ c ih =>
      rcases Nat.lt_or_ge c c' with here | earlier
      · have same : c' = c + 1 := by omega
        subst same
        have pages := packNegations_pagesOf (p := p)
          (p.rulePkt.nodup_negationsFor (p.sequenceLen - 1 - (c + 1))) 0 (p.packedAfter nP c) at_
        rwa [Nat.zero_add] at pages
      · have absent : m ∉ p.listed (c + 1) := by
          intro mem
          obtain ⟨neg, found, checked⟩ :=
            (RulePkt.mem_negationsFor bounded (by omega) before).mp mem
          obtain ⟨neg', found', checked'⟩ := (RulePkt.mem_negationsFor bounded one
            (show c' < p.rulePkt.predicates.length from Nat.lt_of_le_of_lt le before)).mp
              (List.mem_of_getElem? at_)
          cases found.symm.trans found'
          have turn := RulePkt.checkedIn_unique bounded (List.mem_of_getElem? found) (by omega) one
            checked checked'
          omega
        intro j used
        refine (congrFun (pages_packNegations absent 0 (p.packedAfter nP c)) j).trans ?_
        exact ih earlier (by omega) j used

/-- The device holds the packets of the negations: the range of each column has as many places as
the CPU's stack has packets, the places lie in pages in use, and they hold the packets' times. -/
def HoldsNegations (p : GPUProcessor) (st : Stacks) : Prop :=
  ∀ n < p.rulePkt.negations.length, (st.negs n).Inv ∧
    Ring.size allocSize (p.lowIndexes .neg n) (p.highIndexes .neg n) =
      (st.negs n).received.length ∧
    ∀ (i : Nat) (x : PubPktPtr), (st.negs n).received[i]? = some x →
      (p.lowIndexes .neg n + i) % allocSize / pageSize <
        (p.mm.rules p.mmToken).numChunks .neg n ∧
      (p.mm.baseAddress (p.mm.pageOf p.mmToken .neg n
        ((p.lowIndexes .neg n + i) % allocSize / pageSize) % p.mm.dChunksnum * pageSize +
          (p.lowIndexes .neg n + i) % allocSize % pageSize)).timestamp = x.getTimeStamp

theorem negationsParametersSize_eq_nil (plain : p.rulePkt.PlainNegations) (n : Nat) :
    p.negationsParametersSize n = [] := by
  rw [negationsParametersSize, List.filter_eq_nil_iff]
  intro j _
  cases found : p.rulePkt.complexParameters[j]? with
  | none => simp
  | some param =>
      have other := plain param (List.mem_of_getElem? found)
      simp [other]

/-- The time that the kernels read of event `k` of the negation packed at index `i`. -/
def timeAt (p : GPUProcessor) (nP : NegsPasser) (i k : Nat) : Nat :=
  (p.mm.baseAddress (nP.address i k)).timestamp

/-- It is the time of the packet where the pages are those of the negation. -/
theorem timeAt_of_pagesOf {nP : NegsPasser} {i n k : Nat} {x : PubPktPtr}
    (holds : p.HoldsNegations st) (known : n < p.rulePkt.negations.length)
    (packed : p.Packed nP i n) (pages : p.PagesOf nP i n)
    (found : (st.negs n).received[k]? = some x) : p.timeAt nP i k = x.getTimeStamp := by
  obtain ⟨used, time⟩ := (holds n known).2.2 k x found
  rw [← time, timeAt, NegsPasser.address, packed.minId, pages _ used]

/-- A kernel fails if an event of a negation packed has a time in the interval for the index. -/
theorem gcheckN_eq_false_iff {check : Nat → EventInfo → Bool} {ev1 : EventInfo}
    {prev : EventInfoSet} {negs : List Nat} {nP : NegsPasser} {state : Nat}
    (holds : p.HoldsNegations st) (plain : p.rulePkt.PlainNegations)
    (known : ∀ n ∈ negs, n < p.rulePkt.negations.length)
    (packed : ∀ i n, negs[i]? = some n → p.Packed nP i n) :
    gcheckN p.mm.baseAddress check ev1 prev p.gpuNegation negs.length nP state = false ↔
      ∃ i n, negs[i]? = some n ∧ ∃ k < (st.negs n).received.length,
        Within (p.timeAt nP i k) ((p.gpuNegation i).bounds ev1 prev state) := by
  have size : ∀ {i n : Nat}, negs[i]? = some n → nP.size i = (st.negs n).received.length :=
    fun at_ => (packed _ _ at_).size.trans (holds _ (known _ (List.mem_of_getElem? at_))).2.1
  have noParameters : ∀ {i n : Nat}, negs[i]? = some n → nP.parameters i = [] := fun at_ =>
    (packed _ _ at_).parameters.trans (negationsParametersSize_eq_nil plain _)
  rw [gcheckN, List.all_eq_false]
  constructor
  · rintro ⟨i, inside, fails⟩
    have at_ := List.getElem?_eq_getElem (List.mem_range.mp inside)
    simp only [List.all_eq_true, not_forall] at fails
    obtain ⟨k, before, event⟩ := fails
    rw [List.mem_range, size at_] at before
    refine ⟨i, _, at_, k, before, ?_⟩
    split at event
    case isTrue within => exact ⟨within.2, within.1⟩
    case isFalse => exact absurd rfl event
  · rintro ⟨i, n, at_, k, before, within⟩
    refine ⟨i, List.mem_range.mpr (List.getElem?_eq_some_iff.mp at_).1, ?_⟩
    simp only [List.all_eq_true, not_forall]
    refine ⟨k, List.mem_range.mpr (size at_ ▸ before), ?_⟩
    rw [if_pos ⟨within.2, within.1⟩, noParameters at_]
    simp

/-- The interval for an index in the turn for state `c` is that of the negation of this number. -/
theorem bounds_gpuNegation {neg : Negation} {i c : Nat} {infos : EventInfoSet}
    {stale : Nat → EventInfoSet} (found : p.rulePkt.negations[i]? = some neg)
    (bounds : RulePkt.InBounds p.sequenceLen neg.lowerId neg.upperId)
    (before : c < p.sequenceLen) :
    (p.gpuNegation i).bounds (infos (p.sequenceLen - 1 - c))
        (prevResults infos stale (p.sequenceLen - 1 - c)) (p.sequenceLen - 1 - c) =
      neg.deviceSpan c (fun k => (infos (p.sequenceLen - 1 - k)).timestamp)
        fun k => (stale (p.sequenceLen - 1 - c) (p.sequenceLen - 1 - k)).timestamp := by
  obtain ⟨upper, upperLt, lowerLt, order⟩ := bounds
  have place : ((p.sequenceLen : Int) - neg.upperId - 1).toNat =
      p.sequenceLen - 1 - neg.upperId.toNat := by omega
  have atState : (p.sequenceLen : Int) - neg.upperId - 1 = ((p.sequenceLen - 1 - c : Nat) : Int) ↔
      neg.upperId.toNat = c := by omega
  have above : p.sequenceLen - 1 - c < p.sequenceLen - 1 - neg.upperId.toNat ↔
      neg.upperId.toNat < c := by omega
  rw [gpuNegation, found]
  simp only [GPUNegation.bounds, Negation.deviceSpan, prevResults, place, atState, above]
  rcases Int.lt_or_le neg.lowerId 0 with time | between
  · rw [if_neg (Int.not_le.mpr time), if_pos time, if_pos time]
    rcases Nat.lt_trichotomy neg.upperId.toNat c with less | same | more
    · rw [if_neg (Nat.ne_of_lt less), if_pos less, if_pos (Nat.le_of_lt less)]
    · rw [if_pos same, if_pos (Nat.le_of_eq same), same]
    · rw [if_neg (Nat.ne_of_gt more), if_neg (Nat.lt_asymm more), if_neg (Nat.not_le.mpr more)]
  · have placed : ¬ (p.sequenceLen : Int) - neg.lowerId - 1 < 0 := by omega
    rw [if_pos between, if_neg placed, if_neg (Int.not_lt.mpr between)]
    split <;> rfl

/-! ## What a computation checks -/

/-- The times of an assignment on the device are those of the partial result. -/
def Assigns (p : GPUProcessor) (infos : EventInfoSet) (pe : PartialEvent) (last : Nat) : Prop :=
  ∀ i ≤ last, (pe.indexes i).isSome ∧
    (infos (p.sequenceLen - 1 - i)).timestamp = pe.timeOf i

/-- The times that an earlier computation has left, by the state of the rule. -/
def staleTimes (p : GPUProcessor) (stale : Nat → EventInfoSet) (c k : Nat) : Nat :=
  (stale (p.sequenceLen - 1 - c) (p.sequenceLen - 1 - k)).timestamp

theorem packedAfter_packed {c : Nat} (one : 1 ≤ c) (nP : NegsPasser) {i n : Nat}
    (at_ : (p.listed c)[i]? = some n) : p.Packed (p.packedAfter nP c) i n := by
  cases c with
  | zero => omega
  | succ c =>
      have packed := p.packNegations_packed 0 (p.packedAfter nP c) at_
      rwa [Nat.zero_add] at packed

theorem turn_eq_false_iff {check : Nat → EventInfo → Bool} {nP : NegsPasser}
    {infos : EventInfoSet} {stale : Nat → EventInfoSet} {pe : PartialEvent} {last c : Nat}
    (bounded : p.rulePkt.Bounded) (holds : p.HoldsNegations st)
    (plain : p.rulePkt.PlainNegations) (assigns : p.Assigns infos pe last) (one : 1 ≤ c)
    (le : c ≤ last) (before : c < p.sequenceLen) :
    p.turn check nP infos stale (p.sequenceLen - 1 - c) = false ↔
      ∃ (i n : Nat) (a : Negation), (p.listed c)[i]? = some n ∧
        p.rulePkt.negations[i]? = some a ∧ ∃ k < (st.negs n).received.length,
          Within (p.timeAt (p.packedAfter nP c) i k)
            (a.deviceSpan c (fun k => pe.timeOf k) (p.staleTimes stale c)) := by
  have known : ∀ n ∈ p.listed c, n < p.rulePkt.negations.length := by
    intro n mem
    obtain ⟨neg, found, -⟩ := (RulePkt.mem_negationsFor bounded one before).mp mem
    exact (List.getElem?_eq_some_iff.mp found).1
  have few : (p.listed c).length ≤ p.rulePkt.negations.length :=
    RulePkt.length_negationsFor_le bounded one before
  have spanIs : ∀ {i : Nat} {a : Negation}, p.rulePkt.negations[i]? = some a →
      (p.gpuNegation i).bounds (infos (p.sequenceLen - 1 - c))
        (prevResults infos stale (p.sequenceLen - 1 - c)) (p.sequenceLen - 1 - c) =
      a.deviceSpan c (fun k => pe.timeOf k) (p.staleTimes stale c) := by
    intro i a found
    rw [bounds_gpuNegation found (bounded.negations a (List.mem_of_getElem? found)) before]
    apply Negation.deviceSpan_congr
    · intro k upTo
      exact (assigns k (Nat.le_trans upTo le)).2
    · rfl
  have turns : p.sequenceLen - 1 - (p.sequenceLen - 1 - c) = c := by omega
  rw [turn, turns]
  refine (gcheckN_eq_false_iff holds plain known fun _ _ => packedAfter_packed one nP).trans ?_
  constructor
  · rintro ⟨i, n, at_, k, inside, within⟩
    have found := List.getElem?_eq_getElem
      (Nat.lt_of_lt_of_le (List.getElem?_eq_some_iff.mp at_).1 few)
    rw [spanIs found] at within
    exact ⟨i, n, _, at_, found, k, inside, within⟩
  · rintro ⟨i, n, a, at_, found, k, inside, within⟩
    rw [← spanIs found] at within
    exact ⟨i, n, at_, k, inside, within⟩

theorem invalidates_iff {check : Nat → EventInfo → Bool} {nP : NegsPasser}
    {infos : EventInfoSet} {stale : Nat → EventInfoSet} {pe : PartialEvent} {last : Nat}
    (bounded : p.rulePkt.Bounded) (holds : p.HoldsNegations st)
    (plain : p.rulePkt.PlainNegations) (assigns : p.Assigns infos pe last)
    (before : last < p.sequenceLen) :
    p.invalidates check nP infos stale (p.sequenceLen - 1 - last) = true ↔
      ∃ c, 1 ≤ c ∧ c ≤ last ∧ ∃ (i n : Nat) (a : Negation), (p.listed c)[i]? = some n ∧
        p.rulePkt.negations[i]? = some a ∧ ∃ k < (st.negs n).received.length,
          Within (p.timeAt (p.packedAfter nP c) i k)
            (a.deviceSpan c (fun k => pe.timeOf k) (p.staleTimes stale c)) := by
  have turnFails := fun (c : Nat) (one : 1 ≤ c) (le : c ≤ last) =>
    @turn_eq_false_iff p st check nP infos stale pe last c bounded holds plain assigns one le
      (Nat.lt_of_le_of_lt le before)
  rw [invalidates, List.any_eq_true]
  constructor
  · rintro ⟨state, mem, fails⟩
    obtain ⟨above, below⟩ := List.mem_range'_1.mp mem
    have stateIs : state = p.sequenceLen - 1 - (p.sequenceLen - 1 - state) := by omega
    rw [Bool.not_eq_true', stateIs] at fails
    exact ⟨p.sequenceLen - 1 - state, by omega, by omega,
      (turnFails _ (by omega) (by omega)).mp fails⟩
  · rintro ⟨c, one, le, event⟩
    refine ⟨p.sequenceLen - 1 - c, List.mem_range'_1.mpr (by omega), ?_⟩
    rw [Bool.not_eq_true']
    exact (turnFails c one le).mpr event

/-- What the CPU checks for the states up to `last`. -/
theorem checkNegation_iff_checkedIn {pe : PartialEvent} {last : Nat} (holds : p.HoldsNegations st)
    (plain : p.rulePkt.PlainNegations) (pos : 1 ≤ last) (before : last < p.sequenceLen) :
    (∃ i ≤ last, ∃ n ∈ (StacksRule.new p.rulePkt).getLinkedNegations i,
      (StacksRule.new p.rulePkt).checkNegation st n pe = true) ↔
      ∃ c, 1 ≤ c ∧ c ≤ last ∧ ∃ n b, p.rulePkt.negations[n]? = some b ∧ b.CheckedIn c ∧
        ∃ x ∈ (st.negs n).received, Within x.getTimeStamp (negationBounds b pe) := by
  have checks : ∀ {n : Nat} {b : Negation}, p.rulePkt.negations[n]? = some b →
      ((StacksRule.new p.rulePkt).checkNegation st n pe = true ↔
        ∃ x ∈ (st.negs n).received, Within x.getTimeStamp (negationBounds b pe)) := by
    intro n b found
    have inv := (holds n (List.getElem?_eq_some_iff.mp found).1).1
    have none : (StacksRule.new p.rulePkt).negationComplexParameters n = [] := by
      apply List.filter_eq_nil_iff.mpr
      intro param mem
      simp [plain param mem]
    rw [StacksRule.checkNegation_iff (StacksRule.new p.rulePkt) inv found, none]
    simp only [mem_between, checkParameters, List.all_nil, and_true, Within]
  constructor
  · rintro ⟨i, le, n, linked, fails⟩
    obtain ⟨b, found, state⟩ := (mem_new_getLinkedNegations (by
      rw [sequenceLen] at before
      omega)).mp linked
    rw [linkedState_eq_iff] at state
    rw [checks found] at fails
    rcases Nat.eq_zero_or_pos i with first | later
    · subst first
      exact ⟨1, Nat.le_refl 1, pos, n, b, found, .inr ⟨rfl, state⟩, fails⟩
    · exact ⟨i, later, le, n, b, found, .inl state, fails⟩
  · rintro ⟨c, one, le, n, b, found, checked, event⟩
    rw [← checks found] at event
    rcases checked with state | ⟨-, state⟩
    · refine ⟨c, le, n, ?_, event⟩
      exact (mem_new_getLinkedNegations (by
        rw [sequenceLen] at before
        omega)).mpr ⟨b, found, linkedState_eq_iff.mpr state⟩
    · refine ⟨0, Nat.zero_le _, n, ?_, event⟩
      exact (mem_new_getLinkedNegations (by
        rw [sequenceLen] at before
        omega)).mpr ⟨b, found, linkedState_eq_iff.mpr state⟩

/-! ## Agreement -/

/-- The times of the states up to `last` are larger than all windows. -/
def LaterThanWindows (pkt : RulePkt) (pe : PartialEvent) (last : Nat) : Prop :=
  ∀ i ≤ last, ∀ neg ∈ pkt.negations, neg.lowerId < 0 → neg.lowerTime < pe.timeOf i

/-- For every content of the stacks and every assignment of at least one state after the terminator,
the device invalidates what the CPU invalidates. -/
def Alike (pkt : RulePkt) : Prop :=
  ∀ (p : GPUProcessor) (st : Stacks) (check : Nat → EventInfo → Bool) (nP : NegsPasser)
    (infos : EventInfoSet) (stale : Nat → EventInfoSet) (pe : PartialEvent) (last : Nat),
    p.rulePkt = pkt → p.HoldsNegations st → p.Assigns infos pe last →
    LaterThanWindows pkt pe last → 1 ≤ last → last < p.sequenceLen →
    (p.invalidates check nP infos stale (p.sequenceLen - 1 - last) = true ↔
      ∃ i ≤ last, ∃ n ∈ (StacksRule.new pkt).getLinkedNegations i,
        (StacksRule.new pkt).checkNegation st n pe = true)

/-- Negation `i` is listed at index `n` in this turn or an earlier one, so that the pages under
number `i` are those of negation `n`. -/
def PagesMatch (pkt : RulePkt) (state i n : Nat) : Prop :=
  ∃ earlier, state ≤ earlier ∧ earlier < pkt.predicates.length - 1 ∧
    (pkt.negationsFor earlier)[n]? = some i

/-- In every turn, the negation at an index of the list has the bounds of the negation of that
number, and its pages unless no event fits into the bounds. -/
def BoundsMatch (pkt : RulePkt) : Prop :=
  ∀ state < pkt.predicates.length - 1, ∀ (i n : Nat) (a b : Negation),
    (pkt.negationsFor state)[i]? = some n → pkt.negations[i]? = some a →
    pkt.negations[n]? = some b → a.SameBounds b ∧ (a.NoRoom ∨ PagesMatch pkt state i n)

/-- Where the pages match, the kernels read the times of the packets. -/
theorem timeAt_of_pagesMatch (bounded : p.rulePkt.Bounded) (holds : p.HoldsNegations st)
    {c i n k : Nat} {x : PubPktPtr} (one : 1 ≤ c) (before : c < p.sequenceLen) (nP : NegsPasser)
    (at_ : (p.listed c)[i]? = some n)
    (pagesMatch : PagesMatch p.rulePkt (p.sequenceLen - 1 - c) i n)
    (found : (st.negs n).received[k]? = some x) :
    p.timeAt (p.packedAfter nP c) i k = x.getTimeStamp := by
  obtain ⟨earlier, le, below, listed⟩ := pagesMatch
  have length : p.sequenceLen = p.rulePkt.predicates.length := rfl
  have turn : p.sequenceLen - 1 - (p.sequenceLen - 1 - earlier) = earlier := by omega
  have listed' : (p.listed (p.sequenceLen - 1 - earlier))[n]? = some i := by
    rw [GPUProcessor.listed, turn]
    exact listed
  obtain ⟨neg, foundN, -⟩ := (RulePkt.mem_negationsFor bounded one before).mp
    (List.mem_of_getElem? at_)
  exact timeAt_of_pagesOf holds (List.getElem?_eq_some_iff.mp foundN).1
    (packedAfter_packed one nP at_)
    (packedAfter_pagesOf bounded nP (by omega) (by omega) before listed') found

theorem alike_of_boundsMatch {pkt : RulePkt} (bounded : pkt.Bounded) (plain : pkt.PlainNegations)
    (boundsMatch : BoundsMatch pkt) : Alike pkt := by
  intro p st check nP infos stale pe last same holds assigns late pos before
  subst same
  rw [invalidates_iff bounded holds plain assigns before,
    checkNegation_iff_checkedIn holds plain pos before]
  have before' : last < p.rulePkt.predicates.length := before
  have length : p.sequenceLen = p.rulePkt.predicates.length := rfl
  have upper : ∀ {b : Negation} {c : Nat}, b ∈ p.rulePkt.negations → 1 ≤ c → c ≤ last →
      b.CheckedIn c → b.lowerId < 0 → b.lowerTime ≤ pe.timeOf b.upperId := by
    intro b c mem one le checked time
    have bounds := bounded.negations b mem
    have below := (checked.upper_le bounds one).1
    have later := late b.upperId.toNat (Nat.le_trans below le) b mem time
    rw [Int.toNat_of_nonneg bounds.1] at later
    exact Nat.le_of_lt later
  constructor
  · rintro ⟨c, one, le, i, n, a, at_, found, k, inside, within⟩
    obtain ⟨b, foundB, checked⟩ := (RulePkt.mem_negationsFor bounded one
      (Nat.lt_of_le_of_lt le before')).mp (List.mem_of_getElem? at_)
    have memB := List.mem_of_getElem? foundB
    obtain ⟨sameBounds, noRoom | pagesMatch⟩ := boundsMatch _ (by omega) i n a b at_ found foundB
    · exact absurd within (noRoom.not_within _ _ _)
    refine ⟨c, one, le, n, b, foundB, checked, _, List.getElem_mem inside, ?_⟩
    rw [timeAt_of_pagesMatch bounded holds one (Nat.lt_of_le_of_lt le before) nP at_ pagesMatch
        (List.getElem?_eq_getElem inside), sameBounds.within_iff,
      Negation.deviceSpan_eq (bounded.negations b memB) one checked pe _
        (upper memB one le checked)] at within
    exact within
  · rintro ⟨c, one, le, n, b, foundB, checked, x, mem, within⟩
    have memB := List.mem_of_getElem? foundB
    obtain ⟨i, inside, at_⟩ := List.getElem_of_mem ((RulePkt.mem_negationsFor bounded one
      (Nat.lt_of_le_of_lt le before')).mpr ⟨b, foundB, checked⟩)
    have atI := List.getElem?_eq_getElem inside
    rw [at_] at atI
    have few : i < p.rulePkt.negations.length :=
      Nat.lt_of_lt_of_le inside (RulePkt.length_negationsFor_le bounded one
        (Nat.lt_of_le_of_lt le before'))
    have found := List.getElem?_eq_getElem few
    rw [← Negation.deviceSpan_eq (bounded.negations b memB) one checked pe
      (p.staleTimes stale c) (upper memB one le checked)] at within
    obtain ⟨sameBounds, noRoom | pagesMatch⟩ := boundsMatch _ (by omega) i n _ b atI found foundB
    · exact absurd within ((sameBounds.noRoom noRoom).not_within _ _ _)
    obtain ⟨k, isPlace, same⟩ := List.getElem_of_mem mem
    have place := List.getElem?_eq_getElem isPlace
    rw [same] at place
    refine ⟨c, one, le, i, n, _, atI, found, k, isPlace, ?_⟩
    rw [timeAt_of_pagesMatch bounded holds one (Nat.lt_of_le_of_lt le before) nP atI pagesMatch
        place, sameBounds.within_iff]
    exact within

/-! ### A rule whose bounds do not match -/

/-- A device that holds one event of negation `n`. Negation `m` has page `m`, and every place but
that of the event holds one of another time. -/
def holding (pkt : RulePkt) (n time other : Nat) : GPUProcessor :=
  { rulePkt := pkt
    mm :=
      { MemoryManager.new (pkt.negations.length + 1) (fun _ => ⟨[], time⟩)
          (fun address => ⟨[], if address = n * pageSize then time else other⟩) with
        rules := fun _ => ⟨fun _ m _ => some m, fun _ _ => 1⟩ }
    mmToken := 0
    lowIndexes := fun _ _ => 0
    highIndexes := fun _ m => if m = n then 1 else 0
    timestamps := fun _ _ _ => time
    samples := fun _ _ => none }

/-- What `nP` may hold before it is set: the number of a page without a negation. -/
def unsetPasser (pkt : RulePkt) : NegsPasser :=
  ⟨fun _ => 0, fun _ => 0, fun _ _ => pkt.negations.length, fun _ => []⟩

def packetAt (time : Nat) : PubPktPtr := ⟨0, PubPkt.new 0 [] time⟩

/-- The stacks of the CPU with that event. -/
def stacksHolding (n time : Nat) : Stacks :=
  { Stacks.initial with
    negs := fun m => if m = n then ⟨1, [packetAt time]⟩ else .empty }

theorem stacksHolding_self (n time : Nat) :
    ((stacksHolding n time).negs n).received = [packetAt time] := by
  simp [stacksHolding]

theorem stacksHolding_of_ne {n m : Nat} (other : m ≠ n) (time : Nat) :
    (stacksHolding n time).negs m = .empty := by
  simp [stacksHolding, other]

theorem mem_stacksHolding {n m time : Nat} {event : PubPktPtr} :
    event ∈ ((stacksHolding n time).negs m).received ↔ m = n ∧ event = packetAt time := by
  by_cases same : m = n
  · subst same
    simp [stacksHolding_self]
  · simp [stacksHolding_of_ne same, same, Column.empty]

theorem lt_length_stacksHolding {n m time k : Nat} :
    k < ((stacksHolding n time).negs m).received.length ↔ m = n ∧ k = 0 := by
  by_cases same : m = n
  · subst same
    simp [stacksHolding_self]
  · simp [stacksHolding_of_ne same, same, Column.empty]

section Holding

variable {pkt : RulePkt} {n : Nat} (known : n < pkt.negations.length) (time other : Nat)

theorem pageOf_holding {m : Nat} (inside : m < pkt.negations.length) :
    (holding pkt n time other).mm.pageOf 0 .neg m 0 % (holding pkt n time other).mm.dChunksnum =
      m :=
  Nat.mod_eq_of_lt (Nat.lt_succ_of_lt inside)

include known in
theorem holding_holds :
    (holding pkt n time other).HoldsNegations (stacksHolding n time) := by
  intro m _
  by_cases same : m = n
  · subst same
    have column : (stacksHolding m time).negs m = ⟨1, [packetAt time]⟩ := by simp [stacksHolding]
    refine ⟨column ▸ Column.inv_singleton _, ?_, ?_⟩
    · rw [stacksHolding_self]
      simp [holding, Ring.size]
    · intro i x at_
      rw [stacksHolding_self] at at_
      cases i with
      | zero =>
          cases at_
          refine ⟨by simp [holding], ?_⟩
          have page : (holding pkt m time other).mm.pageOf (holding pkt m time other).mmToken .neg m
              0 % (holding pkt m time other).mm.dChunksnum = m := pageOf_holding time other known
          have first : ((holding pkt m time other).lowIndexes .neg m + 0) % allocSize = 0 :=
            Nat.zero_mod _
          rw [first, Nat.zero_div, Nat.zero_mod, page]
          exact if_pos (Nat.add_zero _)
      | succ i => cases at_
  · rw [stacksHolding_of_ne same]
    refine ⟨Column.inv_empty, ?_, fun i x at_ => by cases at_⟩
    simp [holding, same, Ring.size, Column.empty]

/-- Where the pages do not match, the kernels read another event. -/
theorem timeAt_of_not_pagesMatch (bounded : pkt.Bounded) {c i : Nat} (one : 1 ≤ c)
    (before : c < pkt.predicates.length)
    (at_ : (pkt.negationsFor (pkt.predicates.length - 1 - c))[i]? = some n)
    (apart : ¬ PagesMatch pkt (pkt.predicates.length - 1 - c) i n) :
    (holding pkt n time other).timeAt
      ((holding pkt n time other).packedAfter (unsetPasser pkt) c) i 0 = other := by
  let nP := (holding pkt n time other).packedAfter (unsetPasser pkt) c
  have packed : (holding pkt n time other).Packed nP i n := packedAfter_packed one _ at_
  have known : n < pkt.negations.length := by
    obtain ⟨neg, found, -⟩ := (RulePkt.mem_negationsFor bounded one before).mp
      (List.mem_of_getElem? at_)
    exact (List.getElem?_eq_some_iff.mp found).1
  have page : nP.pages i 0 ≠ n := by
    by_cases known' : ∃ c', 1 ≤ c' ∧ c' ≤ c ∧ i ∈ (holding pkt n time other).listed c'
    · obtain ⟨c', one', le, mem⟩ := known'
      obtain ⟨k, inside, isIndex⟩ := List.getElem_of_mem mem
      have index : (pkt.negationsFor (pkt.predicates.length - 1 - c'))[k]? = some i := by
        rw [← isIndex]
        exact List.getElem?_eq_getElem inside
      have few : k < pkt.negations.length :=
        Nat.lt_of_lt_of_le inside
          (RulePkt.length_negationsFor_le bounded one' (Nat.lt_of_le_of_lt le before))
      have pages : nP.pages i 0 = _ :=
        packedAfter_pagesOf (p := holding pkt n time other) bounded (unsetPasser pkt) one' le before
          index 0 Nat.zero_lt_one
      rw [pages]
      refine (pageOf_holding time other few).trans_ne fun same => apart ?_
      rw [same] at index
      exact ⟨pkt.predicates.length - 1 - c', by omega, by omega, index⟩
    · have pages : nP.pages i = _ := pages_packedAfter (unsetPasser pkt) fun c' one' le mem =>
        known' ⟨c', one', le, mem⟩
      rw [pages]
      exact Nat.ne_of_gt known
  have first : ((holding pkt n time other).lowIndexes .neg n + 0) % allocSize = 0 := Nat.zero_mod _
  have place : nP.address i 0 = nP.pages i 0 * pageSize := by
    rw [NegsPasser.address, packed.minId]
    rw [first, Nat.zero_div, Nat.zero_mod, Nat.add_zero]
  rw [timeAt, place]
  exact if_neg fun same => page (Nat.eq_of_mul_eq_mul_right (by decide) same)

end Holding

/-- A bound of all windows. -/
theorem exists_window_bound (negations : List Negation) :
    ∃ w, ∀ neg ∈ negations, neg.lowerTime ≤ w := by
  induction negations with
  | nil => exact ⟨0, fun neg mem => absurd mem List.not_mem_nil⟩
  | cons first rest ih =>
      obtain ⟨w, small⟩ := ih
      refine ⟨max first.lowerTime w, fun neg mem => ?_⟩
      rcases List.mem_cons.mp mem with rfl | later
      · exact Nat.le_max_left _ _
      · exact Nat.le_trans (small neg later) (Nat.le_max_right _ _)

/-- If the device agrees with the CPU, then the one event of negation `n` fails in some turn exactly
if it fails on the CPU, whatever the times of the states. -/
theorem exists_within_iff_of_alike {pkt : RulePkt} (bounded : pkt.Bounded)
    (plain : pkt.PlainNegations) (alike : Alike pkt) {last n w : Nat} (one : 1 ≤ last)
    (before : last < pkt.predicates.length) (known : n < pkt.negations.length)
    (small : ∀ neg ∈ pkt.negations, neg.lowerTime ≤ w) {time : Nat → Nat} (stale : Nat → Nat)
    (x y : Nat) (later : ∀ i, w < time i) :
    (∃ c, 1 ≤ c ∧ c ≤ last ∧ ∃ i a,
      (pkt.negationsFor (pkt.predicates.length - 1 - c))[i]? = some n ∧
      pkt.negations[i]? = some a ∧
      Within ((holding pkt n x y).timeAt
        ((holding pkt n x y).packedAfter (unsetPasser pkt) c) i 0) (a.deviceSpan c time stale)) ↔
      ∃ c, 1 ≤ c ∧ c ≤ last ∧ ∃ b, pkt.negations[n]? = some b ∧ b.CheckedIn c ∧
        Within x (b.deviceSpan c time stale) := by
  have holds := holding_holds known x y
  let pe : PartialEvent := ⟨fun k => some (packetAt (time k))⟩
  let infos : EventInfoSet := fun k => ⟨[], time (pkt.predicates.length - 1 - k)⟩
  let left : Nat → EventInfoSet := fun _ k => ⟨[], stale (pkt.predicates.length - 1 - k)⟩
  have assigns : (holding pkt n x y).Assigns infos pe last := by
    intro k le
    have back : pkt.predicates.length - 1 - (pkt.predicates.length - 1 - k) = k := by omega
    have timeIs : (infos (pkt.predicates.length - 1 - k)).timestamp = time k := by
      simp only [infos, back]
    exact ⟨rfl, timeIs⟩
  have late : LaterThanWindows pkt pe last := fun k _ neg mem _ =>
    Nat.lt_of_le_of_lt (small neg mem) (later k)
  have agree := alike (holding pkt n x y) (stacksHolding n x) (fun _ _ => true) (unsetPasser pkt)
    infos left pe last rfl holds assigns late one before
  have both := (invalidates_iff bounded holds plain assigns before).symm.trans
    (agree.trans (checkNegation_iff_checkedIn holds plain one before))
  have spanIs : ∀ {neg : Negation} (c : Nat), neg ∈ pkt.negations →
      neg.deviceSpan c (fun k => pe.timeOf k) ((holding pkt n x y).staleTimes left c) =
        neg.deviceSpan c time stale := by
    intro neg c mem
    obtain ⟨upper, upperLt, -, -⟩ := bounded.negations neg mem
    have back : pkt.predicates.length - 1 - (pkt.predicates.length - 1 - neg.upperId.toNat) =
        neg.upperId.toNat := by omega
    apply Negation.deviceSpan_congr
    · intro k _
      rfl
    · have kept : stale (pkt.predicates.length - 1 -
          (pkt.predicates.length - 1 - neg.upperId.toNat)) = stale neg.upperId.toNat := by rw [back]
      exact kept
  have boundsIs : ∀ {neg : Negation} {c : Nat}, 1 ≤ c → neg ∈ pkt.negations → neg.CheckedIn c →
      negationBounds neg pe = neg.deviceSpan c time stale := by
    intro neg c pos mem checked
    rw [← spanIs c mem]
    exact (Negation.deviceSpan_eq (bounded.negations neg mem) pos checked pe _ fun _ =>
      Nat.le_of_lt (Nat.lt_of_le_of_lt (small neg mem) (later neg.upperId.toNat))).symm
  constructor
  · rintro ⟨c, pos, le, i, a, at_, found, within⟩
    rw [← spanIs c (List.mem_of_getElem? found)] at within
    obtain ⟨c', pos', le', n', b, foundB, checked, event, mem, within'⟩ := both.mp
      ⟨c, pos, le, i, n, a, at_, found, 0, lt_length_stacksHolding.mpr ⟨rfl, rfl⟩, within⟩
    obtain ⟨rfl, rfl⟩ := mem_stacksHolding.mp mem
    rw [boundsIs pos' (List.mem_of_getElem? foundB) checked] at within'
    exact ⟨c', pos', le', b, foundB, checked, within'⟩
  · rintro ⟨c, pos, le, b, foundB, checked, within⟩
    rw [← boundsIs pos (List.mem_of_getElem? foundB) checked] at within
    obtain ⟨c', pos', le', i, n', a, at_, found, k, inside, within'⟩ := both.mpr
      ⟨c, pos, le, n, b, foundB, checked, packetAt x, mem_stacksHolding.mpr ⟨rfl, rfl⟩, within⟩
    obtain ⟨rfl, rfl⟩ := lt_length_stacksHolding.mp inside
    rw [spanIs c' (List.mem_of_getElem? found)] at within'
    exact ⟨c', pos', le', i, a, at_, found, within'⟩

/-- A negation is packed at one index of one turn only, the one that the CPU checks it in, so that
the event fails there exactly if it fails on the CPU. -/
theorem within_iff_of_alike {pkt : RulePkt} (bounded : pkt.Bounded) (plain : pkt.PlainNegations)
    (alike : Alike pkt) {c i n w : Nat} {a b : Negation} (one : 1 ≤ c)
    (before : c < pkt.predicates.length)
    (at_ : (pkt.negationsFor (pkt.predicates.length - 1 - c))[i]? = some n)
    (found : pkt.negations[i]? = some a) (foundB : pkt.negations[n]? = some b)
    (checked : b.CheckedIn c) (small : ∀ neg ∈ pkt.negations, neg.lowerTime ≤ w)
    {time : Nat → Nat} (stale : Nat → Nat) (x y : Nat) (later : ∀ i, w < time i) :
    Within ((holding pkt n x y).timeAt
        ((holding pkt n x y).packedAfter (unsetPasser pkt) c) i 0) (a.deviceSpan c time stale) ↔
      Within x (b.deviceSpan c time stale) := by
  have memB := List.mem_of_getElem? foundB
  have agree := exists_within_iff_of_alike bounded plain alike one before
    (List.getElem?_eq_some_iff.mp foundB).1 small stale x y later
  constructor
  · intro within
    obtain ⟨c', one', -, b', foundB', checked', within'⟩ := agree.mp
      ⟨c, one, Nat.le_refl c, i, a, at_, found, within⟩
    cases foundB'.symm.trans foundB
    cases RulePkt.checkedIn_unique bounded memB one' one checked' checked
    exact within'
  · intro within
    obtain ⟨c', one', le', i', a', at', found', within'⟩ := agree.mpr
      ⟨c, one, Nat.le_refl c, b, foundB, checked, within⟩
    obtain ⟨b', foundB', checked'⟩ := (RulePkt.mem_negationsFor bounded one'
      (Nat.lt_of_le_of_lt le' before)).mp (List.mem_of_getElem? at')
    cases foundB'.symm.trans foundB
    cases RulePkt.checkedIn_unique bounded memB one' one checked' checked
    have nodup := pkt.nodup_negationsFor (pkt.predicates.length - 1 - c)
    cases (List.getElem?_inj (List.getElem?_eq_some_iff.mp at').1 nodup).mp (at'.trans at_.symm)
    cases found'.symm.trans found
    exact within'

theorem boundsMatch_of_alike {pkt : RulePkt} (bounded : pkt.Bounded) (plain : pkt.PlainNegations)
    (alike : Alike pkt) : BoundsMatch pkt := by
  intro state inside i n a b at_ found foundB
  obtain ⟨c, one, before, rfl⟩ : ∃ c, 1 ≤ c ∧ c < pkt.predicates.length ∧
      state = pkt.predicates.length - 1 - c := ⟨pkt.predicates.length - 1 - state, by omega⟩
  have memA := List.mem_of_getElem? found
  have memB := List.mem_of_getElem? foundB
  obtain ⟨b', foundB', checked⟩ := (RulePkt.mem_negationsFor bounded one before).mp
    (List.mem_of_getElem? at_)
  cases foundB'.symm.trans foundB
  obtain ⟨w, small⟩ := exists_window_bound pkt.negations
  have agree := fun (time stale : Nat → Nat) (x y : Nat) (later : ∀ i, w < time i) =>
    within_iff_of_alike bounded plain alike one before at_ found foundB checked small stale x y
      later
  by_cases pagesMatch : PagesMatch pkt (pkt.predicates.length - 1 - c) i n
  · refine ⟨?_, .inr pagesMatch⟩
    apply Negation.sameBounds_of_within_iff (bounded.negations a memA) (bounded.negations b memB)
      one checked (fun _ => small a memA) (fun _ => small b memB)
    intro time stale x later
    have here := agree time stale x x later
    rwa [timeAt_of_pagesMatch bounded (holding_holds (List.getElem?_eq_some_iff.mp foundB).1 x x)
        one before (unsetPasser pkt) at_ pagesMatch
        (show ((stacksHolding n x).negs n).received[0]? = some (packetAt x) by
          rw [stacksHolding_self]; rfl)] at here
  · -- the event is not the one that the device reads
    have apart : ∀ (time stale : Nat → Nat) (x y : Nat), (∀ i, w < time i) →
        (Within y (a.deviceSpan c time stale) ↔ Within x (b.deviceSpan c time stale)) := by
      intro time stale x y later
      have here := agree time stale x y later
      rwa [timeAt_of_not_pagesMatch x y bounded one before at_ pagesMatch] at here
    have never : ∀ (span : Nat × Nat), ¬ Within 0 span := fun span within =>
      Nat.not_lt_zero _ within.1
    have noRoomA : a.NoRoom := Negation.noRoom_of_never (fun _ => small a memA)
      fun time stale y later within => never _ ((apart time stale 0 y later).mp within)
    have noRoomB : b.NoRoom := Negation.noRoom_of_never (fun _ => small b memB)
      fun time stale x later within => never _ ((apart time stale x 0 later).mpr within)
    exact ⟨.inr ⟨noRoomA.1, noRoomB.1, .inr ⟨noRoomA.2, noRoomB.2⟩⟩, .inl noRoomA⟩

/-- Three states; no event of one type in the five time units before the second one, and none of
another type between the third one and the terminator. -/
def twoNegations : RulePkt :=
  { ruleId := 0
    predicates := [⟨1, [], -1, 0, .eachWithin⟩, ⟨2, [], 0, 10, .eachWithin⟩,
      ⟨3, [], 1, 10, .eachWithin⟩]
    parameters := []
    negations := [⟨4, [], -1, 5, 1⟩, ⟨5, [], 2, 0, 0⟩]
    aggregates := []
    consuming := []
    complexParameters := []
    ceTemplate := none }

theorem twoNegations_built : twoNegations.Built :=
  .call (.addNegationBetweenStates 5 [] 0 2 0)
    (.call (.addTimeBasedNegation 4 [] 1 5)
      (.call (.addPredicate 3 [] 1 10 .eachWithin)
        (.call (.addPredicate 2 [] 0 10 .eachWithin)
          (.call (.addRootPredicate 1 []) (.new true 0) rfl) rfl) rfl) rfl) rfl

theorem twoNegations_plain : twoNegations.PlainNegations := fun _ mem => nomatch mem

end GPUProcessor

end TRex
