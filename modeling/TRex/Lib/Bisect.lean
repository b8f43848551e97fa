import Mathlib.Data.Nat.Count
import Mathlib.Order.Bounds.Basic
import Mathlib.Tactic.Common

/-!
# Bisection of an index bracket

`Bisect.narrow below fuel lo hi` is the loop that halves the bracket `lo .. hi` until its ends are
equal or adjacent: the midpoint becomes the lower end where `below` holds and the upper end where it
does not. Nothing is assumed of `below`; `narrow_spec` says what the two ends of the final bracket
satisfy. Where `below` holds up to some number only, the boundary is read off them
(`Narrowed.isLeast_first`, `Narrowed.isGreatest_last`); where it does not, `narrow_eq_iff` says at
which midpoints it matters for the loop to end at a given bracket.

`narrowInt` and `narrowEnds` are the loop on integers and with a test that may have no answer; the
second keeps the places that the two ends stand for beside them.
-/

namespace Bisect

/-- Halve the bracket `lo .. hi` while it has length above one. -/
def narrow (below : Nat → Bool) : Nat → Nat → Nat → Nat × Nat
  | 0, lo, hi => (lo, hi)
  | fuel + 1, lo, hi =>
    if hi - lo > 1 then
      let mid := lo + (hi - lo) / 2
      if below mid then narrow below fuel mid hi else narrow below fuel lo mid
    else (lo, hi)

/-- What the bracket left by the loop satisfies: it lies in the starting bracket, its ends are equal
or adjacent, and an end that moved was tested. -/
structure Narrowed (below : Nat → Bool) (lo hi : Nat) (bracket : Nat × Nat) : Prop where
  lower : lo ≤ bracket.1
  ordered : bracket.1 ≤ bracket.2
  upper : bracket.2 ≤ hi
  adjacent : bracket.2 - bracket.1 ≤ 1
  below_or_start : bracket.1 = lo ∨ below bracket.1 = true
  above_or_start : bracket.2 = hi ∨ below bracket.2 = false
  /-- A proper bracket never collapses. -/
  proper : lo < hi → bracket.1 < bracket.2

/-- With as much fuel as the bracket is long, the loop ends with equal or adjacent ends. -/
theorem narrow_spec (below : Nat → Bool) {fuel lo hi : Nat} (ordered : lo ≤ hi)
    (enough : hi - lo ≤ fuel) : Narrowed below lo hi (narrow below fuel lo hi) := by
  induction fuel generalizing lo hi with
  | zero =>
      exact ⟨Nat.le_refl _, ordered, Nat.le_refl _, by simp only [narrow]; omega, .inl rfl,
        .inl rfl,
        fun proper => proper⟩
  | succ fuel ih =>
      by_cases wide : hi - lo > 1
      · by_cases test : below (lo + (hi - lo) / 2) = true
        · -- the lower end moves to a tested midpoint
          have step := @ih (lo + (hi - lo) / 2) hi (by omega) (by omega)
          rw [narrow, if_pos wide]
          simp only [test, ↓reduceIte]
          refine ⟨by have := step.lower; omega, step.ordered, step.upper, step.adjacent, ?_,
            step.above_or_start, fun _ => step.proper (by omega)⟩
          rcases step.below_or_start with start | tested
          · rw [start]; exact .inr test
          · exact .inr tested
        · have step := @ih lo (lo + (hi - lo) / 2) (by omega) (by omega)
          rw [narrow, if_pos wide]
          simp only [test, ↓reduceIte, Bool.false_eq_true]
          refine ⟨step.lower, step.ordered, by have := step.upper; omega, step.adjacent,
            step.below_or_start, ?_, fun _ => step.proper (by omega)⟩
          rcases step.above_or_start with start | tested
          · exact .inr (by rw [start]; simpa using test)
          · exact .inr tested
      · rw [narrow, if_neg wide]
        exact ⟨Nat.le_refl _, ordered, Nat.le_refl _, by omega, .inl rfl, .inl rfl,
          fun proper => proper⟩

/-- A bracket of at least two numbers ends as two neighbours. -/
theorem exists_narrow_eq (below : Nat → Bool) {fuel lo hi : Nat} (enough : hi - lo ≤ fuel)
    (lt : lo < hi) :
    ∃ k, lo ≤ k ∧ k < hi ∧ narrow below fuel lo hi = (k, k + 1) ∧
      (k = lo ∨ below k = true) ∧ (k + 1 = hi ∨ below (k + 1) = false) := by
  obtain ⟨lower, -, upper, adjacent, low, high, proper⟩ :=
    narrow_spec below (Nat.le_of_lt lt) enough
  have apart := proper lt
  have next : (narrow below fuel lo hi).2 = (narrow below fuel lo hi).1 + 1 := by omega
  rw [next] at high
  exact ⟨_, lower, by omega, Prod.ext rfl next, low, high⟩

/-! ## The boundary -/

section Boundary

variable {below : Nat → Bool} {lo hi : Nat} {bracket : Nat × Nat}

/-- What is before a number that `below` holds of is below, too. -/
def Initial (below : Nat → Bool) (lo hi : Nat) : Prop :=
  ∀ k l, lo ≤ k → k ≤ l → l ≤ hi → below l = true → below k = true

/-- The numbers below are counted. -/
theorem lt_count_iff {n : Nat} (initial : ∀ k l, k ≤ l → l < n → below l = true →
    below k = true) {k : Nat} (lt : k < n) :
    below k = true ↔ k < Nat.count (fun l => below l = true) n := by
  induction n with
  | zero => omega
  | succ n ih =>
      rw [Nat.count_succ]
      by_cases last : below n = true
      · -- then all of them are below
        have all : Nat.count (fun l => below l = true) n = n :=
          Nat.count_iff_forall.mpr fun l before =>
            initial l n (Nat.le_of_lt before) (Nat.lt_succ_self n) last
        rw [if_pos last, all]
        exact iff_of_true (initial k n (Nat.le_of_lt_succ lt) (Nat.lt_succ_self n) last) lt
      · rw [if_neg last, Nat.add_zero]
        rcases Nat.lt_succ_iff_lt_or_eq.mp lt with before | same
        · exact ih (fun k l le inside => initial k l le (Nat.lt_succ_of_lt inside)) before
        · have few := Nat.count_le (p := fun l => below l = true) (n := n)
          rw [same]
          exact iff_of_false last (Nat.not_lt.mpr few)

theorem Narrowed.isLeast_first (narrowed : Narrowed below lo hi bracket)
    (initial : Initial below lo hi) (above : below hi = false) :
    IsLeast {k | lo ≤ k ∧ k ≤ hi ∧ below k = false}
      (if bracket.2 - bracket.1 = 0 then bracket.1
        else if below bracket.1 = false then bracket.1 else bracket.2) := by
  obtain ⟨lower, ordered, upper, adjacent, low, high, -⟩ := narrowed
  have highAbove : below bracket.2 = false := by
    rcases high with stays | tested
    · rw [stays]
      exact above
    · exact tested
  cases test : below bracket.1 with
  | false =>
      -- the lower end has never moved
      have start : bracket.1 = lo := by
        rcases low with stays | tested
        · exact stays
        · exact absurd (tested.symm.trans test) (by decide)
      rw [if_pos rfl, ite_self]
      exact ⟨⟨lower, by omega, test⟩, fun k above' => start ▸ above'.1⟩
  | true =>
      have apart : bracket.2 ≠ bracket.1 := by
        intro same
        rw [same, test] at highAbove
        cases highAbove
      rw [if_neg (by omega), if_neg (by decide)]
      refine ⟨⟨by omega, upper, highAbove⟩, fun k above' => ?_⟩
      by_contra before
      have old := initial k bracket.1 above'.1 (by omega) (by omega) test
      rw [above'.2.2] at old
      cases old

theorem Narrowed.isGreatest_last (narrowed : Narrowed below lo hi bracket)
    (initial : Initial below lo hi) (start : below lo = true) :
    IsGreatest {k | lo ≤ k ∧ k ≤ hi ∧ below k = true}
      (if bracket.2 - bracket.1 = 0 then bracket.1
        else if below bracket.2 = true then bracket.2 else bracket.1) := by
  obtain ⟨lower, ordered, upper, adjacent, low, high, -⟩ := narrowed
  have lowBelow : below bracket.1 = true := by
    rcases low with stays | tested
    · rw [stays]
      exact start
    · exact tested
  cases test : below bracket.2 with
  | true =>
      -- the upper end has never moved
      have stop : bracket.2 = hi := by
        rcases high with stays | tested
        · exact stays
        · exact absurd (tested.symm.trans test) (by decide)
      have same : (if bracket.2 - bracket.1 = 0 then bracket.1 else bracket.2) = bracket.2 := by
        split <;> omega
      rw [if_pos rfl, same]
      exact ⟨⟨by omega, upper, test⟩, fun k below' => stop ▸ below'.2.1⟩
  | false =>
      have apart : bracket.2 ≠ bracket.1 := by
        intro same
        rw [same, lowBelow] at test
        cases test
      rw [if_neg (by omega), if_neg (by decide)]
      refine ⟨⟨lower, by omega, lowBelow⟩, fun k below' => ?_⟩
      by_contra after
      have old := initial bracket.2 k (by omega) (by omega) below'.2.1 below'.2.2
      rw [test] at old
      cases old

end Boundary

/-! ## The way to a bracket -/

/-- The midpoints that the loop comes to if it ends with `target` as its lower end. -/
def path (target : Nat) : Nat → Nat → Nat → List Nat
  | 0, _, _ => []
  | fuel + 1, lo, hi =>
    if hi - lo > 1 then
      let mid := lo + (hi - lo) / 2
      mid :: if mid ≤ target then path target fuel mid hi else path target fuel lo mid
    else []

theorem narrow_eq_iff (below : Nat → Bool) {fuel lo hi target : Nat} (enough : hi - lo ≤ fuel)
    (ge : lo ≤ target) (lt : target < hi) :
    narrow below fuel lo hi = (target, target + 1) ↔
      ∀ mid ∈ path target fuel lo hi, (below mid = true ↔ mid ≤ target) := by
  induction fuel generalizing lo hi with
  | zero => omega
  | succ fuel ih =>
      rw [narrow, path]
      by_cases wide : hi - lo > 1
      · rw [if_pos wide, if_pos wide]
        dsimp only
        rw [List.forall_mem_cons]
        by_cases left : lo + (hi - lo) / 2 ≤ target
        · rw [if_pos left]
          cases test : below (lo + (hi - lo) / 2) with
          | true =>
              rw [if_pos rfl, ih (by omega) left lt]
              exact (and_iff_right (iff_of_true rfl left)).symm
          | false =>
              rw [if_neg (by decide)]
              -- the loop stays on the left of the target
              have upper := (@narrow_spec below fuel _ _ (show lo ≤ lo + (hi - lo) / 2 by omega)
                (by omega)).upper
              refine iff_of_false (fun same => ?_) fun agrees =>
                Bool.false_ne_true (agrees.1.mpr left)
              rw [same] at upper
              omega
        · rw [if_neg left]
          cases test : below (lo + (hi - lo) / 2) with
          | false =>
              rw [if_neg (by decide), ih (by omega) ge (by omega)]
              exact (and_iff_right (iff_of_false Bool.false_ne_true left)).symm
          | true =>
              rw [if_pos rfl]
              have lower := (@narrow_spec below fuel _ _ (show lo + (hi - lo) / 2 ≤ hi by omega)
                (by omega)).lower
              refine iff_of_false (fun same => ?_) fun agrees => left (agrees.1.mp rfl)
              rw [same] at lower
              omega
      · rw [if_neg wide, if_neg wide]
        refine iff_of_true ?_ (List.forall_mem_nil _)
        rw [show lo = target by omega, show hi = target + 1 by omega]

/-! ## The loop on integers -/

/-- The loop where the test may have no answer. It is `none` then, and where the fuel runs out. -/
def narrowInt (below : Int → Option Bool) : Nat → Int → Int → Option (Int × Int)
  | 0, lo, hi => if hi - lo > 1 then none else some (lo, hi)
  | fuel + 1, lo, hi =>
    if hi - lo > 1 then do
      let mid := lo + (hi - lo) / 2
      if ← below mid then narrowInt below fuel mid hi else narrowInt below fuel lo mid
    else some (lo, hi)

/-- The two ends of a bracket, and the places that they stand for. -/
structure Ends where
  lo : Int
  hi : Int
  atLo : Int
  atHi : Int

/-- The loop where each end carries its place along. The test is asked for places. -/
def narrowEnds (place : Int → Int) (below : Int → Option Bool) : Nat → Ends → Option Ends
  | 0, e => if e.hi - e.lo > 1 then none else some e
  | fuel + 1, e =>
    if e.hi - e.lo > 1 then do
      let mid := e.lo + (e.hi - e.lo) / 2
      if ← below (place mid) then
        narrowEnds place below fuel { e with lo := mid, atLo := place mid }
      else narrowEnds place below fuel { e with hi := mid, atHi := place mid }
    else some e

section Integers

variable {fuel lo hi : Nat}

theorem cast_mid (ordered : lo ≤ hi) :
    (lo : Int) + ((hi : Int) - lo) / 2 = (lo + (hi - lo) / 2 : Nat) := by
  omega

theorem narrowInt_eq (below : Nat → Bool) (test : Int → Option Bool) (ordered : lo ≤ hi)
    (enough : hi - lo ≤ fuel)
    (tests : ∀ mid : Nat, lo < mid → mid < hi → test mid = some (below mid)) :
    narrowInt test fuel lo hi =
      some (((narrow below fuel lo hi).1 : Int), ((narrow below fuel lo hi).2 : Int)) := by
  induction fuel generalizing lo hi with
  | zero => exact if_neg (by omega)
  | succ fuel ih =>
      rw [narrowInt, narrow]
      by_cases wide : hi - lo > 1
      · rw [if_pos wide, if_pos (by omega)]
        dsimp only
        rw [cast_mid ordered, tests _ (by omega) (by omega), Option.bind_eq_bind, Option.bind_some]
        by_cases answer : below (lo + (hi - lo) / 2) = true
        · rw [if_pos answer, if_pos answer]
          exact ih (by omega) (by omega) fun mid gt lt => tests mid (by omega) lt
        · rw [if_neg answer, if_neg answer]
          exact ih (by omega) (by omega) fun mid gt lt => tests mid gt (by omega)
      · rw [if_neg wide, if_neg (by omega)]

theorem at_eq_place (place : Int → Int) (k mid : Nat) :
    (if k = mid then place mid else place k) = place k := by
  split
  case isTrue same => rw [same]
  case isFalse => rfl

/-- An end that has moved stands for its place. -/
theorem narrowEnds_eq (below : Nat → Bool) (place : Int → Int) (test : Int → Option Bool)
    (atLo atHi : Int) (ordered : lo ≤ hi) (enough : hi - lo ≤ fuel)
    (tests : ∀ mid : Nat, lo < mid → mid < hi → test (place mid) = some (below mid)) :
    narrowEnds place test fuel ⟨lo, hi, atLo, atHi⟩ =
      some ⟨(narrow below fuel lo hi).1, (narrow below fuel lo hi).2,
        if (narrow below fuel lo hi).1 = lo then atLo else place (narrow below fuel lo hi).1,
        if (narrow below fuel lo hi).2 = hi then atHi else place (narrow below fuel lo hi).2⟩ := by
  induction fuel generalizing lo hi atLo atHi with
  | zero =>
      rw [narrow, if_pos rfl, if_pos rfl]
      exact if_neg (by simp only; omega)
  | succ fuel ih =>
      rw [narrowEnds, narrow]
      by_cases wide : hi - lo > 1
      · rw [if_pos wide, if_pos (by simp only; omega)]
        dsimp only
        rw [cast_mid ordered, tests _ (by omega) (by omega), Option.bind_eq_bind, Option.bind_some]
        have left : lo < lo + (hi - lo) / 2 := by omega
        have right : lo + (hi - lo) / 2 < hi := by omega
        generalize lo + (hi - lo) / 2 = mid at left right ⊢
        by_cases answer : below mid = true
        · have lower := (@narrow_spec below fuel _ _ (show mid ≤ hi by omega) (by omega)).lower
          rw [if_pos answer, if_pos answer,
            ih _ _ (by omega) (by omega) fun k gt lt => tests k (by omega) lt,
            if_neg (show (narrow below fuel mid hi).1 ≠ lo by omega), at_eq_place]
        · have upper := (@narrow_spec below fuel _ _ (show lo ≤ mid by omega) (by omega)).upper
          rw [if_neg answer, if_neg answer,
            ih _ _ (by omega) (by omega) fun k gt lt => tests k gt (by omega),
            if_neg (show (narrow below fuel lo mid).2 ≠ hi by omega), at_eq_place]
      · rw [if_neg wide, if_neg (by simp only; omega), if_pos rfl, if_pos rfl]

end Integers

end Bisect
