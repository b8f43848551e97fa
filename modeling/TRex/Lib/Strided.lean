import Mathlib.Algebra.BigOperators.Intervals
import Mathlib.Algebra.Order.BigOperators.Group.Finset
import Mathlib.Algebra.Order.Group.Nat
import Mathlib.Tactic.Common

/-!
# Strided loops with a flag

The workers of a grid share the numbers below a bound: each begins at a lane of its own and goes on
by the number of lanes, two lanes to a worker. A worker keeps a flag for each of its lanes, which a
number that fails the test clears, and which nothing sets again. So a number counts exactly if
it and all earlier numbers of its lane pass (`Kept`), and the workers' counts add up to the count
over all numbers, in whatever way lanes are dealt out (`sum_lanes`).
-/

namespace Strided

open Finset

/-! ## Sums over a grid -/

theorem sum_range_mul (f : Nat → Nat) (rows columns : Nat) :
    ∑ i ∈ range (rows * columns), f i =
      ∑ row ∈ range rows, ∑ column ∈ range columns, f (row * columns + column) := by
  induction rows with
  | zero => simp
  | succ rows ih => rw [Nat.succ_mul, sum_range_add, ih, sum_range_succ]

/-- The lanes of all blocks, each with the lane that is half a block further on. -/
theorem sum_blocks (f : Nat → Nat) (blocks half : Nat) :
    ∑ block ∈ range blocks, ∑ t ∈ range half,
        (f (block * (half * 2) + t) + f (block * (half * 2) + t + half)) =
      ∑ lane ∈ range (half * 2 * blocks), f lane := by
  rw [Nat.mul_comm (half * 2), sum_range_mul]
  refine sum_congr rfl fun block _ => ?_
  rw [Nat.mul_two half, sum_range_add, sum_add_distrib]
  congr 1
  refine sum_congr rfl fun t _ => ?_
  rw [Nat.add_assoc, Nat.add_comm t half]

/-- The turns of all lanes together go once over the numbers. -/
theorem sum_lanes (f : Nat → Nat → Nat) (blocks half turns : Nat) (some' : 0 < half * 2 * blocks) :
    ∑ block ∈ range blocks, ∑ t ∈ range half, ∑ turn ∈ range turns,
        (f (block * (half * 2) + t) turn + f (block * (half * 2) + t + half) turn) =
      ∑ i ∈ range (turns * (half * 2 * blocks)),
        f (i % (half * 2 * blocks)) (i / (half * 2 * blocks)) := by
  have lanes : ∀ block t, ∑ turn ∈ range turns,
      (f (block * (half * 2) + t) turn + f (block * (half * 2) + t + half) turn) =
      ∑ turn ∈ range turns, f (block * (half * 2) + t) turn +
        ∑ turn ∈ range turns, f (block * (half * 2) + t + half) turn :=
    fun block t => sum_add_distrib
  simp only [lanes]
  rw [sum_blocks fun lane => ∑ turn ∈ range turns, f lane turn, sum_comm, sum_range_mul]
  refine sum_congr rfl fun turn _ => sum_congr rfl fun lane mem => ?_
  have inside := mem_range.mp mem
  rw [Nat.add_comm, Nat.add_mul_mod_self_right, Nat.mod_eq_of_lt inside,
    Nat.add_mul_div_right _ _ some', Nat.div_eq_of_lt inside, Nat.zero_add]

/-! ## Flags -/

variable (passes : Nat → Bool) (stride : Nat)

/-- The flag of a lane after a turn. -/
def kept (lane turn : Nat) : Bool := (List.range (turn + 1)).all fun j => passes (lane + j * stride)

variable {passes stride}

theorem kept_iff {lane turn : Nat} :
    kept passes stride lane turn = true ↔ ∀ j ≤ turn, passes (lane + j * stride) = true := by
  simp only [kept, List.all_eq_true, List.mem_range, Nat.lt_succ_iff]

theorem kept_zero (lane : Nat) : kept passes stride lane 0 = passes lane := by
  simp [kept]

theorem kept_succ (lane turn : Nat) :
    kept passes stride lane (turn + 1) =
      (passes lane && kept passes stride (lane + stride) turn) := by
  unfold kept
  rw [List.range_succ_eq_map, List.all_cons, List.all_map, Nat.zero_mul, Nat.add_zero]
  congr 2
  funext j
  simp only [Function.comp, Nat.succ_mul]
  congr 1
  omega

theorem passes_of_kept {lane turn : Nat} (is : kept passes stride lane turn = true) :
    passes (lane + turn * stride) = true :=
  kept_iff.mp is turn (Nat.le_refl _)

/-- What a flag adds up to over the turns, from the first turn on. -/
theorem sum_flag (ok : Bool) (lane turns : Nat) :
    ∑ turn ∈ range (turns + 1), (ok && kept passes stride lane turn).toNat =
      (ok && passes lane).toNat +
        ∑ turn ∈ range turns,
          ((ok && passes lane) && kept passes stride (lane + stride) turn).toNat := by
  rw [sum_range_succ', Nat.add_comm, kept_zero]
  simp only [kept_succ, Bool.and_assoc]

/-- A lane that passes nothing any more adds nothing. -/
theorem sum_flag_of_not (ok : Bool) {lane : Nat} (turns : Nat) (fails : passes lane = false) :
    ∑ turn ∈ range turns, (ok && kept passes stride lane turn).toNat = 0 := by
  refine sum_eq_zero fun turn _ => ?_
  have cleared : kept passes stride lane turn = false := by
    refine Bool.eq_false_iff.mpr fun is => ?_
    have first := kept_iff.mp is 0 (Nat.zero_le _)
    rw [Nat.zero_mul, Nat.add_zero, fails] at first
    cases first
  rw [cleared, Bool.and_false]
  rfl

/-- Numbers from the end on count for nothing, however many turns there are. -/
theorem sum_flag_lanes {size turns : Nat} (enough : size ≤ turns * stride)
    (stop : ∀ i, passes i = true → i < size) :
    ∑ i ∈ range (turns * stride), (kept passes stride (i % stride) (i / stride)).toNat =
      ∑ i ∈ range size, (kept passes stride (i % stride) (i / stride)).toNat := by
  symm
  refine sum_subset (range_mono enough) fun i _ outside => ?_
  have cleared : kept passes stride (i % stride) (i / stride) = false := by
    refine Bool.eq_false_iff.mpr fun is => ?_
    have reached := stop _ (passes_of_kept is)
    rw [Nat.mul_comm, Nat.mod_add_div] at reached
    exact outside (mem_range.mpr reached)
  rw [cleared]
  rfl

theorem sum_map_range (f : Nat → Nat) (n : Nat) : ((List.range n).map f).sum = ∑ i ∈ range n, f i :=
  rfl

theorem countP_range (p : Nat → Bool) (n : Nat) :
    (List.range n).countP p = ∑ i ∈ range n, (p i).toNat := by
  induction n with
  | zero => rfl
  | succ n ih =>
    rw [List.range_succ, List.countP_append, ih, sum_range_succ, List.countP_singleton]
    cases p n <;> rfl

theorem toNat_injective {a b : Bool} (same : a.toNat = b.toNat) : a = b := by
  cases a <;> cases b <;> trivial

/-- Where one test implies the other, they count alike only if they agree on every number. -/
theorem sum_toNat_eq_iff {p q : Nat → Bool} {n : Nat} (le : ∀ i < n, p i = true → q i = true) :
    ∑ i ∈ range n, (p i).toNat = ∑ i ∈ range n, (q i).toNat ↔ ∀ i < n, p i = q i := by
  have below : ∀ i ∈ range n, (p i).toNat ≤ (q i).toNat := by
    intro i mem
    have := le i (mem_range.mp mem)
    cases hp : p i with
    | false => exact Nat.zero_le _
    | true => rw [this hp]
  rw [sum_eq_sum_iff_of_le below]
  refine ⟨fun same i inside => toNat_injective (same i (mem_range.mpr inside)), ?_⟩
  intro same i mem
  rw [same i (mem_range.mp mem)]

end Strided
