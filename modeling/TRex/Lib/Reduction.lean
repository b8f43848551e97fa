import Mathlib.Algebra.BigOperators.Group.List.Basic
import Mathlib.Data.List.Range
import Mathlib.Logic.Function.Basic
import Mathlib.Order.Bounds.Basic
import Mathlib.Order.MinMax
import Mathlib.Tactic.Common

/-!
# Reduction in shared memory

A block of threads combines its cells in stages: in each one a thread below the stride takes in the
cell that is the stride further on, so that half of the cells are left. In front of a barrier the
threads of a stage run in any order, as none of them reads a cell that another one writes. The lanes
of a warp do not wait for one another: they all read before any of them writes, and lanes past the
stride take in cells that are of no use any more.

With an operation that is associative and commutative the first cell ends up with all of them
(`run_halves`).
-/

namespace Reduction

variable {α : Type*} (op : α → α → α)

/-- The first `n` cells together. -/
def total (cells : Nat → α) : Nat → α
  | 0 | 1 => cells 0
  | n + 2 => op (total cells (n + 1)) (cells (n + 1))

/-- What a stage is for. -/
def Halves (stride : Nat) (before after : Nat → α) : Prop :=
  ∀ i < stride, after i = op (before i) (before (i + stride))

/-! ## Stages -/

def takeIn (stride : Nat) (cells : Nat → α) (tid : Nat) : Nat → α :=
  Function.update cells tid (op (cells tid) (cells (tid + stride)))

def lockstep (lanes stride : Nat) (cells : Nat → α) : Nat → α := fun tid =>
  if tid < lanes then op (cells tid) (cells (tid + stride)) else cells tid

variable {op} {cells : Nat → α} {stride : Nat}

theorem foldl_takeIn {order : List Nat} (nodup : order.Nodup) (below : ∀ t ∈ order, t < stride)
    (i : Nat) : order.foldl (takeIn op stride) cells i =
      if i ∈ order then op (cells i) (cells (i + stride)) else cells i := by
  induction order generalizing cells with
  | nil => simp
  | cons t rest ih =>
    obtain ⟨fresh, nodup⟩ := List.nodup_cons.mp nodup
    have here := below t List.mem_cons_self
    -- No later thread reads the cell that this one writes.
    have unread : takeIn op stride cells t (i + stride) = cells (i + stride) :=
      Function.update_of_ne (by omega) _ _
    rw [List.foldl_cons, ih nodup fun u mem => below u (List.mem_cons_of_mem t mem), unread]
    by_cases own : i = t
    · subst own
      simp [fresh, takeIn]
    · simp [own, takeIn]

theorem halves_takeIn {order : List Nat} (perm : order.Perm (List.range stride)) :
    Halves op stride cells (order.foldl (takeIn op stride) cells) := by
  intro i below
  rw [foldl_takeIn (perm.nodup_iff.mpr List.nodup_range) fun t mem =>
      List.mem_range.mp (perm.mem_iff.mp mem),
    if_pos (perm.mem_iff.mpr (List.mem_range.mpr below))]

theorem halves_lockstep {lanes : Nat} (enough : stride ≤ lanes) :
    Halves op stride cells (lockstep op lanes stride cells) :=
  fun _ below => if_pos (Nat.lt_of_lt_of_le below enough)

/-! ## Totals -/

theorem total_congr {f g : Nat → α} {n : Nat} (same : ∀ i < n, f i = g i) (pos : 0 < n) :
    total op f n = total op g n := by
  induction n with
  | zero => exact absurd pos (Nat.lt_irrefl 0)
  | succ n ih =>
    cases n with
    | zero => exact same 0 pos
    | succ n =>
      simp only [total]
      rw [ih (fun i below => same i (Nat.lt_succ_of_lt below)) (Nat.succ_pos n),
        same (n + 1) (Nat.lt_succ_self _)]

theorem total_const {c : α} (idem : op c c = c) (n : Nat) : total op (fun _ => c) n = c := by
  induction n with
  | zero => rfl
  | succ n ih =>
    cases n with
    | zero => rfl
    | succ n =>
      rw [total, ih]
      exact idem

/-! ### Totals of numbers -/

theorem total_add_eq_sum {M : Type*} [AddMonoid M] {f : Nat → M} {n : Nat} (pos : 0 < n) :
    total (· + ·) f n = ((List.range n).map f).sum := by
  induction n with
  | zero => exact absurd pos (Nat.lt_irrefl 0)
  | succ n ih =>
    rw [List.range_succ, List.map_append, List.sum_append]
    cases n with
    | zero => simp [total]
    | succ n => simp only [total, ih (Nat.succ_pos n), List.map_cons, List.map_nil,
        List.sum_singleton]

/-- Where the operation chooses one of its operands, so does the total. -/
theorem exists_eq_total (choose : ∀ x y, op x y = x ∨ op x y = y) {n : Nat} (pos : 0 < n) :
    ∃ i < n, cells i = total op cells n := by
  induction n with
  | zero => exact absurd pos (Nat.lt_irrefl 0)
  | succ n ih =>
    cases n with
    | zero => exact ⟨0, pos, rfl⟩
    | succ n =>
      rcases choose (total op cells (n + 1)) (cells (n + 1)) with left | right
      · obtain ⟨i, below, is⟩ := ih (Nat.succ_pos n)
        exact ⟨i, Nat.lt_succ_of_lt below, is.trans left.symm⟩
      · exact ⟨n + 1, Nat.lt_succ_self _, right.symm⟩

section Order

variable {β : Type*} [LinearOrder β] {f : Nat → β} {n : Nat}

theorem isGreatest_total (pos : 0 < n) : IsGreatest {x | ∃ i < n, f i = x} (total max f n) := by
  refine ⟨exists_eq_total max_choice pos, fun x found => ?_⟩
  obtain ⟨i, below, rfl⟩ := found
  clear pos
  induction n with
  | zero => exact absurd below (Nat.not_lt_zero i)
  | succ n ih =>
    cases n with
    | zero => rw [Nat.lt_one_iff.mp below]; exact le_rfl
    | succ n =>
      rcases Nat.lt_succ_iff_lt_or_eq.mp below with earlier | rfl
      · exact (ih earlier).trans (le_max_left _ _)
      · exact le_max_right _ _

theorem isLeast_total (pos : 0 < n) : IsLeast {x | ∃ i < n, f i = x} (total min f n) :=
  @isGreatest_total βᵒᵈ _ f n pos

/-- Cells that do not count hold a bound of those that do. -/
theorem isGreatest_total_ite {p : Nat → Bool} {b : β} (found : ∃ i < n, p i = true)
    (low : ∀ i < n, p i = true → b ≤ f i) :
    IsGreatest {x | ∃ i < n, p i = true ∧ f i = x}
      (total max (fun i => if p i then f i else b) n) := by
  obtain ⟨j, below, counts⟩ := found
  obtain ⟨⟨i, below', is⟩, greatest⟩ :=
    isGreatest_total (f := fun i => if p i then f i else b) (Nat.zero_lt_of_lt below)
  have upper : ∀ k < n, p k = true → f k ≤ total max (fun i => if p i then f i else b) n :=
    fun k below counts => greatest ⟨k, below, if_pos counts⟩
  refine ⟨?_, fun x counted => ?_⟩
  · cases counts' : p i with
    | true => exact ⟨i, below', counts', by rw [← is]; simp [counts']⟩
    | false =>
      have isBound : b = total max (fun i => if p i then f i else b) n := by
        rw [← is]
        simp [counts']
      refine ⟨j, below, counts, le_antisymm (upper j below counts) ?_⟩
      rw [← isBound]
      exact low j below counts
  · obtain ⟨k, below, counts, rfl⟩ := counted
    exact upper k below counts

theorem isLeast_total_ite {p : Nat → Bool} {b : β} (found : ∃ i < n, p i = true)
    (high : ∀ i < n, p i = true → f i ≤ b) :
    IsLeast {x | ∃ i < n, p i = true ∧ f i = x}
      (total min (fun i => if p i then f i else b) n) :=
  @isGreatest_total_ite βᵒᵈ _ f n p b found high

end Order

section Laws

variable [Std.Associative op]

theorem total_add {m n : Nat} (pos : 0 < m) (pos' : 0 < n) :
    total op cells (m + n) = op (total op cells m) (total op (fun i => cells (m + i)) n) := by
  induction n with
  | zero => exact absurd pos' (Nat.lt_irrefl 0)
  | succ n ih =>
    cases n with
    | zero =>
      obtain ⟨k, rfl⟩ := Nat.exists_eq_succ_of_ne_zero (Nat.ne_of_gt pos)
      rfl
    | succ n =>
      have last : total op cells (m + (n + 2)) =
          op (total op cells (m + (n + 1))) (cells (m + (n + 1))) := by
        obtain ⟨k, rfl⟩ := Nat.exists_eq_succ_of_ne_zero (Nat.ne_of_gt pos)
        have one : k.succ + (n + 2) = (k.succ + n) + 2 := rfl
        rw [one]
        rfl
      rw [last, ih (Nat.succ_pos n)]
      simp only [total]
      exact Std.Associative.assoc _ _ _

/-- Rows of equal length, each combined first. -/
theorem total_rows {m rows : Nat} (pos : 0 < m) (some' : 0 < rows) :
    total op (fun row => total op (fun i => cells (row * m + i)) m) rows =
      total op cells (rows * m) := by
  induction rows with
  | zero => exact absurd some' (Nat.lt_irrefl 0)
  | succ rows ih =>
    cases rows with
    | zero => simp [total]
    | succ rows =>
      have before : 0 < (rows + 1) * m := Nat.mul_pos (Nat.succ_pos rows) pos
      rw [Nat.succ_mul, total_add before pos, ← ih (Nat.succ_pos rows)]
      rfl

variable [Std.Commutative op]

theorem total_op {f g : Nat → α} {n : Nat} :
    total op (fun i => op (f i) (g i)) n = op (total op f n) (total op g n) := by
  induction n with
  | zero => rfl
  | succ n ih =>
    cases n with
    | zero => rfl
    | succ n =>
      simp only [total]
      rw [ih]
      ac_rfl

theorem Halves.total {after : Nat → α} (halves : Halves op stride cells after)
    (pos : 0 < stride) : total op after stride = total op cells (2 * stride) := by
  rw [total_congr halves pos, total_op, Nat.two_mul, total_add pos pos]
  congr 1
  exact total_congr (fun i _ => by rw [Nat.add_comm]) pos

/-! ## All stages -/

/-- The powers of two below the one given, from the greatest on. -/
def strides : Nat → List Nat
  | 0 => []
  | k + 1 => 2 ^ k :: strides k

variable (stage : Nat → (Nat → α) → Nat → α)

/-- The stages of a block: it has no use for strides that are too large. -/
def run (blockSize : Nat) (strides : List Nat) (cells : Nat → α) : Nat → α :=
  strides.foldl (fun cells stride =>
    if blockSize ≥ 2 * stride then stage stride cells else cells) cells

theorem run_strides {blockSize k : Nat} (size : blockSize = 2 ^ k)
    (halves : ∀ i cells, 2 * 2 ^ i ≤ blockSize → Halves op (2 ^ i) cells (stage (2 ^ i) cells))
    (j : Nat) : run stage blockSize (strides j) cells 0 = total op cells (2 ^ min j k) := by
  induction j generalizing cells with
  | zero =>
    rw [Nat.zero_min]
    rfl
  | succ j ih =>
    have step : run stage blockSize (strides (j + 1)) cells =
        run stage blockSize (strides j)
          (if blockSize ≥ 2 * 2 ^ j then stage (2 ^ j) cells else cells) := rfl
    rw [step, ih]
    have fits : blockSize ≥ 2 * 2 ^ j ↔ j + 1 ≤ k := by
      rw [size, ← Nat.pow_succ']
      exact Nat.pow_le_pow_iff_right (Nat.lt_succ_self 1)
    by_cases larger : j + 1 ≤ k
    · rw [if_pos (fits.mpr larger), Nat.min_eq_left larger, Nat.min_eq_left (by omega),
        (halves _ cells (fits.mpr larger)).total (Nat.two_pow_pos j), Nat.pow_succ']
    · rw [if_neg (mt fits.mp larger), Nat.min_eq_right (by omega), Nat.min_eq_right (by omega)]

/-- The first cell ends up with all cells of the block. -/
theorem run_halves {blockSize j k : Nat} (size : blockSize = 2 ^ k) (enough : k ≤ j)
    (halves : ∀ i cells, 2 * 2 ^ i ≤ blockSize → Halves op (2 ^ i) cells (stage (2 ^ i) cells)) :
    run stage blockSize (strides j) cells 0 = total op cells blockSize := by
  rw [run_strides stage size halves, Nat.min_eq_right enough, ← size]

end Laws

end Reduction
