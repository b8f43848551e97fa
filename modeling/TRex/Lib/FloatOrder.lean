import Mathlib

/-!
# The order of floating-point numbers

An unpacked float stands for a rational, for one of two infinities, or for no number (`number`).
Unpacking a bit pattern gives a mantissa and an exponent that are canonical for the format
(`canonical_unpack`). Canonical floats are compared by their exponents first and by their mantissas
among equal exponents, and this is the order of the numbers they stand for (`lt_iff`).
-/

namespace FloatOrder

open Float.Model

/-- The rationals and the two infinities. -/
abbrev Extended : Type := WithBot (WithTop ℚ)

/-- A rational among them. -/
def Extended.exactly (q : ℚ) : Extended := ((q : WithTop ℚ) : WithBot (WithTop ℚ))

open Extended (exactly)

@[simp] theorem exactly_lt {p q : ℚ} : exactly p < exactly q ↔ p < q :=
  WithBot.coe_lt_coe.trans WithTop.coe_lt_coe

@[simp] theorem exactly_inj {p q : ℚ} : exactly p = exactly q ↔ p = q :=
  WithBot.coe_inj.trans WithTop.coe_inj

@[simp] theorem exactly_lt_top (q : ℚ) : exactly q < ⊤ :=
  WithBot.coe_lt_coe.mpr (WithTop.coe_lt_top q)

@[simp] theorem bot_lt_exactly (q : ℚ) : ⊥ < exactly q := WithBot.bot_lt_coe _

/-- The rational, 0 for the two infinities. -/
def Extended.toRat (x : Extended) : ℚ := (x.unbotD 0).untopD 0

@[simp] theorem toRat_exactly (q : ℚ) : (exactly q).toRat = q := rfl

/-- What a float stands for; `none` is no number. -/
def number : UnpackedFloat → Option Extended
  | .notANumber => none
  | .infinity .negative => some ⊥
  | .infinity .positive => some ⊤
  | .zero _ => some (exactly 0)
  | .finite .negative m e _ => some (exactly (-(m * 2 ^ e)))
  | .finite .positive m e _ => some (exactly (m * 2 ^ e))

/-! ## Canonical floats -/

/-- The least exponent of a format. -/
def leastExponent (spec : Format) : Int :=
  1 - (spec.exponentBias + spec.mantissaBitsWithoutImplicit : Int)

/-- Only at the least exponent may the first bit of a mantissa be missing. -/
structure CanonicalPair (spec : Format) (m : Nat) (e : Int) : Prop where
  small : m < 2 ^ (spec.mantissaBitsWithoutImplicit + 1)
  least : leastExponent spec ≤ e
  full : e = leastExponent spec ∨ 2 ^ spec.mantissaBitsWithoutImplicit ≤ m

def Canonical (spec : Format) (x : UnpackedFloat) : Prop :=
  ∀ sign m e positive, x = .finite sign m e positive → CanonicalPair spec m e

/-- The implicit bit stands in front of the mantissa. -/
theorem toNat_implicit_append {w : Nat} (mantissa : BitVec w) :
    (1#1 ++ mantissa).toNat = 2 ^ w + mantissa.toNat := by
  rw [BitVec.toNat_append, ← Nat.shiftLeft_add_eq_or_of_lt mantissa.isLt, Nat.shiftLeft_eq]
  exact congrArg (· + _) (Nat.one_mul _)

theorem canonical_unpack (spec : Format) (b : BitVec spec.numBits) :
    Canonical spec (UnpackedFloat.unpack spec b) := by
  intro sign m e positive unpacked
  have bounded := (UnpackedFloat.unpackMantissa b).isLt
  have twice : 2 ^ (spec.mantissaBitsWithoutImplicit + 1) =
    2 ^ spec.mantissaBitsWithoutImplicit + 2 ^ spec.mantissaBitsWithoutImplicit := by
    rw [Nat.pow_succ, Nat.mul_two]
  rw [UnpackedFloat.unpack] at unpacked
  split at unpacked
  · split at unpacked <;> cases unpacked
  split at unpacked
  case isTrue zero =>
    split at unpacked
    · cases unpacked
    · obtain ⟨rfl, rfl, rfl⟩ := UnpackedFloat.finite.inj unpacked
      have exponent : (UnpackedFloat.unpackExponent b).toNat = 0 := by rw [zero]; rfl
      refine ⟨by omega, ?_, .inl ?_⟩ <;> rw [exponent, leastExponent] <;> push_cast <;> omega
  case isFalse nonzero =>
    obtain ⟨rfl, rfl, rfl⟩ := UnpackedFloat.finite.inj unpacked
    have exponent : (UnpackedFloat.unpackExponent b).toNat ≠ 0 := fun zero =>
      nonzero (BitVec.eq_of_toNat_eq zero)
    rw [toNat_implicit_append]
    exact ⟨by omega, by rw [leastExponent]; omega, .inr (Nat.le_add_right _ _)⟩

/-! ## Magnitudes -/

section Magnitudes

variable {spec : Format} {m m' : Nat} {e e' : Int}

/-- A larger exponent outweighs the mantissas. -/
theorem CanonicalPair.lt_of_exponent_lt (pair : CanonicalPair spec m e)
    (pair' : CanonicalPair spec m' e') (lt : e < e') : (m * 2 ^ e : ℚ) < m' * 2 ^ e' := by
  have full : 2 ^ spec.mantissaBitsWithoutImplicit ≤ m' := by
    rcases pair'.full with least | full
    · have := pair.least
      omega
    · exact full
  have below : (m : ℚ) < 2 ^ (spec.mantissaBitsWithoutImplicit + 1) := by
    exact_mod_cast pair.small
  have above : (2 : ℚ) ^ spec.mantissaBitsWithoutImplicit ≤ m' := by
    exact_mod_cast full
  calc (m * 2 ^ e : ℚ)
      < 2 ^ (spec.mantissaBitsWithoutImplicit + 1) * 2 ^ e :=
        mul_lt_mul_of_pos_right below (by positivity)
    _ = 2 ^ spec.mantissaBitsWithoutImplicit * 2 ^ (e + 1) := by
        rw [zpow_add_one₀ two_ne_zero, pow_succ]
        ac_rfl
    _ ≤ 2 ^ spec.mantissaBitsWithoutImplicit * 2 ^ e' :=
        mul_le_mul_of_nonneg_left (zpow_le_zpow_right₀ one_le_two lt) (by positivity)
    _ ≤ m' * 2 ^ e' := mul_le_mul_of_nonneg_right above (by positivity)

/-- Canonical pairs are compared as the numbers they stand for. -/
theorem CanonicalPair.compare_eq_lt_iff (pair : CanonicalPair spec m e)
    (pair' : CanonicalPair spec m' e') :
    (compare e e').then (compare m m') = .lt ↔ (m * 2 ^ e : ℚ) < m' * 2 ^ e' := by
  rcases lt_trichotomy e e' with lower | same | higher
  · have less := pair.lt_of_exponent_lt pair' lower
    rw [Int.compare_eq_lt.mpr lower]
    exact iff_of_true rfl less
  · subst same
    rw [Int.compare_eq_eq.mpr rfl, Ordering.eq_then, Nat.compare_eq_lt,
      mul_lt_mul_iff_left₀ (by positivity)]
    exact Nat.cast_lt.symm
  · have less := pair'.lt_of_exponent_lt pair higher
    rw [Int.compare_eq_gt.mpr higher]
    exact iff_of_false (nomatch ·) less.not_gt

end Magnitudes

/-! ## Comparison -/

theorem magnitude_pos {m : Nat} (positive : 0 < m) (e : Int) : (0 : ℚ) < m * 2 ^ e := by
  positivity

/-- The opposite comparison, for numbers below zero. -/
theorem swap_eq_lt_iff (e e' : Int) (m m' : Nat) :
    ((compare e e').then (compare m m')).swap = .lt ↔
      (compare e' e).then (compare m' m) = .lt := by
  rw [Ordering.swap_then, Int.compare_swap, Nat.compare_swap]

/-- Comparing two canonical floats finds the one below exactly if both are numbers, of which it is
the lesser one. -/
theorem compare_eq_lt_iff {spec : Format} {x y : UnpackedFloat} (canonical : Canonical spec x)
    (canonical' : Canonical spec y) :
    x.compare y = some .lt ↔ ∃ p ∈ number x, ∃ q ∈ number y, p < q := by
  cases x with
  | notANumber => simp [number, UnpackedFloat.compare]
  | infinity sign =>
      cases y with
      | notANumber => cases sign <;> simp [number, UnpackedFloat.compare]
      | infinity sign' =>
          cases sign <;> cases sign' <;> simp [number, UnpackedFloat.compare]
          rfl
      | zero sign' => cases sign <;> simp [number, UnpackedFloat.compare]
      | finite sign' m' e' positive' =>
          cases sign <;> cases sign' <;> simp [number, UnpackedFloat.compare]
  | zero sign =>
      cases y with
      | notANumber => simp [number, UnpackedFloat.compare]
      | infinity sign' => cases sign' <;> simp [number, UnpackedFloat.compare]
      | zero sign' => simp [number, UnpackedFloat.compare]
      | finite sign' m' e' positive' =>
          have above := magnitude_pos positive' e'
          cases sign' <;> simp [number, UnpackedFloat.compare, above, above.le]
  | finite sign m e positive =>
      have above := magnitude_pos positive e
      cases y with
      | notANumber => cases sign <;> simp [number, UnpackedFloat.compare]
      | infinity sign' => cases sign <;> cases sign' <;> simp [number, UnpackedFloat.compare]
      | zero sign' => cases sign <;> simp [number, UnpackedFloat.compare, above, above.le]
      | finite sign' m' e' positive' =>
          have above' := magnitude_pos positive' e'
          have pair := canonical _ _ _ _ rfl
          have pair' := canonical' _ _ _ _ rfl
          cases sign <;> cases sign' <;>
            simp only [number, UnpackedFloat.compare, Option.some.injEq, Option.mem_def,
              exists_eq_left', exactly_lt, swap_eq_lt_iff, neg_lt_neg_iff]
          case negative.negative => exact pair'.compare_eq_lt_iff pair
          case negative.positive => exact iff_of_true trivial (by linarith)
          case positive.negative => exact iff_of_false (nomatch ·) (by linarith)
          case positive.positive => exact pair.compare_eq_lt_iff pair'

end FloatOrder
