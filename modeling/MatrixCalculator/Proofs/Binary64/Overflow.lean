import Mathlib
import MatrixCalculator.Proofs.Binary64.Underflow
set_option autoImplicit false

/-!
Which products of 64-bit floating numbers leave the range. The square of a number does from 2^512 on, and two
numbers below 2^512 have a finite product: what rounding can add to the digits of a product never takes it
past the last power of two. So a product is finite wherever the squares of its factors are.
-/

namespace MatrixCalculator.Binary64

open Float.Model Float.Model.UnpackedFloat

section Digits

variable {m n : Nat} {e k : Int}

/-- Rounding that does not carry keeps the magnitude below every power of two that it was below. -/
theorem below_of_roundedMantissa_lt {b : Int} (h : totalExponent m e ≤ b) (hb : -1021 ≤ b) (s : Sign)
    {a : Accuracy} (hlow : e ≤ max (totalExponent m e - 53) (-1074))
    (hr : (shiftToTargetExponent .binary64 m e a).1.roundedMantissa < 2 ^ 53) :
    Below b (roundWithAccuracy .binary64 s m e a) := by
  have hexponent := exponent_shiftToTargetExponent m e a
  have hlog := log2_le_of_lt (k := 52) hr
  have hrounded : totalExponent (shiftToTargetExponent .binary64 m e a).1.roundedMantissa
      (shiftToTargetExponent .binary64 m e a).2 ≤ b := by
    rw [totalExponent, hexponent]
    omega
  simp only [roundWithAccuracy]
  split
  · exact .zero s
  · next hne => exact .finite ((totalExponent_shiftToTargetExponent _ _ .exact hne).trans_le hrounded)

theorem Settled.exponent_le (h : Settled m e) (hm : m ≠ 0) {b : Int} (hb : -1021 ≤ b)
    (htotal : totalExponent m e ≤ b) : e ≤ b - 53 := by
  have hfull : 52 ≤ m.log2 ∨ e = -1074 := h.full.imp_left (Nat.le_log2 hm).2
  unfold totalExponent at htotal
  omega

/-- Factors of fifty-three digits have a product with a zero before the last of its first fifty-three. -/
theorem roundedMantissa_mul_lt (h : Settled m e) (h' : Settled n k) (hm : m ≠ 0) (hn : n ≠ 0)
    (hle : totalExponent m e ≤ 512) (hle' : totalExponent n k ≤ 512)
    (hproduct : totalExponent (m * n) (e + k) = 1024) :
    (shiftToTargetExponent .binary64 (m * n) (e + k) .exact).1.roundedMantissa < 2 ^ 53 := by
  have hleft := h.exponent_le hm (by decide) hle
  have hright := h'.exponent_le hn (by decide) hle'
  have hlog := log2_mul_le m n
  have hdigits := log2_le_of_lt (k := 52) h.lt
  have hdigits' := log2_le_of_lt (k := 52) h'.lt
  obtain ⟨p, hmantissa, -, hp⟩ := exists_shiftToTargetExponent (m * n) (e + k) .exact
  obtain rfl : p = 53 := by
    unfold totalExponent at *
    omega
  -- the greatest digits leave room for the one that rounding may add
  have hcut : m * n / 2 ^ 53 < 2 ^ 53 - 1 := by
    rw [Nat.div_lt_iff_lt_mul (Nat.two_pow_pos 53)]
    calc m * n ≤ (2 ^ 53 - 1) * (2 ^ 53 - 1) :=
          Nat.mul_le_mul (Nat.le_sub_one_of_lt h.lt) (Nat.le_sub_one_of_lt h'.lt)
      _ < (2 ^ 53 - 1) * 2 ^ 53 := by decide
  have hround : (shiftToTargetExponent .binary64 (m * n) (e + k) .exact).1.roundedMantissa ≤
      (shiftToTargetExponent .binary64 (m * n) (e + k) .exact).1.mantissa + 1 := roundToNearestEven_le _ _
  rw [hmantissa] at hround
  omega

theorem below_mul_of_settled (h : Settled m e) (h' : Settled n k) (hm : m ≠ 0) (hn : n ≠ 0)
    (hle : totalExponent m e ≤ 512) (hle' : totalExponent n k ≤ 512) (s : Sign) :
    Below 1024 (roundWithAccuracy .binary64 s (m * n) (e + k) .exact) := by
  by_cases hcarry : totalExponent (m * n) (e + k) ≤ 1023
  · exact below_roundWithAccuracy hcarry (by decide) s .exact
  · have hproduct : totalExponent (m * n) (e + k) = 1024 := by
      have hlog := log2_mul_le m n
      unfold totalExponent at *
      omega
    exact below_of_roundedMantissa_lt hproduct.le (by decide) s (h.mul_low h' hm hn)
      (roundedMantissa_mul_lt h h' hm hn hle hle' hproduct)

end Digits

variable {x y : Float}

theorem isFinite_mul_of_below (hx : Below 512 x.toModel.unpack) (hy : Below 512 y.toModel.unpack) :
    (x * y).isFinite = true := by
  change (UnpackedFloat.unpack .binary64 (UnpackedFloat.pack .binary64
    (UnpackedFloat.mul .binary64 x.toModel.unpack y.toModel.unpack))).isFinite = true
  have hzero (s : Sign) :
      (UnpackedFloat.unpack .binary64 (UnpackedFloat.pack .binary64 (.zero s))).isFinite = true := by
    rw [unpack_pack_zero]
    rfl
  generalize hu : x.toModel.unpack = u at hx
  generalize hv : y.toModel.unpack = v at hy
  cases hx with
  | zero s => cases hy <;> exact hzero _
  | @finite s m e hm hle =>
    cases hy with
    | zero t => exact hzero _
    | @finite t n k hn hle' =>
      have hsettled := settled_unpack (b := x.toModel.toBits.toBitVec) hu
      have hsettled' := settled_unpack (b := y.toModel.toBits.toBitVec) hv
      have hbelow := below_mul_of_settled hsettled hsettled' hm.ne' hn.ne' hle hle' (s * t)
      rw [UnpackedFloat.mul]
      by_cases hr : (shiftToTargetExponent .binary64 (m * n) (e + k) .exact).1.roundedMantissa = 0
      · rw [roundWithAccuracy_eq_zero (s * t) .exact hr]
        exact hzero _
      · obtain ⟨m', e', hm', hround, hdigits, -⟩ :=
          exists_roundWithAccuracy_settled (s * t) .exact (hsettled.mul_low hsettled' hm.ne' hn.ne') hr
        rw [hround] at hbelow ⊢
        cases hbelow with
        | finite htotal =>
          rw [hdigits.unpack_pack (hdigits.exponent_le hm'.ne' (by decide) htotal)]
          rfl

theorem below_of_isFinite_mul_self (h : (x * x).isFinite = true) : Below 512 x.toModel.unpack := by
  have hfinite : x.toModel.unpack.isFinite = true := by
    by_contra hx
    rw [isFinite_mul_left (x := x) (Bool.not_eq_true _ ▸ hx) x] at h
    cases h
  cases hx : x.toModel.unpack with
  | notANumber => rw [hx] at hfinite; cases hfinite
  | infinity s => rw [hx] at hfinite; cases hfinite
  | zero s => exact .zero s
  | finite s m e hm =>
    refine .finite (Int.not_lt.1 fun hlarge => ?_)
    have hsettled := settled_unpack (b := x.toModel.toBits.toBitVec) hx
    have hlog := log2_add_le_log2_mul hm.ne' hm.ne'
    have hproduct : 1025 ≤ totalExponent (m * m) (e + e) := by
      unfold totalExponent at *
      omega
    obtain ⟨m', e', hm', hround, hdigits, htotal⟩ :=
      exists_roundWithAccuracy_settled .positive .exact (hsettled.mul_low hsettled hm.ne' hm.ne')
        (roundedMantissa_ne_zero .exact (by omega) (Nat.mul_ne_zero hm.ne' hm.ne'))
    have hplace : 971 < e' := by
      have hlog' := log2_le_of_lt (k := 52) hdigits.lt
      unfold totalExponent at *
      omega
    change (x * x).toModel.unpack.isFinite = true at h
    rw [unpack_mul_self hx, hround, unpack_pack_of_exponent_gt hplace] at h
    cases h

theorem isFinite_mul_of_squares (hx : (x * x).isFinite = true) (hy : (y * y).isFinite = true) :
    (x * y).isFinite = true :=
  isFinite_mul_of_below (below_of_isFinite_mul_self hx) (below_of_isFinite_mul_self hy)

/-- A mixed product out of range takes the sum of the squares with it. -/
theorem isFinite_sum_of_squares (h : (x * y).isFinite = false) : (x * x + y * y).isFinite = false := by
  by_cases hx : (x * x).isFinite = true
  · refine isFinite_add_right _ (Bool.eq_false_iff.2 fun hy => ?_)
    rw [isFinite_mul_of_squares hx hy] at h
    cases h
  · exact isFinite_add_left (Bool.not_eq_true _ ▸ hx) _

end MatrixCalculator.Binary64
