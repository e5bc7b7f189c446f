import Mathlib
import MatrixCalculator.Binary64
import MatrixCalculator.Proofs.Binary64.Logarithm
import MatrixCalculator.Proofs.Binary64.Sides
import MatrixCalculator.Proofs.Binary64.Truncation
set_option autoImplicit false

/-!
What is relied on of a mathematical library. Magnitudes, roots and truncation are fixed to the last bit for
every library; of the others it is asked that the logarithm of a number that is not negative is a number, and
that the sign bits alone tell the angle of a point on the real axis. Nothing is asked of the values of
logarithms and of angles off the axis. The library that calculations run with keeps all of it.
-/

namespace MatrixCalculator.Binary64

/-- The functions with a result that floating arithmetic leaves no choice of. -/
class CorrectlyRounded [Library] : Prop where
  abs_eq (x : Float) : Library.abs x = x.abs
  sqrt_eq (x : Float) : Library.sqrt x = x.sqrt
  truncated_eq {x : Float} (h : x.isFinite = true) :
    (Library.truncated x).isFinite = true ∧ value (Library.truncated x) = towardsZero (value x)

class LawfulLibrary [Library] : Prop extends CorrectlyRounded where
  isNaN_ln {x : Float} (hnan : x.isNaN = false) (hlt : ¬ x < 0) : (Library.ln x).isNaN = false
  /-- Right of zero, or on it, the angle is the ordinate with its sign. -/
  atan2_right {y x : Float} (hy : Component.isZero y = true) (hnan : x.isNaN = false)
    (hx : isNegative x = false) : Library.atan2 y x = y
  /-- Left of zero it is half a turn, to the side of the ordinate. -/
  atan2_left {y x : Float} (hy : Component.isZero y = true) (hnan : x.isNaN = false)
    (hx : isNegative x = true) : Library.atan2 y x = if isNegative y then -pi else pi

section Laws

variable [Library] [CorrectlyRounded] {x : Float}

theorem wholePart_eq (h : x.isFinite = true) : wholePart x = heldInWord (towardsZero (value x)) := by
  obtain ⟨hfinite, hvalue⟩ := CorrectlyRounded.truncated_eq h
  rw [wholePart, toWord_eq hfinite, hvalue, towardsZero_intCast]

theorem truncated_beq_self_of_zero (h : Component.isZero x = true) : (Library.truncated x == x) = true := by
  obtain ⟨hfinite, hvalue⟩ := CorrectlyRounded.truncated_eq (isFinite_of_isZero h)
  rw [value_of_isZero h, towardsZero_zero, Int.cast_zero] at hvalue
  exact beq_of_isZero (isZero_of_value hfinite hvalue) h

end Laws

instance : LawfulLibrary where
  abs_eq _ := rfl
  sqrt_eq _ := rfl
  truncated_eq := truncated_eq
  isNaN_ln := isNaN_ln
  atan2_right hy hnan hx := by
    change angle _ _ = _
    rw [angle_of_zero hy hnan, hx, if_neg Bool.false_ne_true]
  atan2_left hy hnan hx := by
    change angle _ _ = _
    rw [angle_of_zero hy hnan, if_pos hx]

theorem hypotenuse_of_isZero {x y : Float} (h : Component.isZero x = true) : hypotenuse x y = y.abs := by
  have hx : x.abs = 0 := by
    obtain ⟨s, hs⟩ := (isZero_iff_unpack x).1 h
    change Float.ofModel (Float.Model.pack x.toModel.unpack.abs) = 0
    rw [hs]
    cases s <;> rfl
  unfold hypotenuse
  rw [hx]
  dsimp only
  split
  · next hinf =>
    have hy : y.abs.toModel.unpack.isInf = true := (Bool.or_eq_true_iff.1 hinf).resolve_left (by decide)
    change _ = Float.ofModel (Float.Model.pack y.toModel.unpack.abs)
    change y.toModel.abs.unpack.isInf = true at hy
    rw [unpack_abs] at hy
    cases hu : y.toModel.unpack with
    | infinity s => rfl
    | _ => rw [hu] at hy; cases hy
  · split
    · next hlt =>
      have hzero : ¬ exponentBits 0 = 0x7ff := by decide
      rw [orderedHypotenuse, if_neg hzero, if_pos]
      rw [beq_self_of_number rfl, Bool.or_true]
    · next hlt =>
      have hy : y.abs = 0 := by
        have hle : y.abs.toBits ≤ (0 : Float).toBits := UInt64.not_lt.1 hlt
        rw [← Float.toBits_inj, ← UInt64.toNat_inj]
        exact Nat.le_zero.1 hle
      rw [hy]
      decide

end MatrixCalculator.Binary64
