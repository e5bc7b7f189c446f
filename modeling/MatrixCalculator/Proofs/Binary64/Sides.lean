import Mathlib
import MatrixCalculator.Proofs.Binary64.WholePart
set_option autoImplicit false

/-!
On which side of zero a 64-bit floating number lies. Comparison with zero, the sign bit and the angle
agree on every number other than zero; on a zero only the sign bit tells the sides apart, and quotients
of zero by negative numbers turn it.
-/

namespace MatrixCalculator.Binary64

open Float.Model Float.Model.UnpackedFloat

theorem lt_iff (x y : Float) : x < y ↔ x.toModel.unpack.lt y.toModel.unpack = true :=
  decide_eq_true_iff (p := x.toModel.unpack.lt y.toModel.unpack = true)

theorem le_iff (x y : Float) : x ≤ y ↔ x.toModel.unpack.le y.toModel.unpack = true :=
  decide_eq_true_iff (p := x.toModel.unpack.le y.toModel.unpack = true)

/-- Numbers other than zero are on one of its two sides, and the sign bit tells on which. -/
theorem side_of_zero {x : Float} (hnan : x.isNaN = false) (hzero : (x == 0) = false) :
    (0 < x ∧ ¬ x < 0 ∧ 0 ≤ x ∧ isNegative x = false) ∨ (x < 0 ∧ ¬ 0 < x ∧ ¬ 0 ≤ x ∧ isNegative x = true) := by
  change x.toModel.unpack.isNaN = false at hnan
  change x.toModel.unpack.beq (0 : Float).toModel.unpack = false at hzero
  rw [lt_iff, lt_iff, le_iff]
  rw [unpack_zero] at *
  have hback : Float.ofModel (Float.Model.pack x.toModel.unpack) = x := by rw [pack_unpack]
  cases hx : x.toModel.unpack with
  | notANumber => rw [hx] at hnan; cases hnan
  | zero s => rw [hx] at hzero; cases hzero
  | infinity s =>
    rw [hx] at hback
    subst hback
    cases s with
    | positive => exact .inl ⟨rfl, by decide, rfl, by decide⟩
    | negative => exact .inr ⟨rfl, by decide, by decide, by decide⟩
  | finite s m e h =>
    have hsign := isNegative_iff hx
    cases s with
    | positive => exact .inl ⟨rfl, by simp [UnpackedFloat.lt, UnpackedFloat.compare], rfl, by simpa using hsign⟩
    | negative => exact .inr ⟨rfl, by simp [UnpackedFloat.lt, UnpackedFloat.compare],
        by simp [UnpackedFloat.le, UnpackedFloat.compare], by simpa using hsign⟩

theorem zero_div_of_lt_zero {y : Float} (h : y < 0) : 0 / y = -0 := by
  change Float.ofModel (Float.Model.pack (UnpackedFloat.div .binary64 (0 : Float).toModel.unpack
    y.toModel.unpack)) = -0
  rw [lt_iff] at h
  rw [unpack_zero] at *
  cases hy : y.toModel.unpack with
  | notANumber => rw [hy] at h; cases h
  | zero s => rw [hy] at h; cases h
  | infinity s =>
    cases s with
    | positive => rw [hy] at h; cases h
    | negative => rfl
  | finite s m e hm =>
    cases s with
    | positive => rw [hy] at h; cases h
    | negative => rfl

theorem beq_self_of_number {x : Float} (h : x.isNaN = false) : (x == x) = true := by
  rw [Float.beq_self_iff]
  rintro rfl
  cases h

theorem isNaN_abs {x : Float} (h : x.isNaN = false) : x.abs.isNaN = false := by
  change x.toModel.unpack.isNaN = false at h
  change x.toModel.abs.unpack.isNaN = false
  rw [unpack_abs]
  cases hx : x.toModel.unpack with
  | notANumber => rw [hx] at h; cases h
  | _ => rfl

theorem not_abs_lt_zero (x : Float) : ¬ x.abs < 0 := by
  rw [lt_iff]
  change ¬ x.toModel.abs.unpack.lt (0 : Float).toModel.unpack = true
  rw [unpack_abs, unpack_zero]
  cases x.toModel.unpack <;> simp [UnpackedFloat.abs, UnpackedFloat.lt, UnpackedFloat.compare]

theorem angle_of_zero {y x : Float} (hy : (y == 0) = true) (hx : x.isNaN = false) :
    angle y x = if isNegative x then (if isNegative y then -pi else pi) else y := by
  unfold angle
  rw [if_pos (by rw [hy, hx]; rfl)]

end MatrixCalculator.Binary64
