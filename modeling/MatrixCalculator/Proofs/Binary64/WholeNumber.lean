import Mathlib
import MatrixCalculator.Proofs.Binary64.Negation
set_option autoImplicit false

/-!
Whole numbers of a machine word as 64-bit floating numbers. They may be rounded, but they never
leave the range: rounding raises the exponent by no more than the width of the digits it is given.
-/

namespace MatrixCalculator.Binary64

open Float.Model Float.Model.UnpackedFloat

/-- Zero, or a number whose last digit has no higher weight than two to the power `b`. -/
def ExponentLe (b : Int) : UnpackedFloat → Prop
  | .zero _ => True
  | .finite _ _ e _ => e ≤ b
  | _ => False

theorem ExponentLe.isFinite {b : Int} {u : UnpackedFloat} (h : ExponentLe b u) : u.isFinite = true := by
  cases u with
  | notANumber => exact h.elim
  | infinity s => exact h.elim
  | zero s => rfl
  | finite s m e hm => rfl

theorem mantissa_shiftRightOne_le (n : Nat) (x : ExtendedMantissa) :
    (n.repeat ExtendedMantissa.shiftRightOne x).mantissa ≤ x.mantissa := by
  induction n with
  | zero => exact Nat.le_refl _
  | succ n ih => exact Nat.le_trans (Nat.div_le_self _ 2) ih

theorem roundToNearestEven_le (m : Nat) (a : Accuracy) : a.roundToNearestEven m ≤ m + 1 := by
  unfold Accuracy.roundToNearestEven
  split <;> omega

theorem roundedMantissa_shift_le (m n : Nat) :
    (ExtendedMantissa.ofMantissaAndAccuracy m .exact >>> n).roundedMantissa ≤ m + 1 :=
  Nat.le_trans (roundToNearestEven_le _ _) (Nat.succ_le_succ (mantissa_shiftRightOne_le n _))

theorem targetExponent_eq (t : Int) : Format.binary64.targetExponent t = max (t - 53) (-1074) := rfl

theorem totalExponent_le {m b : Nat} (hm : m < 2 ^ b) (e : Int) : totalExponent m e ≤ b + 1 + e := by
  have hlog : m.log2 ≤ b := by
    by_cases h : m = 0
    · simp [h]
    · exact Nat.le_of_lt ((Nat.log2_lt h).2 hm)
  unfold totalExponent
  omega

theorem exponent_shiftToTargetExponent (m : Nat) (e : Int) (a : Accuracy) :
    (shiftToTargetExponent .binary64 m e a).2 = max e (max (totalExponent m e - 53) (-1074)) := by
  simp only [shiftToTargetExponent, shiftToExponent, targetExponent_eq]
  omega

theorem exponentLe_finiteOrZero {b e : Int} (he : e ≤ b) (s : Sign) (m : Nat) :
    ExponentLe b (if h : m = 0 then .zero s else .finite s m e (Nat.pos_of_ne_zero h)) := by
  split
  · trivial
  · exact he

theorem exponentLe_roundWithAccuracy {m : Nat} (hm : m < 2 ^ 200) {b e : Int} (hb : 0 ≤ b) (he : e ≤ b)
    (s : Sign) : ExponentLe (b + 300) (roundWithAccuracy .binary64 s m e .exact) := by
  have hrounded : (shiftToTargetExponent .binary64 m e .exact).1.roundedMantissa < 2 ^ 201 := by
    have : (shiftToTargetExponent .binary64 m e .exact).1.roundedMantissa ≤ m + 1 :=
      roundedMantissa_shift_le m _
    omega
  have hfirst := totalExponent_le hm e
  have hsecond := totalExponent_le hrounded (max e (max (totalExponent m e - 53) (-1074)))
  have hexponent : (shiftToTargetExponent .binary64
      (shiftToTargetExponent .binary64 m e .exact).1.roundedMantissa
      (shiftToTargetExponent .binary64 m e .exact).2 .exact).2 ≤ b + 300 := by
    rw [exponent_shiftToTargetExponent, exponent_shiftToTargetExponent]
    omega
  exact exponentLe_finiteOrZero hexponent s _

theorem unpack_word_small (s : Sign) {e : BitVec 11} {b : Int} (hb : 0 ≤ b) (he : e.toNat ≤ b + 1075)
    (hlt : e.toNat < 2047) (f : BitVec 52) :
    ExponentLe b (UnpackedFloat.unpack .binary64 (word s e f)) := by
  have hone : e ≠ -1#11 := by
    rintro rfl
    exact absurd hlt (by decide)
  rw [unpack_word, if_neg hone]
  split
  · split
    · trivial
    · simp only [ExponentLe]
      omega
  · simp only [ExponentLe]
    omega

theorem exponentLe_unpack_pack {u : UnpackedFloat} {b : Int} (h : ExponentLe b u) (hb : 0 ≤ b)
    (hmax : b < 971) :
    ExponentLe b (UnpackedFloat.unpack .binary64 (UnpackedFloat.pack .binary64 u)) := by
  cases u with
  | notANumber => exact h.elim
  | infinity s => exact h.elim
  | zero s => exact unpack_word_small s (e := 0#11) hb (by simp; omega) (by decide) 0
  | finite s m e hm =>
    have he : e ≤ b := h
    have hbias : e + Format.binary64.exponentBias + Format.binary64.mantissaBitsWithoutImplicit = e + 1075 := by
      have : (Format.binary64.exponentBias : Int) = 1023 := rfl
      have : (Format.binary64.mantissaBitsWithoutImplicit : Int) = 52 := rfl
      omega
    simp only [UnpackedFloat.pack, hbias]
    rw [if_neg (by omega)]
    split
    · have hfield : (BitVec.ofNat 11 (e + 1075).toNat).toNat = (e + 1075).toNat := by
        rw [BitVec.toNat_ofNat]
        omega
      exact unpack_word_small s hb (by omega) (by omega) _
    · exact unpack_word_small s (e := 0#11) hb (by simp; omega) (by decide) _

theorem mantissa_unpack_lt {b : BitVec 64} {s : Sign} {m : Nat} {e : Int} {h : 0 < m}
    (hb : UnpackedFloat.unpack .binary64 b = .finite s m e h) : m < 2 ^ 53 := by
  obtain ⟨s', e', f, rfl⟩ := exists_eq_word b
  have hf : f.toNat < 2 ^ 52 := f.isLt
  rw [unpack_word] at hb
  split at hb
  · split at hb <;> cases hb
  · split at hb
    · split at hb
      · cases hb
      · cases hb
        omega
    · cases hb
      omega

theorem exponentLe_round {m : Nat} (hm : m < 2 ^ 64) (s : Sign) :
    ExponentLe 300 (UnpackedFloat.round .binary64 s m 0) := by
  have hshift : (0 - Format.binary64.targetExponent (totalExponent m 0)).toNat ≤ 53 := by
    rw [targetExponent_eq]
    unfold totalExponent
    omega
  refine exponentLe_roundWithAccuracy (b := 0) ?_ (by decide) (by omega) s
  rw [Nat.shiftLeft_eq]
  calc m * 2 ^ (0 - Format.binary64.targetExponent (totalExponent m 0)).toNat
      ≤ 2 ^ 64 * 2 ^ 53 := Nat.mul_le_mul (Nat.le_of_lt hm) (Nat.pow_le_pow_right (by decide) hshift)
    _ < 2 ^ 200 := by decide

theorem exponentLe_ofNat {n : Nat} (hn : n < 2 ^ 64) : ExponentLe 300 (Float.Model.ofNat n).unpack := by
  refine exponentLe_unpack_pack ?_ (by decide) (by decide)
  unfold UnpackedFloat.ofNat UnpackedFloat.ofInt UnpackedFloat.normalize
  split
  · exact exponentLe_round (by omega) _
  · trivial
  · exact exponentLe_round (by omega) _

theorem unpack_one : (Float.ofBits 0x3FF0000000000000).toModel.unpack =
    .finite .positive (2 ^ 52) (-52) (by decide) := by
  rfl

theorem exponentLe_ofNat_mul_one {n : Nat} (hn : n < 2 ^ 64) :
    ExponentLe 600 (UnpackedFloat.mul .binary64 (Float.Model.ofNat n).unpack
      (Float.ofBits 0x3FF0000000000000).toModel.unpack) := by
  have hle := exponentLe_ofNat hn
  have hlt {s m e h} : (Float.Model.ofNat n).unpack = .finite s m e h → m < 2 ^ 53 := mantissa_unpack_lt
  rw [unpack_one]
  cases hx : (Float.Model.ofNat n).unpack with
  | notANumber => exact (hx ▸ hle).elim
  | infinity s => exact (hx ▸ hle).elim
  | zero s => trivial
  | finite s m e hm =>
    have hm53 := hlt hx
    have he : e ≤ 300 := by
      rw [hx] at hle
      exact hle
    refine exponentLe_roundWithAccuracy (b := 300) ?_ (by decide) (by omega) _
    omega

theorem isFinite_ofNat {n : Nat} (hn : n < 2 ^ 64) : (Float.ofNat n).isFinite = true := by
  change (Float.ofScientific n false 0).toModel.isFinite = true
  unfold Float.ofScientific
  split
  · change (UnpackedFloat.unpack .binary64 (UnpackedFloat.pack .binary64 (UnpackedFloat.mul .binary64
      (Float.Model.ofNat n.toUInt64.toNat).unpack
      (Float.ofBits 0x3FF0000000000000).toModel.unpack))).isFinite = true
    have hmul := exponentLe_ofNat_mul_one n.toUInt64.toNat_lt
    exact (exponentLe_unpack_pack hmul (by decide) (by decide)).isFinite
  · next h =>
    have hn0 : n ≠ 0 := by omega
    change (UnpackedFloat.unpack .binary64 (UnpackedFloat.pack .binary64
      (UnpackedFloat.ofScientific .binary64 n 0))).isFinite = true
    refine (exponentLe_unpack_pack (b := 600) ?_ (by decide) (by decide)).isFinite
    have hfield : (0 : Int) ≤ 2 ^ Format.binary64.exponentBits := by decide
    have hwidth : Format.binary64.mantissaBits = 53 := rfl
    unfold UnpackedFloat.ofScientific
    rw [dif_neg hn0, if_neg (by omega), if_neg (by omega), if_pos (by decide)]
    simp only [UnpackedFloat.mul, hwidth, Nat.shiftLeft_eq, Int.toNat_zero, Nat.pow_zero, Nat.mul_one]
    exact exponentLe_roundWithAccuracy (b := 300) (by omega) (by decide) (by omega) _

theorem isFinite_neg (x : Float) : (-x).isFinite = x.isFinite := by
  change (-x.toModel).unpack.isFinite = x.toModel.unpack.isFinite
  rw [unpack_neg]
  cases x.toModel.unpack <;> rfl

/-- Whole numbers that fit a machine word, signed or not, are finite as floating numbers. -/
theorem isFinite_ofInt {n : Int} (hlow : -2 ^ 63 ≤ n) (hhigh : n < 2 ^ 64) : (Float.ofInt n).isFinite = true := by
  cases n with
  | ofNat n => exact isFinite_ofNat (by simpa using hhigh)
  | negSucc n =>
    change (-Float.ofNat (n + 1)).isFinite = true
    rw [isFinite_neg]
    exact isFinite_ofNat (by omega)

end MatrixCalculator.Binary64
