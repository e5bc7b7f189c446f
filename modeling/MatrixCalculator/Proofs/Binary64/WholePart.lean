import Mathlib
import MatrixCalculator.Proofs.Binary64.Negation
set_option autoImplicit false

/-!
The cast of a 64-bit floating number to a signed word, against the number its digits stand for. The cast
goes through an unsigned word on the magnitude; with the sign put back, what comes out is the number cut
towards zero and held within the range of a signed word.
-/

namespace MatrixCalculator.Binary64

open Float.Model Float.Model.UnpackedFloat

def towardsZero {K : Type} [Field K] [LinearOrder K] [FloorRing K] (x : K) : Int :=
  if 0 ≤ x then ⌊x⌋ else ⌈x⌉

def heldInWord (k : Int) : Int := max Int64.minValue.toInt (min Int64.maxValue.toInt k)

/-- The number that digits with a sign and an exponent stand for; nothing else stands for any. -/
def exactValue : UnpackedFloat → ℚ
  | .finite s m e _ => s.apply m * 2 ^ e
  | _ => 0

def value (x : Float) : ℚ := exactValue x.toModel.unpack

theorem heldInWord_eq_iff (k : Int) : heldInWord k = k ↔ -2 ^ 63 ≤ k ∧ k < 2 ^ 63 := by
  rw [heldInWord, Int64.toInt_minValue, Int64.toInt_maxValue]
  omega

theorem heldInWord_nonneg {k : Int} (h : 0 ≤ k) : 0 ≤ heldInWord k := by
  rw [heldInWord, Int64.toInt_minValue, Int64.toInt_maxValue]
  omega

theorem towardsZero_cast (q : ℚ) : towardsZero (q : ℝ) = towardsZero q := by
  simp only [towardsZero, Rat.cast_nonneg, Rat.floor_cast, Rat.ceil_cast]

theorem towardsZero_neg {q : ℚ} (h : 0 ≤ q) : towardsZero (-q) = -⌊q⌋ := by
  unfold towardsZero
  split
  · next hneg =>
    have hzero : q = 0 := le_antisymm (neg_nonneg.1 hneg) h
    simp [hzero]
  · exact Int.ceil_neg

theorem mantissa_shiftRight (n : Nat) (x : ExtendedMantissa) : (x >>> n).mantissa = x.mantissa / 2 ^ n := by
  change (n.repeat ExtendedMantissa.shiftRightOne x).mantissa = _
  induction n with
  | zero => rw [pow_zero, Nat.div_one, Nat.repeat]
  | succ n ih => rw [Nat.repeat, ExtendedMantissa.shiftRightOne, ih, Nat.div_div_eq_div_mul, pow_succ]

/-- Digits moved above the point are appended as zeros, and those below it are dropped. -/
theorem roundToInt_positive (m : Nat) (e : Int) : roundToInt .positive m e = ⌊(m : ℚ) * 2 ^ e⌋ := by
  change ((ExtendedMantissa.ofMantissaAndAccuracy (m <<< (e - 0).toNat) .exact >>>
    (0 - (e - (e - 0).toNat)).toNat).mantissa : Int) = _
  rw [mantissa_shiftRight, Nat.shiftLeft_eq]
  change ((m * 2 ^ (e - 0).toNat / 2 ^ (0 - (e - (e - 0).toNat)).toNat : Nat) : Int) = _
  obtain ⟨k, rfl | rfl⟩ := e.eq_nat_or_neg
  · have hleft : ((k : Int) - 0).toNat = k := by omega
    have hright : (0 - ((k : Int) - k)).toNat = 0 := by omega
    have hvalue : (m : ℚ) * 2 ^ (k : Int) = ((m * 2 ^ k : Nat) : ℚ) := by push_cast; rw [zpow_natCast]
    rw [hleft, hright, hvalue, Int.floor_natCast, pow_zero, Nat.div_one]
  · have hleft : (-(k : Int) - 0).toNat = 0 := by omega
    have hright : (0 - (-(k : Int) - (0 : Nat))).toNat = k := by omega
    have hvalue : (m : ℚ) * 2 ^ (-(k : Int)) = (m : ℚ) / ((2 ^ k : Nat) : ℚ) := by
      push_cast
      rw [zpow_neg, zpow_natCast, div_eq_mul_inv]
    rw [hleft, hright, hvalue, pow_zero, mul_one, Rat.floor_natCast_div_natCast, Int.natCast_ediv]

theorem toNat_toUInt64_abs {s : Sign} {m : Nat} {e : Int} (hm : 0 < m) :
    ((UnpackedFloat.finite s m e hm).abs.toUInt64.toNat : Int) = min ⌊(m : ℚ) * 2 ^ e⌋ (2 ^ 64 - 1) := by
  have hnonneg : 0 ≤ ⌊(m : ℚ) * 2 ^ e⌋ := Int.floor_nonneg.2 (by positivity)
  have hsize : UInt64.size = 2 ^ 64 := rfl
  simp only [UnpackedFloat.abs, UnpackedFloat.toUInt64, UnpackedFloat.toInt, roundToInt_positive,
    UInt64.ofNatClamp, hsize]
  split
  · rw [UInt64.toNat_ofNatLT]
    omega
  · rw [UInt64.toNat_ofNatLT]
    omega

theorem unpack_abs (x : Float.Model) : x.abs.unpack = x.unpack.abs := by
  have habs (u : UnpackedFloat) : u.abs = mapSign (fun _ => .positive) u := by cases u <;> rfl
  change (Float.Model.pack x.unpack.abs).unpack = x.unpack.abs
  rw [habs, unpack_pack_mapSign]

theorem msb_word (s : Sign) (e : BitVec 11) (f : BitVec 52) : (word s e f).msb = true ↔ s = .negative := by
  have hmsb : (word s e f).msb = s.toBitVec.msb := by
    change ((s.toBitVec ++ e : BitVec (1 + 11)) ++ f).msb = _
    rw [BitVec.msb_append, if_neg (by decide), BitVec.msb_append, if_neg (by decide)]
  rw [hmsb]
  cases s <;> simp [Sign.toBitVec]

theorem isNegative_eq_msb (x : Float) : isNegative x = x.toBits.toBitVec.msb := by
  have hlt := x.toBits.toNat_lt
  rw [Bool.eq_iff_iff, BitVec.msb_eq_decide, decide_eq_true_iff, isNegative, beq_iff_eq, ← UInt64.toNat_inj,
    UInt64.toNat_shiftRight, Nat.shiftRight_eq_div_pow]
  change x.toBits.toNat / 2 ^ 63 = 1 ↔ 2 ^ 63 ≤ x.toBits.toNat
  omega

theorem isNegative_iff {x : Float} {s : Sign} {m : Nat} {e : Int} {hm : 0 < m}
    (hx : x.toModel.unpack = .finite s m e hm) : isNegative x = true ↔ s = .negative := by
  obtain ⟨s', e', f', hword⟩ := exists_eq_word x.toBits.toBitVec
  have hsign : s' = s := by
    have hread : UnpackedFloat.unpack .binary64 (word s' e' f') = .finite s m e hm := hword ▸ hx
    rw [unpack_word] at hread
    split at hread
    · split at hread <;> cases hread
    · split at hread
      · split at hread <;> cases hread
        rfl
      · cases hread
        rfl
  rw [isNegative_eq_msb, hword, msb_word, hsign]

/-- A signed word holds a finite number cut towards zero, as far as it goes. -/
theorem toWord_eq {x : Float} (h : x.isFinite = true) : toWord x = heldInWord (towardsZero (value x)) := by
  have hmagnitude : x.abs.toUInt64 = x.toModel.unpack.abs.toUInt64 :=
    congrArg UnpackedFloat.toUInt64 (unpack_abs x.toModel)
  have hfinite : x.toModel.unpack.isFinite = true := h
  rw [toWord, hmagnitude, value, heldInWord, Int64.toInt_minValue, Int64.toInt_maxValue]
  cases hx : x.toModel.unpack with
  | notANumber => rw [hx] at hfinite; cases hfinite
  | infinity s => rw [hx] at hfinite; cases hfinite
  | zero s =>
    have hzero : (UnpackedFloat.zero s).abs.toUInt64.toNat = 0 := rfl
    simp [hzero, exactValue, towardsZero]
  | finite s m e hm =>
    have hpos : (0 : ℚ) < m * 2 ^ e := by positivity
    have hfloor : 0 ≤ ⌊(m : ℚ) * 2 ^ e⌋ := Int.floor_nonneg.2 hpos.le
    have hnegative := isNegative_iff hx
    rw [toNat_toUInt64_abs hm]
    cases s with
    | negative =>
      have hvalue : exactValue (.finite .negative m e hm) = -((m : ℚ) * 2 ^ e) := by
        simp [exactValue, Sign.apply]
      rw [if_pos (hnegative.2 rfl), hvalue, towardsZero_neg hpos.le]
      omega
    | positive =>
      have hvalue : exactValue (.finite .positive m e hm) = (m : ℚ) * 2 ^ e := by
        simp [exactValue, Sign.apply]
      rw [if_neg (by simp [hnegative]), hvalue, towardsZero, if_pos hpos.le]
      omega

end MatrixCalculator.Binary64
