import Mathlib
import MatrixCalculator.Proofs.Binary64.Underflow
set_option autoImplicit false

/-!
Truncation of 64-bit floating numbers, against the numbers their digits stand for. Digits behind the point
are found below 2^52 only, where a machine word holds the whole part and gives it back without rounding.
-/

namespace MatrixCalculator.Binary64

open Float.Model Float.Model.UnpackedFloat

theorem value_neg (x : Float) : value (-x) = -value x := by
  change exactValue (-x.toModel).unpack = -exactValue x.toModel.unpack
  rw [unpack_neg]
  cases x.toModel.unpack with
  | finite s m e hm =>
    have hsign : ((-s).apply (m : Int) : Int) = -s.apply (m : Int) := apply_neg s m
    change ((-s).apply (m : Int) : ℚ) * 2 ^ e = -((s.apply (m : Int) : ℚ) * 2 ^ e)
    rw [hsign, Int.cast_neg, neg_mul]
  | _ => exact neg_zero.symm

theorem towardsZero_intCast (k : Int) : towardsZero (k : ℚ) = k := by
  rw [towardsZero, Int.floor_intCast, Int.ceil_intCast, ite_self]

theorem towardsZero_zero : towardsZero (0 : ℚ) = 0 := by
  rw [← Int.cast_zero, towardsZero_intCast]

theorem exists_unpack_toFloat {n : UInt64} (hpos : 0 < n.toNat) (hlt : n.toNat < 2 ^ 53) :
    ∃ (k : Nat) (h : _), n.toFloat.toModel.unpack = .finite .positive (n.toNat <<< k) (-(k : Int)) h := by
  have hlog : n.toNat.log2 ≤ 52 := log2_le_of_lt hlt
  obtain ⟨k, hk⟩ : ∃ k, n.toNat.log2 + k = 52 := ⟨52 - n.toNat.log2, by omega⟩
  have hdigits : (n.toNat <<< k).log2 = 52 := (log2_shiftLeft hpos.ne' k).trans hk
  have hne : n.toNat <<< k ≠ 0 := fun hzero => by
    rw [hzero] at hdigits
    cases hdigits
  obtain ⟨hge, hwidth⟩ := (Nat.log2_eq_iff hne).1 hdigits
  have hsettled : Settled (n.toNat <<< k) (-(k : Int)) := ⟨hwidth, by omega, .inl hge⟩
  have hplaces : (-Format.binary64.targetExponent (totalExponent n.toNat 0)).toNat = k := by
    rw [targetExponent_eq]
    unfold totalExponent
    omega
  have hround : UnpackedFloat.round .binary64 .positive n.toNat 0 =
      .finite .positive (n.toNat <<< k) (-(k : Int)) (Nat.pos_of_ne_zero hne) := by
    rw [← hsettled.roundWithAccuracy_eq (Nat.pos_of_ne_zero hne) .positive 0]
    simp only [UnpackedFloat.round, decreaseExponent, hplaces, Nat.shiftLeft_zero, zero_sub, Nat.cast_zero,
      sub_zero]
  refine ⟨k, Nat.pos_of_ne_zero hne, ?_⟩
  change UnpackedFloat.unpack .binary64 (UnpackedFloat.pack .binary64
    (UnpackedFloat.normalize .binary64 (n.toNat : Int) 0 .positive)) = _
  rw [normalize_of_pos (by omega), Int.toNat_natCast, hround,
    unpack_pack_normal .positive _ hdigits (by omega) (by omega)]

theorem value_toFloat {n : UInt64} (hlt : n.toNat < 2 ^ 53) :
    n.toFloat.isFinite = true ∧ value n.toFloat = n.toNat := by
  rcases Nat.eq_zero_or_pos n.toNat with hzero | hpos
  · obtain rfl : n = 0 := UInt64.toNat_inj.1 hzero
    exact ⟨rfl, rfl⟩
  · obtain ⟨k, hm, hunpack⟩ := exists_unpack_toFloat hpos hlt
    refine ⟨congrArg UnpackedFloat.isFinite hunpack, ?_⟩
    rw [value, hunpack]
    change (((n.toNat <<< k : Nat) : Int) : ℚ) * 2 ^ (-(k : Int)) = n.toNat
    rw [Nat.shiftLeft_eq, Int.cast_natCast, Nat.cast_mul, Nat.cast_pow, Nat.cast_ofNat, mul_assoc, zpow_neg,
      zpow_natCast, mul_inv_cancel₀ (pow_ne_zero _ two_ne_zero), mul_one]

/-- A number has digits behind the point just where its last digit has a weight below one. -/
theorem abs_lt_iff {x : Float} {s : Sign} {m : Nat} {e : Int} {hm : 0 < m}
    (hx : x.toModel.unpack = .finite s m e hm) : x.abs < 4503599627370496 ↔ e < 0 := by
  have hsettled := settled_unpack (b := x.toModel.toBits.toBitVec) hx
  have hbound : (4503599627370496 : Float).toModel.unpack = .finite .positive (2 ^ 52) 0 (by decide) := by rfl
  have habs : x.abs.toModel.unpack = .finite .positive m e hm := (unpack_abs x.toModel).trans (by rw [hx]; rfl)
  rw [lt_iff, hbound, habs]
  have hfull := hsettled.full
  simp only [UnpackedFloat.lt, UnpackedFloat.compare, beq_iff_eq, Option.some.injEq, Ordering.then_eq_lt,
    compare_lt_iff_lt, compare_eq_iff_eq]
  omega

theorem toNat_toUInt64_abs_of_lt {x : Float} {s : Sign} {m : Nat} {e : Int} {hm : 0 < m}
    (hx : x.toModel.unpack = .finite s m e hm) (he : e < 0) :
    (x.abs.toUInt64.toNat : Int) = ⌊(m : ℚ) * 2 ^ e⌋ ∧ x.abs.toUInt64.toNat < 2 ^ 52 := by
  have hdigits : (m : ℚ) < 2 ^ 53 := by
    exact_mod_cast (settled_unpack (b := x.toModel.toBits.toBitVec) hx).lt
  have hsmall : (m : ℚ) * 2 ^ e < 2 ^ 52 := by
    calc (m : ℚ) * 2 ^ e < 2 ^ 53 * 2 ^ e := mul_lt_mul_of_pos_right hdigits (zpow_pos two_pos e)
      _ ≤ 2 ^ 53 * 2 ^ (-1 : Int) :=
          mul_le_mul_of_nonneg_left (zpow_le_zpow_right₀ one_le_two (by omega)) (by positivity)
      _ = 2 ^ 52 := by norm_num
  have hfloor : ⌊(m : ℚ) * 2 ^ e⌋ < 2 ^ 52 := Int.floor_lt.2 (by exact_mod_cast hsmall)
  have hmagnitude : x.abs.toUInt64 = (UnpackedFloat.finite s m e hm).abs.toUInt64 :=
    hx ▸ congrArg UnpackedFloat.toUInt64 (unpack_abs x.toModel)
  have hword := toNat_toUInt64_abs (s := s) (e := e) hm
  rw [← hmagnitude] at hword
  omega

/-- Truncation cuts a finite number towards zero, without rounding. -/
theorem truncated_eq {x : Float} (h : x.isFinite = true) :
    (truncated x).isFinite = true ∧ value (truncated x) = towardsZero (value x) := by
  have hfinite : x.toModel.unpack.isFinite = true := h
  cases hx : x.toModel.unpack with
  | notANumber => rw [hx] at hfinite; cases hfinite
  | infinity s => rw [hx] at hfinite; cases hfinite
  | zero s =>
    have hback : Float.ofModel (Float.Model.pack x.toModel.unpack) = x := by rw [pack_unpack]
    rw [hx] at hback
    subst hback
    cases s <;> decide +kernel
  | finite s m e hm =>
    by_cases he : e < 0
    · have hvalue : value x = if isNegative x then -((m : ℚ) * 2 ^ e) else (m : ℚ) * 2 ^ e := by
        have hnegative := isNegative_iff hx
        rw [value, hx]
        cases s <;> simp [hnegative, exactValue, Sign.apply]
      have hnonneg : 0 ≤ (m : ℚ) * 2 ^ e := by positivity
      -- the whole part passes through a machine word, which is wide enough for it
      obtain ⟨hword, hlt⟩ := toNat_toUInt64_abs_of_lt hx he
      obtain ⟨hwhole, hexact⟩ := value_toFloat (n := x.abs.toUInt64) (by omega)
      rw [← Int.cast_natCast, hword] at hexact
      rw [truncated, if_pos ((abs_lt_iff hx).2 he), hvalue]
      dsimp only
      split
      · rw [isFinite_neg, value_neg, hexact, towardsZero_neg hnonneg, Int.cast_neg]
        exact ⟨hwhole, rfl⟩
      · rw [hexact, towardsZero, if_pos hnonneg]
        exact ⟨hwhole, rfl⟩
    · have hwhole : value x = ((s.apply m * 2 ^ e.toNat : Int) : ℚ) := by
        have hplaces : e = (e.toNat : Int) := by omega
        rw [value, hx, exactValue, Int.cast_mul, Int.cast_pow, Int.cast_ofNat, ← zpow_natCast, ← hplaces]
      rw [truncated, if_neg fun hlt => he ((abs_lt_iff hx).1 hlt), hwhole, towardsZero_intCast]
      exact ⟨h, rfl⟩

end MatrixCalculator.Binary64
