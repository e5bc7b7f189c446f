import Mathlib
import MatrixCalculator.Proofs.Binary64.Magnitude
import MatrixCalculator.Proofs.Binary64.OutOfRange
import MatrixCalculator.Proofs.Binary64.Sides
set_option autoImplicit false

/-!
How small the results of 64-bit floating arithmetic can be. What is rounded to zero is at most half of
the least number, and nothing else is; a power of two below a magnitude is still below it when it has
been rounded. So sums and roots of numbers above zero stay above it, and products do while the exponents
of their factors leave room.
-/

namespace MatrixCalculator.Binary64

open Float.Model Float.Model.UnpackedFloat

/-- Positive, and infinite or not below half of two to the power `b`. -/
inductive Above (b : Int) : UnpackedFloat → Prop
  | infinity : Above b (.infinity .positive)
  | finite {m : Nat} {e : Int} {h : 0 < m} (hle : b ≤ totalExponent m e) : Above b (.finite .positive m e h)

theorem Above.mono {b c : Int} {u : UnpackedFloat} (h : Above b u) (hcb : c ≤ b) : Above c u := by
  cases h with
  | infinity => exact .infinity
  | finite hle => exact .finite (hcb.trans hle)

section Shifting

theorem shiftRight_succ_eq (m n : Nat) :
    ExtendedMantissa.ofMantissaAndAccuracy m .exact >>> (n + 1) =
      ⟨m / 2 ^ (n + 1), m / 2 ^ n % 2 != 0, m % 2 ^ n != 0⟩ := by
  change (n + 1).repeat ExtendedMantissa.shiftRightOne _ = _
  induction n with
  | zero => simp [Nat.repeat, ExtendedMantissa.shiftRightOne, ExtendedMantissa.ofMantissaAndAccuracy, Nat.mod_one]
  | succ n ih =>
    have hsticky : (m / 2 ^ n % 2 != 0 || m % 2 ^ n != 0) = (m % 2 ^ (n + 1) != 0) := by
      have hmod := Nat.mod_mul (x := m) (a := 2 ^ n) (b := 2)
      have hpos := Nat.two_pow_pos n
      rw [pow_succ, hmod, Bool.eq_iff_iff]
      simp only [Bool.or_eq_true, bne_iff_ne, ne_eq, Nat.add_eq_zero_iff, Nat.mul_eq_zero]
      omega
    rw [Nat.repeat, ih, ExtendedMantissa.shiftRightOne]
    simp only [hsticky, Nat.div_div_eq_div_mul, ← pow_succ]

theorem shiftLeft_shiftRight_eq (m n : Nat) :
    ExtendedMantissa.ofMantissaAndAccuracy (m <<< n) .exact >>> n = ⟨m, false, false⟩ := by
  cases n with
  | zero => rfl
  | succ n =>
    have hpos := Nat.two_pow_pos n
    have hproduct : m * 2 ^ (n + 1) = m * 2 * 2 ^ n := by rw [pow_succ', mul_assoc]
    rw [shiftRight_succ_eq, Nat.shiftLeft_eq, Nat.mul_div_cancel _ (Nat.two_pow_pos _), hproduct,
      Nat.mul_div_cancel _ hpos, Nat.mul_mod_left, Nat.mul_mod_left]
    rfl

/-- Up to half of the last digit that stays is rounded to nothing. -/
theorem roundedMantissa_eq_zero_iff (m n : Nat) :
    (ExtendedMantissa.ofMantissaAndAccuracy m .exact >>> n).roundedMantissa = 0 ↔ 2 * m ≤ 2 ^ n := by
  cases n with
  | zero =>
    change m = 0 ↔ 2 * m ≤ 1
    omega
  | succ n =>
    have hpos := Nat.two_pow_pos n
    have hdigits := Nat.div_add_mod m (2 ^ n)
    have hdropped := Nat.mod_lt m hpos
    have hhalf : m / 2 ^ (n + 1) = m / 2 ^ n / 2 := by rw [pow_succ, Nat.div_div_eq_div_mul]
    have hbound : 2 * m ≤ 2 ^ (n + 1) ↔ m / 2 ^ n = 0 ∨ m / 2 ^ n = 1 ∧ m % 2 ^ n = 0 := by
      rw [pow_succ', Nat.mul_le_mul_left_iff (by decide)]
      rcases Nat.lt_trichotomy (m / 2 ^ n) 1 with h | h | h
      · rw [Nat.lt_one_iff.1 h] at hdigits ⊢
        omega
      · rw [h] at hdigits ⊢
        omega
      · have hlarge : 2 ^ n * 2 ≤ 2 ^ n * (m / 2 ^ n) := Nat.mul_le_mul_left _ h
        omega
    rw [shiftRight_succ_eq, hbound, hhalf]
    generalize m / 2 ^ n = k
    generalize m % 2 ^ n = dropped
    by_cases hk : k % 2 = 0 <;> by_cases hd : dropped = 0
    · subst hd
      simp only [hk, bne_self_eq_false]
      change k / 2 = 0 ↔ _
      omega
    · rw [hk, bne_self_eq_false, bne_iff_ne.2 hd]
      change k / 2 = 0 ↔ _
      omega
    · subst hd
      rw [bne_iff_ne.2 hk, bne_self_eq_false]
      change k / 2 + k / 2 % 2 = 0 ↔ _
      omega
    · rw [bne_iff_ne.2 hk, bne_iff_ne.2 hd]
      change k / 2 + 1 = 0 ↔ _
      omega

end Shifting

section Rounding

/-- Digits as rounding leaves them: fifty-three of them, or fewer at the least exponent. -/
structure Settled (m : Nat) (e : Int) : Prop where
  lt : m < 2 ^ 53
  least : -1074 ≤ e
  full : 2 ^ 52 ≤ m ∨ e = -1074

theorem settled_unpack {b : BitVec 64} {s : Sign} {m : Nat} {e : Int} {h : 0 < m}
    (hb : UnpackedFloat.unpack .binary64 b = .finite s m e h) : Settled m e := by
  obtain ⟨s', e', f, rfl⟩ := exists_eq_word b
  have hf : f.toNat < 2 ^ 52 := f.isLt
  rw [unpack_word] at hb
  split at hb
  · split at hb <;> cases hb
  · split at hb
    · split at hb
      · cases hb
      · cases hb
        exact ⟨by omega, by omega, .inr rfl⟩
    · next hzero =>
      have he : e'.toNat ≠ 0 := fun h => hzero (BitVec.eq_of_toNat_eq h)
      cases hb
      exact ⟨by omega, by omega, .inl (by omega)⟩

variable {m : Nat} {e : Int}

theorem Settled.target_eq (h : Settled m e) (hm : m ≠ 0) : max (totalExponent m e - 53) (-1074) = e := by
  have hlog : m.log2 ≤ 52 := log2_le_of_lt h.lt
  have hleast := h.least
  have hfull : 52 ≤ m.log2 ∨ e = -1074 := h.full.imp_left (Nat.le_log2 hm).2
  unfold totalExponent
  omega

theorem Settled.roundWithAccuracy_eq (h : Settled m e) (hm : 0 < m) (s : Sign) (k : Nat) :
    roundWithAccuracy .binary64 s (m <<< k) (e - k) .exact = .finite s m e hm := by
  have htarget : max (totalExponent (m <<< k) (e - k) - 53) (-1074) = e := by
    rw [totalExponent_shiftLeft hm.ne', h.target_eq hm.ne']
  have hshift : shiftToTargetExponent .binary64 (m <<< k) (e - k) .exact = (⟨m, false, false⟩, e) := by
    rw [shiftToTargetExponent, targetExponent_eq, htarget, shiftToExponent]
    have hplaces : (e - (e - k)).toNat = k := by omega
    rw [hplaces, shiftLeft_shiftRight_eq, Int.sub_add_cancel]
  obtain ⟨n, hmantissa, hexponent, hn⟩ := exists_shiftToTargetExponent m e .exact
  rw [h.target_eq hm.ne', Int.sub_self] at hn
  obtain rfl : n = 0 := hn
  rw [pow_zero, Nat.div_one] at hmantissa
  rw [Int.natCast_zero, Int.add_zero] at hexponent
  have hrounded : (⟨m, false, false⟩ : ExtendedMantissa).roundedMantissa = m := rfl
  simp only [roundWithAccuracy, hshift, hrounded, hmantissa, hexponent, dif_neg hm.ne']

theorem rounded_digits (a : Accuracy) (hlow : e ≤ max (totalExponent m e - 53) (-1074)) {r : Nat}
    (hr : (shiftToTargetExponent .binary64 m e a).1.roundedMantissa = r) :
    r ≤ 2 ^ 53 ∧ (2 ^ 52 ≤ r ∨ totalExponent m e - 53 ≤ -1074) ∧
      (r ≠ 0 → max (totalExponent m e) (-1073) ≤
        totalExponent r (max (totalExponent m e - 53) (-1074))) := by
  obtain ⟨n, hmantissa, -, hn⟩ := exists_shiftToTargetExponent m e a
  have hge : m / 2 ^ n ≤ r := by
    rw [← hr, ← hmantissa]
    exact le_roundToNearestEven _ _
  have hle : r ≤ m / 2 ^ n + 1 := by
    rw [← hr, ← hmantissa]
    exact roundToNearestEven_le _ _
  have hlog := log2_div_two_pow m n
  have hmono := log2_mono hge
  have hlt : m / 2 ^ n < 2 ^ 53 := Nat.lt_of_lt_of_le Nat.lt_log2_self (Nat.pow_le_pow_right (by decide) (by
    unfold totalExponent at hn
    omega))
  unfold totalExponent at *
  refine ⟨by omega, ?_, fun hne => ?_⟩
  · by_cases hsmall : (m.log2 : Int) + 1 + e - 53 ≤ -1074
    · exact .inr hsmall
    · have hne : m / 2 ^ n ≠ 0 := by
        intro h
        have hzero : (m / 2 ^ n).log2 = 0 := by rw [h]; rfl
        omega
      have hfull : 2 ^ 52 ≤ m / 2 ^ n := (Nat.le_log2 hne).1 (by omega)
      exact .inl (hfull.trans hge)
  · omega

/-- What is not rounded to nothing keeps the weight of its first digit, and is at least the least number. -/
theorem exists_roundWithAccuracy_settled (s : Sign) (a : Accuracy)
    (hlow : e ≤ max (totalExponent m e - 53) (-1074))
    (hr : (shiftToTargetExponent .binary64 m e a).1.roundedMantissa ≠ 0) :
    ∃ m' e' h, roundWithAccuracy .binary64 s m e a = .finite s m' e' h ∧ Settled m' e' ∧
      max (totalExponent m e) (-1073) ≤ totalExponent m' e' := by
  have hexponent := exponent_shiftToTargetExponent m e a
  rw [max_eq_right hlow] at hexponent
  generalize hrounded : (shiftToTargetExponent .binary64 m e a).1.roundedMantissa = r at hr
  obtain ⟨hle, hfull, htotal⟩ := rounded_digits a hlow hrounded
  obtain ⟨k, hmantissa', hexponent', hk⟩ :=
    exists_shiftToTargetExponent r (max (totalExponent m e - 53) (-1074)) .exact
  -- Only when rounding carried into a fifty-fourth digit does anything move, and then nothing is lost.
  have hshift : k = 0 ∧ r < 2 ^ 53 ∨ k = 1 ∧ r = 2 ^ 53 := by
    rcases Nat.lt_or_eq_of_le hle with hlt | heq
    · have hlog := log2_le_of_lt (k := 52) hlt
      unfold totalExponent at hk
      omega
    · have hlog : r.log2 = 53 := by rw [heq, Nat.log2_two_pow]
      unfold totalExponent at hk
      omega
  have hne : r / 2 ^ k ≠ 0 := by
    rcases hshift with ⟨rfl, -⟩ | ⟨rfl, rfl⟩
    · rwa [pow_zero, Nat.div_one]
    · decide
  have hkept := totalExponent_shiftToTargetExponent r (max (totalExponent m e - 53) (-1074)) .exact
    (by rwa [hmantissa'])
  rw [hmantissa', hexponent'] at hkept
  refine ⟨r / 2 ^ k, max (totalExponent m e - 53) (-1074) + k, Nat.pos_of_ne_zero hne, ?_, ?_,
    (htotal hr).trans hkept.ge⟩
  · simp only [roundWithAccuracy, hrounded, hexponent, hmantissa', hexponent', dif_neg hne]
  · rcases hshift with ⟨rfl, hlt⟩ | ⟨rfl, rfl⟩
    · rw [pow_zero, Nat.div_one]
      exact ⟨hlt, by omega, by omega⟩
    · exact ⟨by decide, by omega, .inl (by decide)⟩

theorem roundedMantissa_ne_zero (a : Accuracy) (h : -1073 ≤ totalExponent m e) (hm : m ≠ 0) :
    (shiftToTargetExponent .binary64 m e a).1.roundedMantissa ≠ 0 := by
  obtain ⟨n, hmantissa, -, hn⟩ := exists_shiftToTargetExponent m e a
  have hle : m / 2 ^ n ≤ (shiftToTargetExponent .binary64 m e a).1.roundedMantissa := by
    rw [← hmantissa]
    exact le_roundToNearestEven _ _
  have hdigits : 2 ^ n ≤ m := (Nat.le_log2 hm).1 (by
    unfold totalExponent at *
    omega)
  have hpos := Nat.div_pos hdigits (Nat.two_pow_pos n)
  omega

theorem two_zpow_le (hm : m ≠ 0) (e : Int) : (2 : ℚ) ^ (totalExponent m e - 1) ≤ m * 2 ^ e := by
  have hlog : ((2 ^ m.log2 : Nat) : ℚ) ≤ m := Nat.cast_le.2 (Nat.log2_self_le hm)
  have hsplit : totalExponent m e - 1 = m.log2 + e := by
    unfold totalExponent
    omega
  rw [hsplit, zpow_add₀ two_ne_zero, zpow_natCast]
  exact mul_le_mul_of_nonneg_right (by exact_mod_cast hlog) (zpow_nonneg zero_le_two e)

theorem roundedMantissa_eq_zero_iff_le (hlow : e ≤ max (totalExponent m e - 53) (-1074)) :
    (shiftToTargetExponent .binary64 m e .exact).1.roundedMantissa = 0 ↔ (m : ℚ) * 2 ^ e ≤ 2 ^ (-1075 : Int) := by
  by_cases hsmall : totalExponent m e - 53 ≤ -1074
  · have hshift : (shiftToTargetExponent .binary64 m e .exact).1.roundedMantissa = 0 ↔
        2 * m ≤ 2 ^ (max (totalExponent m e - 53) (-1074) - e).toNat := roundedMantissa_eq_zero_iff m _
    rw [max_eq_right hsmall] at hshift hlow
    have hpower : ((2 ^ (-1074 - e).toNat : Nat) : ℚ) * 2 ^ e = 2 * 2 ^ (-1075 : Int) := by
      rw [Nat.cast_pow, Nat.cast_ofNat, ← zpow_natCast, ← zpow_add₀ two_ne_zero, ← zpow_one_add₀ two_ne_zero]
      congr 1
      omega
    rw [hshift, ← Nat.cast_le (α := ℚ), ← mul_le_mul_iff_of_pos_right (zpow_pos two_pos e), hpower, Nat.cast_mul,
      mul_assoc, Nat.cast_ofNat, mul_le_mul_iff_of_pos_left two_pos]
  · have hm : m ≠ 0 := by
      rintro rfl
      have hnone : (0 : Nat).log2 = 0 := rfl
      unfold totalExponent at *
      omega
    have hlarge : (2 : ℚ) ^ (-1075 : Int) < 2 ^ (totalExponent m e - 1) :=
      zpow_lt_zpow_right₀ one_lt_two (by omega)
    exact iff_of_false (roundedMantissa_ne_zero .exact (by omega) hm) (hlarge.trans_le (two_zpow_le hm e)).not_ge

theorem Settled.unpack_pack (h : Settled m e) (hhigh : e ≤ 971) (s : Sign) (hm : 0 < m) :
    UnpackedFloat.unpack .binary64 (UnpackedFloat.pack .binary64 (.finite s m e hm)) = .finite s m e hm := by
  by_cases hfull : 2 ^ 52 ≤ m
  · exact unpack_pack_normal s hm ((Nat.log2_eq_iff hm.ne').2 ⟨hfull, h.lt⟩) h.least hhigh
  · obtain rfl : e = -1074 := h.full.resolve_left hfull
    have hdigits : (BitVec.ofNat 52 m).toNat = m := by
      rw [BitVec.toNat_ofNat]
      omega
    have hne : BitVec.ofNat 52 m ≠ 0#52 := by
      intro hzero
      rw [hzero] at hdigits
      exact hm.ne' hdigits.symm
    have hpack := pack_subnormal s (BitVec.ofNat 52 m) (by omega)
    simp only [hdigits] at hpack
    rw [hpack, unpack_word, if_neg (by decide), if_pos rfl, dif_neg hne]
    simp only [hdigits]

theorem unpack_pack_of_exponent_gt (hhigh : 971 < e) (s : Sign) (hm : 0 < m) :
    UnpackedFloat.unpack .binary64 (UnpackedFloat.pack .binary64 (.finite s m e hm)) = .infinity s := by
  have hinfinite : UnpackedFloat.pack .binary64 (.finite s m e hm) = word s (-1#11) 0#52 := by
    have hbias : e + Format.binary64.exponentBias + Format.binary64.mantissaBitsWithoutImplicit = e + 1075 := by
      have : (Format.binary64.exponentBias : Int) = 1023 := rfl
      have : (Format.binary64.mantissaBitsWithoutImplicit : Int) = 52 := rfl
      omega
    simp only [UnpackedFloat.pack, hbias]
    rw [if_pos (by change 2048 ≤ _; omega)]
    rfl
  rw [hinfinite, unpack_word, if_pos rfl, if_pos rfl]

theorem above_unpack_pack {b : Int} (h : Settled m e) (hm : 0 < m) (hb : b ≤ totalExponent m e) :
    Above b (UnpackedFloat.unpack .binary64 (UnpackedFloat.pack .binary64 (.finite .positive m e hm))) := by
  by_cases hhigh : e ≤ 971
  · rw [h.unpack_pack hhigh]
    exact .finite hb
  · rw [unpack_pack_of_exponent_gt (Int.lt_of_not_ge hhigh)]
    exact .infinity

theorem above_round (a : Accuracy) (hlow : e ≤ max (totalExponent m e - 53) (-1074))
    (hr : (shiftToTargetExponent .binary64 m e a).1.roundedMantissa ≠ 0) :
    Above (max (totalExponent m e) (-1073)) (UnpackedFloat.unpack .binary64 (UnpackedFloat.pack .binary64
      (roundWithAccuracy .binary64 .positive m e a))) := by
  obtain ⟨m', e', hm', hround, hsettled, htotal⟩ := exists_roundWithAccuracy_settled .positive a hlow hr
  rw [hround]
  exact above_unpack_pack hsettled hm' htotal

theorem roundWithAccuracy_eq_zero (s : Sign) (a : Accuracy)
    (hr : (shiftToTargetExponent .binary64 m e a).1.roundedMantissa = 0) :
    roundWithAccuracy .binary64 s m e a = .zero s := by
  obtain ⟨k, hmantissa, -, -⟩ := exists_shiftToTargetExponent 0 (shiftToTargetExponent .binary64 m e a).2 .exact
  rw [Nat.zero_div] at hmantissa
  simp only [roundWithAccuracy, hr, hmantissa, dif_pos]

end Rounding

section Operations

variable {m n : Nat} {e k : Int} {u v : UnpackedFloat} {a b : Int} {x y : Float}

theorem log2_add_le_log2_mul (hm : m ≠ 0) (hn : n ≠ 0) : m.log2 + n.log2 ≤ (m * n).log2 := by
  refine (Nat.le_log2 (Nat.mul_ne_zero hm hn)).2 ?_
  rw [pow_add]
  exact Nat.mul_le_mul (Nat.log2_self_le hm) (Nat.log2_self_le hn)

theorem Settled.mul_low (h : Settled m e) (h' : Settled n k) (hm : m ≠ 0) (hn : n ≠ 0) :
    e + k ≤ max (totalExponent (m * n) (e + k) - 53) (-1074) := by
  have hlog := log2_add_le_log2_mul hm hn
  have hleft : 52 ≤ m.log2 ∨ e = -1074 := h.full.imp_left (Nat.le_log2 hm).2
  have hright : 52 ≤ n.log2 ∨ k = -1074 := h'.full.imp_left (Nat.le_log2 hn).2
  unfold totalExponent
  omega

theorem one_mul_unpacked (b : BitVec 64) : UnpackedFloat.mul .binary64 (1 : Float).toModel.unpack
    (UnpackedFloat.unpack .binary64 b) = UnpackedFloat.unpack .binary64 b := by
  have hone : (1 : Float).toModel.unpack = .finite .positive (2 ^ 52) (-52) (by decide) := by rfl
  rw [hone]
  cases hu : UnpackedFloat.unpack .binary64 b with
  | notANumber => rfl
  | infinity s => cases s <;> rfl
  | zero s => cases s <;> rfl
  | finite s m e hm =>
    have hsign : .positive * s = s := by cases s <;> rfl
    have hround := (settled_unpack hu).roundWithAccuracy_eq hm s 52
    rw [Nat.shiftLeft_eq, Nat.mul_comm, sub_eq_neg_add] at hround
    rw [UnpackedFloat.mul, hsign]
    exact hround

theorem above_normalize (hn : n ≠ 0) (h : -1073 ≤ totalExponent n e) (s : Sign) :
    Above (totalExponent n e) (UnpackedFloat.unpack .binary64 (UnpackedFloat.pack .binary64
      (UnpackedFloat.normalize .binary64 n e s))) := by
  rw [normalize_of_pos (by omega), Int.toNat_natCast]
  have htotal := totalExponent_shiftLeft hn e (e - Format.binary64.targetExponent (totalExponent n e)).toNat
  have hne : n <<< (e - Format.binary64.targetExponent (totalExponent n e)).toNat ≠ 0 := by
    rw [Nat.shiftLeft_eq]
    exact Nat.mul_ne_zero hn (Nat.two_pow_pos _).ne'
  have hround := above_round .exact (by rw [htotal, targetExponent_eq]; omega)
    (roundedMantissa_ne_zero .exact (htotal ▸ h) hne)
  rw [htotal, max_eq_left h] at hround
  exact hround

theorem above_infinity (b : Int) : Above b (UnpackedFloat.unpack .binary64 (UnpackedFloat.pack .binary64
    (.infinity .positive))) := .infinity

theorem above_add (hu : Above b u) (hv : Above b v) (hb : -1073 ≤ b) :
    Above b (UnpackedFloat.unpack .binary64 (UnpackedFloat.pack .binary64 (UnpackedFloat.add .binary64 u v))) := by
  cases hu with
  | infinity => cases hv <;> exact above_infinity b
  | @finite m e hm hle =>
    cases hv with
    | infinity => exact above_infinity b
    | @finite n k hn hle' =>
      have hsum : m <<< (e - min e k).toNat ≤ m <<< (e - min e k).toNat + n <<< (k - min e k).toNat :=
        Nat.le_add_right _ _
      have hne : m <<< (e - min e k).toNat ≠ 0 := by
        rw [Nat.shiftLeft_eq]
        exact Nat.mul_ne_zero hm.ne' (Nat.two_pow_pos _).ne'
      have hlog := log2_mono hsum
      rw [log2_shiftLeft hm.ne'] at hlog
      have htotal : b ≤ totalExponent (m <<< (e - min e k).toNat + n <<< (k - min e k).toNat) (min e k) := by
        unfold totalExponent at *
        omega
      have hpos := Nat.lt_of_lt_of_le (Nat.pos_of_ne_zero hne) hsum
      exact (above_normalize hpos.ne' (hb.trans htotal) .positive).mono htotal

/-- The root halves the exponent, and one place is lost where it is odd. -/
theorem above_sqrt (hu : Above b u) (hb : -1073 ≤ b) : Above ((b + 1) / 2) (UnpackedFloat.unpack .binary64
    (UnpackedFloat.pack .binary64 (UnpackedFloat.sqrt .binary64 u))) := by
  cases hu with
  | infinity => exact above_infinity _
  | @finite m e hm hle =>
    generalize htarget : min (e.ediv 2) (Format.binary64.targetExponent ((totalExponent m e + 1).ediv 2)) = t
    have hplace : min (e / 2) (max ((totalExponent m e + 1) / 2 - 53) (-1074)) = t := htarget
    have hne : m <<< (e - 2 * t).toNat ≠ 0 := by
      rw [Nat.shiftLeft_eq]
      exact Nat.mul_ne_zero hm.ne' (Nat.two_pow_pos _).ne'
    have hroot : 2 ^ ((m <<< (e - 2 * t).toNat).log2 / 2) ≤ Nat.sqrt (m <<< (e - 2 * t).toNat) := by
      refine Nat.le_sqrt'.2 (le_trans ?_ (Nat.log2_self_le hne))
      rw [← pow_mul]
      exact Nat.pow_le_pow_right (by decide) (Nat.div_mul_le_self _ 2)
    have hrootne : Nat.sqrt (m <<< (e - 2 * t).toNat) ≠ 0 := (Nat.lt_of_lt_of_le (Nat.two_pow_pos _) hroot).ne'
    have hlog := (Nat.le_log2 hrootne).2 hroot
    rw [log2_shiftLeft hm.ne'] at hlog
    have htotal : (totalExponent m e + 1) / 2 ≤ totalExponent (Nat.sqrt (m <<< (e - 2 * t).toNat)) t := by
      unfold totalExponent at *
      omega
    have hround (a : Accuracy) := above_round a (m := Nat.sqrt (m <<< (e - 2 * t).toNat)) (e := t) (by omega)
      (roundedMantissa_ne_zero a (by omega) hrootne)
    subst htarget
    exact (hround _).mono (by omega)

theorem above_mul {s t : BitVec 64} (hu : Above a (UnpackedFloat.unpack .binary64 s))
    (hv : Above b (UnpackedFloat.unpack .binary64 t)) (h : -1072 ≤ a + b) :
    Above (a + b - 1) (UnpackedFloat.unpack .binary64 (UnpackedFloat.pack .binary64 (UnpackedFloat.mul .binary64
      (UnpackedFloat.unpack .binary64 s) (UnpackedFloat.unpack .binary64 t)))) := by
  generalize hx : UnpackedFloat.unpack .binary64 s = u at *
  generalize hy : UnpackedFloat.unpack .binary64 t = v at *
  cases hu with
  | infinity => cases hv <;> exact above_infinity _
  | @finite m e hm hle =>
    cases hv with
    | infinity => exact above_infinity _
    | @finite n k hn hle' =>
      have hlow := (settled_unpack hx).mul_low (settled_unpack hy) hm.ne' hn.ne'
      have hlog := log2_add_le_log2_mul hm.ne' hn.ne'
      have htotal : a + b - 1 ≤ totalExponent (m * n) (e + k) := by
        unfold totalExponent at *
        omega
      have hkept := roundedMantissa_ne_zero .exact (m := m * n) (e := e + k) (by omega)
        (Nat.mul_ne_zero hm.ne' hn.ne')
      exact (above_round .exact hlow hkept).mono (htotal.trans (le_max_left _ _))

end Operations

theorem one_mul_eq (x : Float) : 1 * x = x :=
  (congrArg (Float.ofModel ∘ Float.Model.pack) (one_mul_unpacked x.toModel.toBits.toBitVec)).trans
    (congrArg Float.ofModel (pack_unpack x.toModel))

def Reaches (b : Int) (x : Float) : Prop := Above b x.toModel.unpack

namespace Reaches

variable {x y : Float} {a b : Int}

theorem add (hx : Reaches b x) (hy : Reaches b y) (hb : -1073 ≤ b) : Reaches b (x + y) := above_add hx hy hb

theorem mul (hx : Reaches a x) (hy : Reaches b y) (h : -1072 ≤ a + b) : Reaches (a + b - 1) (x * y) :=
  above_mul hx hy h

theorem sqrt (hx : Reaches b x) (hb : -1073 ≤ b) : Reaches ((b + 1) / 2) x.sqrt := above_sqrt hx hb

theorem not_isZero (h : Reaches b x) : ¬ Component.isZero x = true := by
  rw [isZero_iff_unpack]
  rintro ⟨s, hs⟩
  unfold Reaches at h
  rw [hs] at h
  cases h

theorem nonneg (h : Reaches b x) : 0 ≤ x := by
  rw [le_iff, unpack_zero]
  unfold Reaches at h
  cases hx : x.toModel.unpack <;> rw [hx] at h <;> cases h <;> rfl

end Reaches

section Zeros

variable {x : Float}

theorem nonneg_of_isZero (h : Component.isZero x = true) : 0 ≤ x := by
  obtain ⟨s, hx⟩ := (isZero_iff_unpack x).1 h
  rw [le_iff, unpack_zero, hx]
  rfl

theorem isZero_sqrt (h : Component.isZero x = true) : Component.isZero x.sqrt = true := by
  obtain ⟨s, hx⟩ := (isZero_iff_unpack x).1 h
  rw [isZero_iff_unpack]
  change ∃ t, UnpackedFloat.unpack .binary64 (UnpackedFloat.pack .binary64
    (UnpackedFloat.sqrt .binary64 x.toModel.unpack)) = .zero t
  rw [hx]
  exact ⟨s, by cases s <;> rfl⟩

theorem value_of_isZero (h : Component.isZero x = true) : value x = 0 := by
  obtain ⟨s, hx⟩ := (isZero_iff_unpack x).1 h
  rw [value, hx]
  rfl

theorem isZero_of_value (h : x.isFinite = true) (hvalue : value x = 0) : Component.isZero x = true := by
  have hfinite : x.toModel.unpack.isFinite = true := h
  rw [isZero_iff_unpack]
  rw [value] at hvalue
  cases hx : x.toModel.unpack with
  | notANumber => rw [hx] at hfinite; cases hfinite
  | infinity s => rw [hx] at hfinite; cases hfinite
  | zero s => exact ⟨s, rfl⟩
  | finite s m e hm =>
    have hne : (s.apply m : Int) ≠ 0 := fun h => hm.ne' (by rw [← natAbs_apply s m, h, Int.natAbs_zero])
    rw [hx, exactValue, mul_eq_zero, Int.cast_eq_zero] at hvalue
    exact absurd hvalue (not_or.2 ⟨hne, zpow_ne_zero e two_ne_zero⟩)

theorem beq_of_isZero {y : Float} (hx : Component.isZero x = true) (hy : Component.isZero y = true) :
    (x == y) = true := by
  obtain ⟨s, hs⟩ := (isZero_iff_unpack x).1 hx
  obtain ⟨t, ht⟩ := (isZero_iff_unpack y).1 hy
  change x.toModel.unpack.beq y.toModel.unpack = true
  rw [hs, ht]
  rfl

theorem value_sq_le_of_isZero (h : Component.isZero x = true) : value x ^ 2 ≤ 2 ^ (-1075 : Int) := by
  rw [value_of_isZero h, zero_pow two_ne_zero]
  exact zpow_nonneg zero_le_two _

end Zeros

section Squares

variable {x : Float}

theorem exactValue_sq (s : Sign) {m : Nat} {e : Int} (hm : 0 < m) :
    exactValue (.finite s m e hm) ^ 2 = ((m * m : Nat) : ℚ) * 2 ^ (e + e) := by
  have hsign : ((s.apply m : Int) : ℚ) ^ 2 = m ^ 2 := by
    cases s with
    | negative => simp [Sign.apply]
    | positive => simp [Sign.apply]
  rw [exactValue, mul_pow, hsign, zpow_add₀ two_ne_zero, Nat.cast_mul]
  ring

theorem within_of_square (h : x.isFinite = true) (hx : value x ^ 2 ≤ 2 ^ (-1075 : Int)) : Within 0 x := by
  have hfinite : x.toModel.unpack.isFinite = true := h
  rw [value] at hx
  rw [Within]
  cases hu : x.toModel.unpack with
  | notANumber => rw [hu] at hfinite; cases hfinite
  | infinity s => rw [hu] at hfinite; cases hfinite
  | zero s => exact .zero s
  | finite s m e hm =>
    rw [hu, exactValue_sq] at hx
    have hpower := (two_zpow_le (Nat.mul_ne_zero hm.ne' hm.ne') (e + e)).trans hx
    rw [zpow_le_zpow_iff_right₀ one_lt_two] at hpower
    have hlog := log2_add_le_log2_mul hm.ne' hm.ne'
    refine .finite ?_
    unfold totalExponent at *
    omega

/-- Zero where `P` holds, and at least the least number where it does not. -/
inductive VanishesIf (P : Prop) (x : Float) : Prop where
  | zero (h : P) (hx : Component.isZero x = true)
  | reaches (h : ¬ P) (hx : Reaches (-1073) x)

namespace VanishesIf

variable {P Q : Prop} {y : Float}

theorem congr (h : VanishesIf P x) (hPQ : P ↔ Q) : VanishesIf Q x := by
  cases h with
  | zero h hx => exact .zero (hPQ.1 h) hx
  | reaches h hx => exact .reaches (fun hQ => h (hPQ.2 hQ)) hx

theorem of_agrees (h : VanishesIf P x) (hxy : Component.Agrees y x) : VanishesIf P y := by
  rcases hxy with rfl | ⟨hy, hx⟩
  · exact h
  · cases h with
    | zero h _ => exact .zero h hy
    | reaches _ hreaches => exact absurd hx hreaches.not_isZero

theorem nonneg (h : VanishesIf P x) : 0 ≤ x := by
  cases h with
  | zero _ hx => exact nonneg_of_isZero hx
  | reaches _ hx => exact hx.nonneg

theorem add (hx : VanishesIf P x) (hy : VanishesIf Q y) : VanishesIf (P ∧ Q) (x + y) := by
  cases hx with
  | zero hP hx => exact (hy.congr (and_iff_right hP).symm).of_agrees (Component.add_agrees_of_isZero hx y)
  | reaches hP hx =>
    refine .reaches (fun h => hP h.1) ?_
    cases hy with
    | zero _ hy =>
      rw [LawfulSigns.add_comm]
      rcases Component.add_agrees_of_isZero hy x with heq | ⟨-, hzero⟩
      · rwa [heq]
      · exact absurd hzero hx.not_isZero
    | reaches _ hy => exact hx.add hy (by decide)

end VanishesIf

theorem unpack_mul_self {s : Sign} {m : Nat} {e : Int} {hm : 0 < m} (hx : x.toModel.unpack = .finite s m e hm) :
    (x * x).toModel.unpack = UnpackedFloat.unpack .binary64 (UnpackedFloat.pack .binary64
      (roundWithAccuracy .binary64 .positive (m * m) (e + e) .exact)) := by
  have hsign : s * s = .positive := by cases s <;> rfl
  change UnpackedFloat.unpack .binary64 (UnpackedFloat.pack .binary64
    (UnpackedFloat.mul .binary64 x.toModel.unpack x.toModel.unpack)) = _
  rw [hx, UnpackedFloat.mul, hsign]

/-- The square of a finite number is rounded to zero just where it is at most half of the least number. -/
theorem vanishesIf_square (h : x.isFinite = true) : VanishesIf (value x ^ 2 ≤ 2 ^ (-1075 : Int)) (x * x) := by
  have hfinite : x.toModel.unpack.isFinite = true := h
  rw [value]
  cases hx : x.toModel.unpack with
  | notANumber => rw [hx] at hfinite; cases hfinite
  | infinity s => rw [hx] at hfinite; cases hfinite
  | zero s =>
    have hzero : Component.isZero x = true := (isZero_iff_unpack x).2 ⟨s, hx⟩
    exact .zero (hx ▸ value_sq_le_of_isZero hzero) ((isZero_mul_iff_isFinite hzero x).2 h)
  | finite s m e hm =>
    have hlow := (settled_unpack hx).mul_low (settled_unpack hx) hm.ne' hm.ne'
    have hsquare := unpack_mul_self hx
    rw [exactValue_sq, ← roundedMantissa_eq_zero_iff_le hlow]
    by_cases hr : (shiftToTargetExponent .binary64 (m * m) (e + e) .exact).1.roundedMantissa = 0
    · refine .zero hr ((isZero_iff_unpack _).2 ⟨.positive, ?_⟩)
      rw [hsquare, roundWithAccuracy_eq_zero .positive .exact hr]
      rfl
    · refine .reaches hr ?_
      rw [Reaches, hsquare]
      exact (above_round .exact hlow hr).mono (le_max_right _ _)

end Squares

end MatrixCalculator.Binary64
