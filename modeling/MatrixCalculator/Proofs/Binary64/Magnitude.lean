import Mathlib
import MatrixCalculator.Proofs.Binary64.WholeNumber
import MatrixCalculator.Proofs.Binary64.WholePart
import MatrixCalculator.Proofs.Binary64.ZeroSign
set_option autoImplicit false

/-!
How large the results of 64-bit floating arithmetic can be. A bound is a power of two above the
magnitude: a product adds the bounds and one more, a sum adds two to the larger, and a quotient by a
number not below one adds one. Numbers whose bound stays inside the range are finite.
-/

namespace MatrixCalculator.Binary64

open Float.Model Float.Model.UnpackedFloat

theorem log2_div_two_pow (m n : Nat) : (m / 2 ^ n).log2 = m.log2 - n := by
  simp only [Nat.log2_eq_log_two, Nat.log_div_base_pow]

theorem log2_shiftLeft {m : Nat} (hm : m ≠ 0) (n : Nat) : (m <<< n).log2 = m.log2 + n := by
  have hback := log2_div_two_pow (m * 2 ^ n) n
  have hle : n ≤ (m * 2 ^ n).log2 :=
    (Nat.le_log2 (Nat.mul_ne_zero hm (Nat.two_pow_pos n).ne')).2
      (Nat.le_mul_of_pos_left _ (Nat.pos_of_ne_zero hm))
  rw [Nat.mul_div_cancel m (Nat.two_pow_pos n)] at hback
  rw [Nat.shiftLeft_eq]
  omega

theorem log2_le_of_lt {m k : Nat} (h : m < 2 ^ (k + 1)) : m.log2 ≤ k := by
  by_cases hm : m = 0
  · simp [hm]
  · exact Nat.le_of_lt_succ ((Nat.log2_lt hm).2 h)

theorem log2_mul_le (m n : Nat) : (m * n).log2 ≤ m.log2 + n.log2 + 1 := by
  refine log2_le_of_lt ?_
  calc m * n < 2 ^ (m.log2 + 1) * 2 ^ (n.log2 + 1) :=
        Nat.mul_lt_mul'' Nat.lt_log2_self Nat.lt_log2_self
    _ = 2 ^ (m.log2 + n.log2 + 1 + 1) := by rw [← Nat.pow_add]; congr 1; omega

theorem log2_succ_le (m : Nat) : (m + 1).log2 ≤ m.log2 + 1 := by
  have hlt : m < 2 ^ (m.log2 + 1) := Nat.lt_log2_self
  refine log2_le_of_lt ?_
  rw [Nat.pow_succ]
  omega

theorem log2_mono {m n : Nat} (h : m ≤ n) : m.log2 ≤ n.log2 :=
  log2_le_of_lt (Nat.lt_of_le_of_lt h Nat.lt_log2_self)

theorem log2_div_le (m : Nat) {n : Nat} (hn : n ≠ 0) : (m / n).log2 ≤ m.log2 - n.log2 := by
  rw [← log2_div_two_pow]
  exact log2_mono (Nat.div_le_div_left (Nat.log2_self_le hn) (Nat.two_pow_pos _))

theorem le_roundToNearestEven (m : Nat) (a : Accuracy) : m ≤ a.roundToNearestEven m := by
  unfold Accuracy.roundToNearestEven
  split <;> omega

section Rounding

variable (m : Nat) (e : Int) (a : Accuracy)

theorem exists_shiftToTargetExponent : ∃ n : Nat,
    (shiftToTargetExponent .binary64 m e a).1.mantissa = m / 2 ^ n ∧
      (shiftToTargetExponent .binary64 m e a).2 = e + n ∧
        n = (max (totalExponent m e - 53) (-1074) - e).toNat := by
  refine ⟨_, ?_, rfl, rfl⟩
  have hdigits : (ExtendedMantissa.ofMantissaAndAccuracy m a).mantissa = m := by
    cases a with
    | exact => rfl
    | inexact o => cases o <;> rfl
  exact (mantissa_shiftRight _ _).trans (by rw [hdigits])

/-- A shift that leaves digits leaves the leading one its weight. -/
theorem totalExponent_shiftToTargetExponent
    (h : (shiftToTargetExponent .binary64 m e a).1.mantissa ≠ 0) :
    totalExponent (shiftToTargetExponent .binary64 m e a).1.mantissa
      (shiftToTargetExponent .binary64 m e a).2 = totalExponent m e := by
  obtain ⟨n, hmantissa, hexponent, -⟩ := exists_shiftToTargetExponent m e a
  rw [hmantissa] at h
  have hm : m ≠ 0 := fun hm => h (by simp [hm])
  have hn : n ≤ m.log2 := (Nat.le_log2 hm).2 (Nat.le_of_not_lt fun hlt => h (Nat.div_eq_of_lt hlt))
  rw [hmantissa, hexponent, totalExponent, totalExponent, log2_div_two_pow]
  omega

variable {m e}

/-- Rounding can carry into one more digit; what is rounded up from nothing is the least number. -/
theorem totalExponent_rounded_le {b : Int} (h : totalExponent m e ≤ b) (hb : -1074 ≤ b) :
    totalExponent (shiftToTargetExponent .binary64 m e a).1.roundedMantissa
      (shiftToTargetExponent .binary64 m e a).2 ≤ b + 1 := by
  have hround : (shiftToTargetExponent .binary64 m e a).1.roundedMantissa ≤
      (shiftToTargetExponent .binary64 m e a).1.mantissa + 1 := roundToNearestEven_le _ _
  by_cases hzero : (shiftToTargetExponent .binary64 m e a).1.mantissa = 0
  · obtain ⟨n, hmantissa, hexponent, hn⟩ := exists_shiftToTargetExponent m e a
    rw [hzero] at hround
    have hlog := log2_mono hround
    have hlost : m.log2 < n ∨ m = 0 := by
      by_cases hm : m = 0
      · exact .inr hm
      · rw [hmantissa] at hzero
        rcases Nat.div_eq_zero_iff.1 hzero with hpow | hlt
        · exact absurd hpow (Nat.two_pow_pos n).ne'
        · exact .inl ((Nat.log2_lt hm).2 hlt)
    have hone : (0 + 1 : Nat).log2 = 0 := by decide
    unfold totalExponent at *
    rw [hexponent]
    rcases hlost with hlost | rfl
    · omega
    · have hnone : (0 : Nat).log2 = 0 := by decide
      omega
  · have htotal := totalExponent_shiftToTargetExponent m e a hzero
    have hlog := (log2_mono hround).trans (log2_succ_le _)
    unfold totalExponent at *
    omega

/-- Digits enough for a normal number are rounded to fifty-three, and lose no weight. -/
theorem exists_roundWithAccuracy_eq (s : Sign) (hm : 52 ≤ m.log2) (ht : -1021 ≤ totalExponent m e) :
    ∃ m' e' h, roundWithAccuracy .binary64 s m e a = .finite s m' e' h ∧ m'.log2 = 52 ∧
      totalExponent m e ≤ totalExponent m' e' := by
  obtain ⟨n, hmantissa, hexponent, hn⟩ := exists_shiftToTargetExponent m e a
  have hround := log2_mono (le_roundToNearestEven (shiftToTargetExponent .binary64 m e a).1.mantissa
    (shiftToTargetExponent .binary64 m e a).1.accuracy)
  have hcarry := (log2_mono (roundToNearestEven_le (shiftToTargetExponent .binary64 m e a).1.mantissa
    (shiftToTargetExponent .binary64 m e a).1.accuracy)).trans (log2_succ_le _)
  rw [hmantissa, log2_div_two_pow, ← hmantissa] at hround hcarry
  change _ ≤ (shiftToTargetExponent .binary64 m e a).1.roundedMantissa.log2 at hround
  change (shiftToTargetExponent .binary64 m e a).1.roundedMantissa.log2 ≤ _ at hcarry
  generalize hr : (shiftToTargetExponent .binary64 m e a).1.roundedMantissa = r at hround hcarry
  generalize he : (shiftToTargetExponent .binary64 m e a).2 = e₁ at hexponent
  obtain ⟨k, hmantissa', hexponent', hk⟩ := exists_shiftToTargetExponent r e₁ .exact
  have hlog : (r / 2 ^ k).log2 = 52 := by
    rw [log2_div_two_pow]
    unfold totalExponent at *
    omega
  have hne : r / 2 ^ k ≠ 0 := by
    intro h
    rw [h] at hlog
    exact absurd hlog (by decide)
  have htotal := totalExponent_shiftToTargetExponent r e₁ .exact (by rwa [hmantissa'])
  refine ⟨r / 2 ^ k, e₁ + k, Nat.pos_of_ne_zero hne, ?_, hlog, ?_⟩
  · simp only [roundWithAccuracy, hr, he, hmantissa', hexponent', dif_neg hne]
  · rw [hmantissa', hexponent'] at htotal
    rw [htotal]
    unfold totalExponent at *
    omega

end Rounding

/-- Zero, or a number of a magnitude below two to the power `b`. -/
inductive Below (b : Int) : UnpackedFloat → Prop
  | zero (s : Sign) : Below b (.zero s)
  | finite {s : Sign} {m : Nat} {e : Int} {h : 0 < m} (hle : totalExponent m e ≤ b) : Below b (.finite s m e h)

theorem Below.isFinite {b : Int} {u : UnpackedFloat} (h : Below b u) : u.isFinite = true := by
  cases h <;> rfl

theorem Below.mono {b c : Int} {u : UnpackedFloat} (h : Below b u) (hbc : b ≤ c) : Below c u := by
  cases h with
  | zero s => exact .zero s
  | finite hle => exact .finite (hle.trans hbc)

theorem Below.neg {b : Int} {u : UnpackedFloat} (h : Below b u) : Below b u.neg := by
  cases h with
  | zero s => exact .zero _
  | finite hle => exact .finite hle

theorem below_roundWithAccuracy {m : Nat} {e b : Int} (h : totalExponent m e ≤ b) (hb : -1074 ≤ b)
    (s : Sign) (a : Accuracy) : Below (b + 1) (roundWithAccuracy .binary64 s m e a) := by
  have hrounded := totalExponent_rounded_le a h hb
  simp only [roundWithAccuracy]
  split
  · exact .zero s
  · next hne => exact .finite ((totalExponent_shiftToTargetExponent _ _ .exact hne).trans_le hrounded)

theorem totalExponent_shiftLeft {m : Nat} (hm : m ≠ 0) (e : Int) (n : Nat) :
    totalExponent (m <<< n) (e - n) = totalExponent m e := by
  rw [totalExponent, totalExponent, log2_shiftLeft hm]
  omega

theorem below_normalize {m : Int} {k : Nat} (hm : m.natAbs < 2 ^ (k + 1)) {e b : Int} (h : k + 1 + e ≤ b)
    (hb : -1074 ≤ b) (s : Sign) : Below (b + 1) (UnpackedFloat.normalize .binary64 m e s) := by
  have hround (t : Sign) {n : Nat} (hn : n ≠ 0) (hlt : n < 2 ^ (k + 1)) :
      Below (b + 1) (UnpackedFloat.round .binary64 t n e) := by
    refine below_roundWithAccuracy ?_ hb t .exact
    rw [totalExponent_shiftLeft hn]
    have hlog := log2_le_of_lt hlt
    unfold totalExponent
    omega
  rcases Int.lt_trichotomy m 0 with hneg | rfl | hpos
  · rw [normalize_of_neg hneg]
    exact hround _ (by omega) (by omega)
  · exact .zero s
  · rw [normalize_of_pos hpos]
    exact hround _ (by omega) (by omega)

theorem exists_normalize_eq {n : Nat} (hn : n ≠ 0) {e : Int} (h : -1021 ≤ totalExponent n e) (s : Sign) :
    ∃ m' e' h', UnpackedFloat.normalize .binary64 n e s = .finite .positive m' e' h' ∧ m'.log2 = 52 ∧
      totalExponent n e ≤ totalExponent m' e' := by
  rw [normalize_of_pos (by omega), Int.toNat_natCast]
  have htotal := totalExponent_shiftLeft hn e (e - Format.binary64.targetExponent (totalExponent n e)).toNat
  have hdigits : 52 ≤ (n <<< (e - Format.binary64.targetExponent (totalExponent n e)).toNat).log2 := by
    rw [log2_shiftLeft hn, targetExponent_eq]
    unfold totalExponent at *
    omega
  have hround := exists_roundWithAccuracy_eq .exact .positive hdigits (htotal ▸ h)
  rw [htotal] at hround
  exact hround

theorem unpack_pack_normal (s : Sign) {m : Nat} {e : Int} (h : 0 < m) (hm : m.log2 = 52) (hlow : -1074 ≤ e)
    (hhigh : e ≤ 971) : UnpackedFloat.unpack .binary64 (UnpackedFloat.pack .binary64 (.finite s m e h)) =
      .finite s m e h := by
  obtain ⟨hge, hlt⟩ := (Nat.log2_eq_iff h.ne').1 hm
  have hfraction : (BitVec.ofNat 52 (m - 2 ^ 52)).toNat = m - 2 ^ 52 := by
    rw [BitVec.toNat_ofNat]
    omega
  have hfield : (BitVec.ofNat 11 (e + 1075).toNat).toNat = (e + 1075).toNat := by
    rw [BitVec.toNat_ofNat]
    omega
  have hone : BitVec.ofNat 11 (e + 1075).toNat ≠ -1#11 := by
    intro hone
    rw [hone] at hfield
    change 2047 = _ at hfield
    omega
  have hzero : BitVec.ofNat 11 (e + 1075).toNat ≠ 0#11 := by
    intro hzero
    rw [hzero] at hfield
    change 0 = _ at hfield
    omega
  have hpack := pack_normal s (BitVec.ofNat 52 (m - 2 ^ 52)) hone
  have hdigits : 2 ^ 52 + (m - 2 ^ 52) = m := by omega
  have hexponent : ((e + 1075).toNat : Int) - 1075 = e := by omega
  simp only [hfraction, hfield, hdigits, hexponent] at hpack
  rw [hpack, unpack_word, if_neg hone, if_neg hzero]
  simp only [hfraction, hfield, hdigits, hexponent]

theorem Below.unpack_pack {u : UnpackedFloat} {b : Int} (h : Below b u) (hlow : -1022 ≤ b) (hhigh : b ≤ 972) :
    Below b (UnpackedFloat.unpack .binary64 (UnpackedFloat.pack .binary64 u)) := by
  have hsmall (s : Sign) (f : BitVec 52) : Below b (UnpackedFloat.unpack .binary64 (word s 0#11 f)) := by
    rw [unpack_word, if_neg (by decide), if_pos rfl]
    split
    · exact .zero s
    · have hlog := log2_le_of_lt (k := 51) f.isLt
      refine .finite ?_
      unfold totalExponent
      omega
  cases h with
  | zero s => exact hsmall s 0
  | @finite s m e hm hle =>
    have hwidth : Format.binary64.mantissaBits = 53 := rfl
    have hbias : e + Format.binary64.exponentBias + Format.binary64.mantissaBitsWithoutImplicit = e + 1075 := by
      have : (Format.binary64.exponentBias : Int) = 1023 := rfl
      have : (Format.binary64.mantissaBitsWithoutImplicit : Int) = 52 := rfl
      omega
    have htotal : (m.log2 : Int) + 1 + e ≤ b := hle
    by_cases hdigits : m.log2 = 52 ∧ -1074 ≤ e
    · rw [unpack_pack_normal s hm hdigits.1 hdigits.2 (by omega)]
      exact .finite hle
    · simp only [UnpackedFloat.pack, hbias]
      rw [if_neg (by omega)]
      split
      · have hfield : (e + 1075).toNat = 0 := by omega
        rw [hfield]
        exact hsmall s _
      · exact hsmall s _

section Operations

variable {u v : UnpackedFloat} {a b : Int}

theorem below_mul (hu : Below a u) (hv : Below b v) (h : -1074 ≤ a + b) :
    Below (a + b + 1) (UnpackedFloat.mul .binary64 u v) := by
  cases hu with
  | zero s => cases hv <;> exact .zero _
  | @finite s m e hm hle =>
    cases hv with
    | zero t => exact .zero _
    | @finite t n k hn hle' =>
      refine below_roundWithAccuracy ?_ h _ .exact
      have hlog := log2_mul_le m n
      unfold totalExponent at *
      omega

theorem shiftLeft_lt {m : Nat} {e k : Int} (h : totalExponent m e ≤ b) (hk : k ≤ e) :
    m <<< (e - k).toNat < 2 ^ (b - k).toNat := by
  rw [Nat.shiftLeft_eq]
  calc m * 2 ^ (e - k).toNat < 2 ^ (m.log2 + 1) * 2 ^ (e - k).toNat :=
        Nat.mul_lt_mul_of_pos_right Nat.lt_log2_self (Nat.two_pow_pos _)
    _ = 2 ^ (m.log2 + 1 + (e - k).toNat) := (Nat.pow_add ..).symm
    _ ≤ 2 ^ (b - k).toNat := Nat.pow_le_pow_right (by decide) (by unfold totalExponent at h; omega)

theorem natAbs_apply (s : Sign) (n : Nat) : (s.apply n).natAbs = n := by
  cases s with
  | negative => exact Int.natAbs_neg n
  | positive => rfl

theorem below_add (hu : Below b u) (hv : Below b v) (h : -1075 ≤ b) :
    Below (b + 2) (UnpackedFloat.add .binary64 u v) := by
  cases hu with
  | zero s =>
    rcases zero_add_agrees_unpacked s v with hsum | ⟨⟨t, ht⟩, -⟩
    · rw [hsum]
      exact hv.mono (by omega)
    · rw [ht]
      exact .zero t
  | @finite s m e hm hle =>
    cases hv with
    | zero t => exact .finite (hle.trans (by omega))
    | @finite t n k hn hle' =>
      have hleft := shiftLeft_lt hle (Int.min_le_left e k)
      have hright := shiftLeft_lt hle' (Int.min_le_right e k)
      have htotal : (m.log2 : Int) + 1 + e ≤ b := hle
      have hsum : (s.apply (m <<< (e - min e k).toNat : Nat) + t.apply (n <<< (k - min e k).toNat : Nat)).natAbs
          < 2 ^ ((b - min e k).toNat + 1) := by
        refine Nat.lt_of_le_of_lt (Int.natAbs_add_le _ _) ?_
        rw [natAbs_apply, natAbs_apply, Nat.pow_succ]
        omega
      have hbound := below_normalize hsum (b := b + 1) (e := min e k) (by omega) (by omega) .positive
      rw [Int.add_assoc] at hbound
      exact hbound

inductive OneLe : UnpackedFloat → Prop
  | finite {s : Sign} {m : Nat} {e : Int} {h : 0 < m} (hle : 1 ≤ totalExponent m e) : OneLe (.finite s m e h)

theorem below_div (hu : Below b u) (hv : OneLe v) (h : -1073 ≤ b) :
    Below (b + 1) (UnpackedFloat.div .binary64 u v) := by
  cases hv with
  | @finite t n k hn hone =>
    cases hu with
    | zero s => exact .zero _
    | @finite s m e hm hle =>
      refine below_roundWithAccuracy ?_ (by omega) _ _
      simp only [targetExponent_eq]
      generalize hd : (e - k - min (e - k) (max (totalExponent m e - totalExponent n k - 53) (-1074))).toNat = d
      have hlog := log2_div_le (m <<< d) hn.ne'
      rw [log2_shiftLeft hm.ne'] at hlog
      unfold totalExponent at *
      omega

end Operations

/-- A number of a magnitude below two to the power `b`. -/
def Within (b : Nat) (x : Float) : Prop := Below b x.toModel.unpack

namespace Within

variable {x y : Float} {a b : Nat}

theorem isFinite (h : Within b x) : x.isFinite = true := Below.isFinite h

theorem mono (h : Within a x) (hab : a ≤ b) : Within b x := Below.mono h (by omega)

theorem neg (h : Within b x) : Within b (-x) := by
  change Below b (-x.toModel).unpack
  rw [unpack_neg]
  exact Below.neg h

theorem mul (hx : Within a x) (hy : Within b y) (h : a + b + 1 ≤ 972) : Within (a + b + 1) (x * y) :=
  (below_mul hx hy (by omega)).unpack_pack (by omega) (by omega)

theorem add (hx : Within a x) (hy : Within b y) (h : max a b + 2 ≤ 972) : Within (max a b + 2) (x + y) :=
  (below_add (hx.mono (le_max_left a b)) (hy.mono (le_max_right a b)) (by omega)).unpack_pack
    (by omega) (by omega)

theorem sub (hx : Within a x) (hy : Within b y) (h : max a b + 2 ≤ 972) : Within (max a b + 2) (x - y) := by
  rw [LawfulSigns.sub_eq_add_neg]
  exact hx.add hy.neg h

theorem div (hx : Within b x) (hy : OneLe y.toModel.unpack) (h : b + 1 ≤ 972) : Within (b + 1) (x / y) :=
  (below_div hx hy (by omega)).unpack_pack (by omega) (by omega)

end Within

end MatrixCalculator.Binary64
