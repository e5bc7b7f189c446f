import Mathlib
import MatrixCalculator.Proofs.Binary64.Magnitude
set_option autoImplicit false

/-!
The logarithm of 64-bit floating numbers never runs into what is not a number. Whatever word the
reduction starts from, the reduced argument lies between √½ and √2: its difference from one is below
one, so that the divisor of the series is not below one and no step can leave the range.
-/

namespace MatrixCalculator.Binary64

open Float.Model Float.Model.UnpackedFloat

theorem unpack_ofBits (b : UInt64) :
    (Float.ofBits b).toModel.unpack = UnpackedFloat.unpack .binary64 b.toBitVec := by
  obtain ⟨s, e, f, hb⟩ := exists_eq_word b.toBitVec
  change UnpackedFloat.unpack .binary64 (UnpackedFloat.pack .binary64
    (UnpackedFloat.unpack .binary64 b.toBitVec)) = _
  rw [hb]
  by_cases h : e = -1#11 → f = 0#52
  · rw [pack_unpack_word s h]
  · rw [unpack_word_of_nan s h]
    rfl

theorem toNat_word (s : Sign) (e : BitVec 11) (f : BitVec 52) :
    (word s e f).toNat = (s.toBitVec.toNat * 2 ^ 11 + e.toNat) * 2 ^ 52 + f.toNat := by
  have hf : f.toNat < 2 ^ 52 := f.isLt
  have he : e.toNat < 2 ^ 11 := e.isLt
  change ((s.toBitVec ++ e : BitVec (1 + 11)) ++ f).toNat = _
  rw [BitVec.toNat_append, ← Nat.shiftLeft_add_eq_or_of_lt hf, BitVec.toNat_append,
    ← Nat.shiftLeft_add_eq_or_of_lt he, Nat.shiftLeft_eq, Nat.shiftLeft_eq]

theorem unpack_ofBits_of_toNat {b : UInt64} {e f : Nat} (hb : b.toNat = e * 2 ^ 52 + f) (hf : f < 2 ^ 52)
    (hpos : 0 < e) (he : e < 2047) :
    (Float.ofBits b).toModel.unpack = .finite .positive (2 ^ 52 + f) (e - 1075) (by omega) := by
  obtain ⟨s, e', f', hword⟩ := exists_eq_word b.toBitVec
  have hnat := congrArg BitVec.toNat hword
  rw [toNat_word] at hnat
  change b.toNat = _ at hnat
  have hf' : f'.toNat < 2 ^ 52 := f'.isLt
  have he' : e'.toNat < 2 ^ 11 := e'.isLt
  have hs : s = .positive := by
    cases s with
    | positive => rfl
    | negative =>
      change b.toNat = (1 * 2 ^ 11 + e'.toNat) * 2 ^ 52 + f'.toNat at hnat
      omega
  subst hs
  change b.toNat = (0 * 2 ^ 11 + e'.toNat) * 2 ^ 52 + f'.toNat at hnat
  have hexponent : e'.toNat = e := by omega
  have hfraction : f'.toNat = f := by omega
  have hone : e' ≠ -1#11 := by
    rintro rfl
    change 2047 = e at hexponent
    omega
  have hzero : e' ≠ 0#11 := by
    rintro rfl
    change 0 = e at hexponent
    omega
  rw [unpack_ofBits, hword, unpack_word, if_neg hone, if_neg hzero]
  simp only [hexponent, hfraction]

theorem within_sub_one {n : Nat} (hlow : 0x3fe6a09e00000000 ≤ n) (hhigh : n < 0x3ff6a09e00000000) :
    Within 0 (Float.ofBits n.toUInt64 - 1) := by
  have hn : n.toUInt64.toNat = n := UInt64.toNat_ofNat_of_lt (Nat.lt_trans hhigh (by decide))
  have hone : (1 : Float).toModel.unpack = .finite .positive (2 ^ 52) (-52) (by decide) := by rfl
  change Below 0 (UnpackedFloat.unpack .binary64 (UnpackedFloat.pack .binary64 (UnpackedFloat.sub .binary64
    (Float.ofBits n.toUInt64).toModel.unpack (1 : Float).toModel.unpack)))
  refine Below.unpack_pack ?_ (by decide) (by decide)
  by_cases hbelow : n < 0x3ff0000000000000
  · obtain ⟨f, rfl⟩ : ∃ f, n = 0x3fe * 2 ^ 52 + f := ⟨n - 0x3fe * 2 ^ 52, by omega⟩
    rw [hone, unpack_ofBits_of_toNat hn (by omega) (by decide) (by decide)]
    have hdigits : ((2 ^ 52 + f : Nat) - (2 ^ 53 : Nat) : Int).natAbs < 2 ^ (51 + 1) := by omega
    exact below_normalize hdigits (e := -53) (b := -1) (by decide) (by decide) .positive
  · obtain ⟨f, rfl⟩ : ∃ f, n = 0x3ff * 2 ^ 52 + f := ⟨n - 0x3ff * 2 ^ 52, by omega⟩
    rw [hone, unpack_ofBits_of_toNat hn (by omega) (by decide) (by decide)]
    have hdigits : ((2 ^ 52 + f : Nat) - (2 ^ 52 : Nat) : Int).natAbs < 2 ^ (50 + 1) := by omega
    exact below_normalize hdigits (e := -52) (b := -1) (by decide) (by decide) .positive

theorem add_two_unpacked {u : UnpackedFloat} (hu : Below 0 u) : ∃ m e h,
    UnpackedFloat.add .binary64 (.finite .positive (2 ^ 52) (-51) (by decide)) u = .finite .positive m e h ∧
      m.log2 = 52 ∧ 1 ≤ totalExponent m e := by
  cases hu with
  | zero s => exact ⟨_, _, _, rfl, Nat.log2_two_pow, by decide⟩
  | @finite s m e hm hle =>
    have hleft : (2 ^ 52) <<< (-51 - min (-51) e).toNat = 2 * 2 ^ (0 - min (-51) e).toNat := by
      rw [Nat.shiftLeft_eq, ← Nat.pow_add, ← Nat.pow_succ']
      congr 1
      omega
    have hright := shiftLeft_lt hle (Int.min_le_right (-51) e)
    have habs := natAbs_apply s (m <<< (e - min (-51) e).toNat)
    obtain ⟨n, hn⟩ : ∃ n : Nat, ((2 * 2 ^ (0 - min (-51) e).toNat : Nat) : Int) +
        s.apply (m <<< (e - min (-51) e).toNat : Nat) = n := Int.eq_ofNat_of_zero_le (by omega)
    have hge : 2 ^ (0 - min (-51) e).toNat ≤ n := by omega
    have hne : n ≠ 0 := (Nat.lt_of_lt_of_le (Nat.two_pow_pos _) hge).ne'
    have hlog := (Nat.le_log2 hne).2 hge
    have hone : 1 ≤ totalExponent n (min (-51) e) := by
      unfold totalExponent
      omega
    obtain ⟨m', e', h', hround, hdigits, htotal⟩ :=
      exists_normalize_eq hne (e := min (-51) e) (by omega) .positive
    refine ⟨m', e', h', ?_, hdigits, hone.trans htotal⟩
    rw [← hround, ← hn, ← hleft]
    rfl

theorem oneLe_two_add {f : Float} (h : Within 0 f) : OneLe (2 + f).toModel.unpack := by
  have htwo : (2 : Float).toModel.unpack = .finite .positive (2 ^ 52) (-51) (by decide) := by rfl
  change OneLe (UnpackedFloat.unpack .binary64 (UnpackedFloat.pack .binary64 (UnpackedFloat.add .binary64
    (2 : Float).toModel.unpack f.toModel.unpack)))
  have hupper : Below 4 (UnpackedFloat.add .binary64 (2 : Float).toModel.unpack f.toModel.unpack) := by
    rw [htwo]
    exact below_add (b := 2) (.finite (by decide)) (h.mono (b := 2) (by decide)) (by decide)
  rw [htwo] at *
  obtain ⟨m, e, hm, hsum, hdigits, hone⟩ := add_two_unpacked h
  rw [hsum] at hupper ⊢
  cases hupper with
  | finite hle =>
    have hexponent : -1074 ≤ e ∧ e ≤ 971 := by
      unfold totalExponent at *
      omega
    rw [unpack_pack_normal _ hm hdigits hexponent.1 hexponent.2]
    exact .finite hone

theorem within_ofInt {n : Int} {k : Nat} (hn : n.natAbs < 2 ^ (k + 1)) (hk : k < 52) :
    Within (k + 4) (Float.ofInt n) := by
  have hnat {m : Nat} (hm : m < 2 ^ (k + 1)) : Within (k + 4) (Float.ofNat m) := by
    have hsmall : m < 2 ^ 53 := Nat.lt_of_lt_of_le hm (Nat.pow_le_pow_right (by decide) (by omega))
    have hword : m.toUInt64.toNat = m := UInt64.toNat_ofNat_of_lt (Nat.lt_trans hsmall (by decide))
    have hfloat : Within (k + 2) m.toUInt64.toFloat := by
      refine Below.unpack_pack ?_ (by omega) (by omega)
      exact below_normalize (m := m.toUInt64.toNat) (k := k) (e := 0) (b := k + 1) (by omega) (by omega)
        (by omega) .positive
    have hone : Within 1 (Float.ofBits 0x3FF0000000000000) := .finite (by decide)
    change Within (k + 4) (Float.ofScientific m false 0)
    rw [Float.ofScientific, dif_pos ⟨hsmall, by decide⟩]
    exact hfloat.mul hone (by omega)
  cases n with
  | ofNat m => exact hnat hn
  | negSucc m => exact (hnat hn).neg

theorem within_seriesAt {z : Float} (h : Within 3 z) : Within 36 (seriesAt z) := by
  have hw : Within 7 (z * z) := h.mul h (by decide)
  have hstep {b : Nat} {c p : Float} (hc : Within 0 c) (hp : Within b p) (hb : b + 10 ≤ 972) :
      Within (b + 10) (c + z * z * p) :=
    (hc.add (hw.mul hp (by omega)) (by omega)).mono (by omega)
  unfold seriesAt
  refine Within.add (a := 34) (b := 28) (h.mul (b := 30) ?odd (by decide)) (hw.mul (b := 20) ?even (by decide))
    (by decide)
  case odd =>
    refine hstep ?_ (hstep ?_ (hstep ?_ (b := 0) ?_ (by decide)) (by decide)) (by decide)
    all_goals exact .finite (by decide)
  case even =>
    refine hstep ?_ (hstep ?_ (b := 0) ?_ (by decide)) (by decide)
    all_goals exact .finite (by decide)

/-- Reduction and series stay inside the range, whatever the word is. -/
theorem within_lnNormal (x : Float) {k : Int} (hk : k.natAbs < 2 ^ 12) : Within 60 (lnNormal x k) := by
  unfold lnNormal
  generalize hupper : (x.toBits >>> 32).toNat + (0x3ff00000 - 0x3fe6a09e) = upper
  have hword : upper < 2 ^ 33 := by
    have hshift : (x.toBits >>> 32).toNat = x.toBits.toNat / 2 ^ 32 := by
      rw [UInt64.toNat_shiftRight, Nat.shiftRight_eq_div_pow]
      rfl
    have hbits : x.toBits.toNat < 2 ^ 64 := x.toBits.toNat_lt
    omega
  have hturns : Within 17 (Float.ofInt (k + (upper / 0x100000 : Nat) - 0x3ff)) :=
    within_ofInt (k := 13) (by omega) (by decide)
  have hf := within_sub_one (n := (upper % 0x100000 + 0x3fe6a09e) * 0x100000000 + x.toBits.toNat % 0x100000000)
    (by omega) (by omega)
  dsimp only
  generalize Float.ofInt (k + (upper / 0x100000 : Nat) - 0x3ff) = turns at *
  generalize Float.ofBits ((upper % 0x100000 + 0x3fe6a09e) * 0x100000000 +
    x.toBits.toNat % 0x100000000).toUInt64 - 1 = f at *
  have hs : Within 1 (f / (2 + f)) := hf.div (oneLe_two_add hf) (by decide)
  have hhalf : Within 2 (0.5 * f * f) := by
    have hconst : Within 0 (0.5 : Float) := .finite (by decide)
    exact (hconst.mul hf (by decide)).mul hf (by decide)
  have htail : Within 36 (seriesAt (f / (2 + f) * (f / (2 + f)))) := within_seriesAt (hs.mul hs (by decide))
  have hlow : Within 0 ln2Low := .finite (by decide)
  have hhigh : Within 0 ln2High := .finite (by decide)
  have hsum := ((((hs.mul (hhalf.add htail (by decide)) (by decide)).add (hturns.mul hlow (by decide))
    (by decide)).sub hhalf (by decide)).add hf (by decide)).add (hturns.mul hhigh (by decide)) (by decide)
  exact hsum.mono (by decide)

theorem isNaN_of_isFinite {x : Float} (h : x.isFinite = true) : x.isNaN = false := by
  rw [Float.isNaN_eq_decide_eq_nan, decide_eq_false_iff_not]
  rintro rfl
  cases h

/-- The logarithm of a number that is not below zero is a number, or infinite at zero and infinity. -/
theorem isNaN_ln {x : Float} (hnan : x.isNaN = false) (hx : ¬ x < 0) : (ln x).isNaN = false := by
  unfold ln
  rw [if_neg (Bool.eq_false_iff.1 hnan)]
  by_cases hzero : (x == 0) = true
  · rw [if_pos hzero]
    rfl
  · rw [if_neg hzero, if_neg hx]
    split
    · exact hnan
    · split
      · rfl
      · split <;> exact isNaN_of_isFinite (within_lnNormal _ (by decide)).isFinite

end MatrixCalculator.Binary64
