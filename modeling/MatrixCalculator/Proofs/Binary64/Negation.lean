import Mathlib
import MatrixCalculator.Binary64
import MatrixCalculator.Proofs.Scalar.Conjugation
set_option autoImplicit false

/-!
Negation of 64-bit floating numbers. A word is a sign, an exponent and a fraction; a number read off
a word and written down again gives the same word, so that negation turns the sign and nothing else.
-/

namespace MatrixCalculator.Binary64

open Float.Model Float.Model.UnpackedFloat

def word (s : Sign) (e : BitVec 11) (f : BitVec 52) : BitVec 64 := packComponents .binary64 s e f

theorem exists_eq_word (b : BitVec 64) : ∃ s e f, b = word s e f := by
  refine ⟨.ofBitVec (@unpackSign .binary64 b), @unpackExponent .binary64 b, @unpackMantissa .binary64 b, ?_⟩
  have hsign (c : BitVec 1) : (Sign.ofBitVec c).toBitVec = c := by
    rcases BitVec.eq_zero_or_eq_one c with rfl | rfl <;> rfl
  simp only [word, packComponents, hsign]
  ext i hi
  simp [unpackSign, unpackExponent, unpackMantissa]
  grind

theorem toNat_one_append (f : BitVec 52) : (1#1 ++ f).toNat = 2 ^ 52 + f.toNat := by
  have hf : f.toNat < 2 ^ 52 := f.isLt
  rw [BitVec.toNat_append, Nat.shiftLeft_eq, Nat.mul_comm, ← Nat.two_pow_add_eq_or_of_lt hf]
  simp

theorem unpack_word (s : Sign) (e : BitVec 11) (f : BitVec 52) :
    UnpackedFloat.unpack .binary64 (word s e f) =
      if e = -1#11 then (if f = 0#52 then .infinity s else .notANumber)
      else if e = 0#11 then
        if h : f = 0#52 then .zero s
        else .finite s f.toNat (-1074) (by simpa [BitVec.toNat_pos, BitVec.pos_iff_ne_zero])
      else .finite s (2 ^ 52 + f.toNat) (e.toNat - 1075) (by omega) := by
  have hsign : Sign.ofBitVec (@unpackSign .binary64 (word s e f)) = s := by
    have : @unpackSign .binary64 (word s e f) = s.toBitVec := by
      ext i hi
      simp [unpackSign, word, packComponents]
      grind
    rw [this]
    cases s <;> rfl
  have hexp : @unpackExponent .binary64 (word s e f) = e := unpackExponent_packComponents
  have hman : @unpackMantissa .binary64 (word s e f) = f := unpackMantissa_packComponents
  have hbias : (Format.binary64.exponentBias : Int) + Format.binary64.mantissaBitsWithoutImplicit = 1075 := rfl
  simp only [UnpackedFloat.unpack, hsign, hexp, hman, hbias, toNat_one_append]
  split
  · rfl
  · split
    · next h => subst h; rfl
    · rfl

theorem pack_subnormal (s : Sign) (f : BitVec 52) (hf : 0 < f.toNat) :
    UnpackedFloat.pack .binary64 (.finite s f.toNat (-1074) hf) = word s 0#11 f := by
  have hlog : f.toNat.log2 < 52 := (Nat.log2_lt (by omega)).2 f.isLt
  have hbits : Format.binary64.mantissaBits = 53 := rfl
  rw [UnpackedFloat.pack, if_neg (by decide), if_neg (by omega), BitVec.ofNat_toNat, BitVec.setWidth_eq]
  rfl

theorem pack_normal (s : Sign) {e : BitVec 11} (f : BitVec 52) (hone : e ≠ -1#11) :
    UnpackedFloat.pack .binary64 (.finite s (2 ^ 52 + f.toNat) (e.toNat - 1075) (by omega)) =
      word s e f := by
  have hf : f.toNat < 2 ^ 52 := f.isLt
  have he : e.toNat < 2047 := by
    have hlt : e.toNat < 2048 := e.isLt
    have hne : e.toNat ≠ 2047 := fun h => hone (BitVec.eq_of_toNat_eq h)
    omega
  have hlog : (2 ^ 52 + f.toNat).log2 = 52 :=
    (Nat.log2_eq_iff (by omega)).2 ⟨by omega, by omega⟩
  have hbits : Format.binary64.mantissaBits = 53 := rfl
  have hexp : ((e.toNat : Int) - 1075 + Format.binary64.exponentBias +
      Format.binary64.mantissaBitsWithoutImplicit).toNat = e.toNat := by
    have hbias : (Format.binary64.exponentBias : Int) = 1023 := rfl
    have hwidth : (Format.binary64.mantissaBitsWithoutImplicit : Int) = 52 := rfl
    omega
  simp only [UnpackedFloat.pack, hexp]
  rw [if_neg (by omega), if_pos (by omega), BitVec.ofNat_toNat, BitVec.setWidth_eq]
  have hfraction : BitVec.ofNat 52 (2 ^ 52 + f.toNat) = f := by
    apply BitVec.eq_of_toNat_eq
    rw [BitVec.toNat_ofNat]
    omega
  rw [hfraction]
  rfl

/-- A number read off a word is written down as that word, unless it is not a number. -/
theorem pack_unpack_word (s : Sign) {e : BitVec 11} {f : BitVec 52} (h : e = -1#11 → f = 0#52) :
    UnpackedFloat.pack .binary64 (UnpackedFloat.unpack .binary64 (word s e f)) = word s e f := by
  rw [unpack_word]
  split
  · next he =>
    rw [if_pos (h he), he, h he]
    rfl
  · next hone =>
    split
    · next hzero =>
      subst hzero
      split
      · next hf =>
        rw [hf]
        rfl
      · exact pack_subnormal s f _
    · exact pack_normal s f hone

theorem unpack_word_of_nan (s : Sign) {e : BitVec 11} {f : BitVec 52} (h : ¬(e = -1#11 → f = 0#52)) :
    UnpackedFloat.unpack .binary64 (word s e f) = .notANumber := by
  obtain ⟨he, hf⟩ := Classical.not_imp.1 h
  rw [unpack_word, if_pos he, if_neg hf]

def mapSign (φ : Sign → Sign) : UnpackedFloat → UnpackedFloat
  | .notANumber => .notANumber
  | .infinity s => .infinity (φ s)
  | .zero s => .zero (φ s)
  | .finite s m e h => .finite (φ s) m e h

theorem neg_eq_mapSign (u : UnpackedFloat) : u.neg = mapSign (- ·) u := by
  cases u <;> rfl

theorem mapSign_unpack_word (φ : Sign → Sign) (s : Sign) (e : BitVec 11) (f : BitVec 52) :
    mapSign φ (UnpackedFloat.unpack .binary64 (word s e f)) =
      UnpackedFloat.unpack .binary64 (word (φ s) e f) := by
  simp only [unpack_word]
  split
  · split <;> rfl
  · split
    · split <;> rfl
    · rfl

theorem unpack_pack_mapSign (φ : Sign → Sign) (x : Float.Model) :
    (Float.Model.pack (mapSign φ x.unpack)).unpack = mapSign φ x.unpack := by
  obtain ⟨s, e, f, hx⟩ := exists_eq_word x.toBits.toBitVec
  change UnpackedFloat.unpack .binary64 (UnpackedFloat.pack .binary64
    (mapSign φ (UnpackedFloat.unpack .binary64 x.toBits.toBitVec))) =
      mapSign φ (UnpackedFloat.unpack .binary64 x.toBits.toBitVec)
  rw [hx]
  by_cases h : e = -1#11 → f = 0#52
  · rw [mapSign_unpack_word, pack_unpack_word _ h]
  · rw [unpack_word_of_nan s h, mapSign]
    rfl

theorem pack_unpack (x : Float.Model) : Float.Model.pack x.unpack = x := by
  obtain ⟨bits, hvalid⟩ := x
  obtain ⟨s, e, f, hbits⟩ := exists_eq_word bits.toBitVec
  have hpack : UnpackedFloat.pack .binary64 (UnpackedFloat.unpack .binary64 bits.toBitVec) =
      bits.toBitVec := by
    by_cases h : e = -1#11 → f = 0#52
    · rw [hbits, pack_unpack_word s h]
    · obtain ⟨he, hf⟩ := Classical.not_imp.1 h
      have hexp : @unpackExponent .binary64 bits.toBitVec = -1#11 := by
        rw [hbits]
        exact unpackExponent_packComponents.trans he
      have hfraction : @unpackMantissa .binary64 bits.toBitVec ≠ 0#52 := by
        rw [hbits]
        exact fun h0 => hf (unpackMantissa_packComponents.symm.trans h0)
      rw [hvalid.eq_packedNaN hexp hfraction]
      rfl
  simp only [Float.Model.pack, Float.Model.unpack, hpack]

theorem unpack_neg (x : Float.Model) : (-x).unpack = x.unpack.neg := by
  change (Float.Model.pack x.unpack.neg).unpack = x.unpack.neg
  rw [neg_eq_mapSign, unpack_pack_mapSign]

theorem neg_neg_unpacked (u : UnpackedFloat) : u.neg.neg = u := by
  cases u with
  | notANumber => rfl
  | infinity s => cases s <;> rfl
  | zero s => cases s <;> rfl
  | finite s m e h => cases s <;> rfl

theorem neg_neg (x : Float) : - -x = x := by
  change Float.ofModel (Float.Model.pack (-x.toModel).unpack.neg) = x
  rw [unpack_neg, neg_neg_unpacked, pack_unpack]

theorem unpack_zero : (0 : Float).toModel.unpack = .zero .positive := by rfl

theorem neg_beq_zero (x : Float) : (-x == 0) = (x == 0) := by
  change (-x.toModel).unpack.beq (0 : Float).toModel.unpack =
    x.toModel.unpack.beq (0 : Float).toModel.unpack
  rw [unpack_neg, unpack_zero]
  cases x.toModel.unpack with
  | notANumber => rfl
  | infinity s => cases s <;> rfl
  | zero s => rfl
  | finite s m e h => cases s <;> rfl

instance : LawfulNegation Float where
  isZero_zero := rfl
  isZero_neg := neg_beq_zero
  neg_neg := neg_neg

end MatrixCalculator.Binary64
