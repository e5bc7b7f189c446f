import Mathlib
import MatrixCalculator.Proofs.Binary64.Logarithm
import MatrixCalculator.Proofs.Binary64.Sides
set_option autoImplicit false

/-!
Numbers out of range. What is infinite or not a number never becomes finite again: not in a sum or a
product, not in a quotient by a finite number and not under a root.
-/

namespace MatrixCalculator.Binary64

open Float.Model Float.Model.UnpackedFloat

variable {x y : Float}

section Fields

theorem exponentBits_eq {s : Sign} {e : BitVec 11} {f : BitVec 52} (h : x.toBits.toBitVec = word s e f) :
    exponentBits x = e.toNat := by
  have hnat := toNat_word s e f
  have he := e.isLt
  have hf := f.isLt
  rw [← h] at hnat
  change x.toBits.toNat = _ at hnat
  rw [exponentBits, UInt64.toNat_shiftRight, Nat.shiftRight_eq_div_pow]
  change x.toBits.toNat / 2 ^ 52 % 0x800 = e.toNat
  omega

theorem isFinite_iff_exponentBits (x : Float) : x.isFinite = true ↔ exponentBits x ≠ 0x7ff := by
  obtain ⟨s, e, f, hword⟩ := exists_eq_word x.toBits.toBitVec
  have hunpack : x.isFinite = (UnpackedFloat.unpack .binary64 (word s e f)).isFinite := hword ▸ rfl
  have hone : e = -1#11 ↔ e.toNat = 0x7ff := BitVec.toNat_inj.symm
  rw [hunpack, exponentBits_eq hword, ne_eq, ← hone, unpack_word]
  by_cases he : e = -1#11
  · rw [if_pos he]
    split <;> exact iff_of_false Bool.false_ne_true (not_not.2 he)
  · rw [if_neg he]
    split
    · split <;> exact iff_of_true rfl he
    · exact iff_of_true rfl he

end Fields

section Arithmetic

theorem isFinite_unpack_pack {u : UnpackedFloat} (h : u.isFinite = false) :
    (UnpackedFloat.unpack .binary64 (UnpackedFloat.pack .binary64 u)).isFinite = false := by
  cases u with
  | notANumber => rfl
  | infinity s => cases s <;> rfl
  | zero s => cases h
  | finite s m e hm => cases h

variable {u : UnpackedFloat}

theorem isFinite_add_unpacked (h : u.isFinite = false) (v : UnpackedFloat) :
    (UnpackedFloat.add .binary64 u v).isFinite = false := by
  cases u <;> cases v <;> grind [UnpackedFloat.add, UnpackedFloat.isFinite]

theorem isFinite_mul_unpacked (h : u.isFinite = false) (v : UnpackedFloat) :
    (UnpackedFloat.mul .binary64 u v).isFinite = false := by
  cases u <;> cases v <;> grind [UnpackedFloat.mul, UnpackedFloat.isFinite]

theorem isFinite_div_unpacked (h : u.isFinite = false) {v : UnpackedFloat} (hv : v.isFinite = true) :
    (UnpackedFloat.div .binary64 u v).isFinite = false := by
  cases u <;> cases v <;> grind [UnpackedFloat.div, UnpackedFloat.isFinite]

theorem isFinite_sqrt_unpacked (h : u.isFinite = false) : (UnpackedFloat.sqrt .binary64 u).isFinite = false := by
  cases u with
  | notANumber => rfl
  | infinity s => cases s <;> rfl
  | zero s => cases h
  | finite s m e hm => cases h

theorem isFinite_add_left (h : x.isFinite = false) (y : Float) : (x + y).isFinite = false :=
  isFinite_unpack_pack (isFinite_add_unpacked h y.toModel.unpack)

theorem isFinite_add_right (x : Float) (h : y.isFinite = false) : (x + y).isFinite = false := by
  rw [LawfulSigns.add_comm]
  exact isFinite_add_left h x

theorem isFinite_sub_left (h : x.isFinite = false) (y : Float) : (x - y).isFinite = false := by
  rw [LawfulSigns.sub_eq_add_neg]
  exact isFinite_add_left h (-y)

theorem isFinite_sub_right (x : Float) (h : y.isFinite = false) : (x - y).isFinite = false := by
  rw [LawfulSigns.sub_eq_add_neg]
  exact isFinite_add_right x ((isFinite_neg y).trans h)

theorem isFinite_mul_left (h : x.isFinite = false) (y : Float) : (x * y).isFinite = false :=
  isFinite_unpack_pack (isFinite_mul_unpacked h y.toModel.unpack)

theorem isFinite_div_left (h : x.isFinite = false) (hy : y.isFinite = true) : (x / y).isFinite = false :=
  isFinite_unpack_pack (isFinite_div_unpacked h hy)

theorem isFinite_sqrt (h : x.isFinite = false) : x.sqrt.isFinite = false :=
  isFinite_unpack_pack (isFinite_sqrt_unpacked h)

theorem isFinite_of_isZero (h : Component.isZero x = true) : x.isFinite = true := by
  obtain ⟨s, hx⟩ := (isZero_iff_unpack x).1 h
  change x.toModel.unpack.isFinite = true
  rw [hx]
  rfl

theorem isFinite_eq_of_agrees (h : Component.Agrees x y) : x.isFinite = y.isFinite := by
  rcases h with rfl | ⟨hx, hy⟩
  · rfl
  · rw [isFinite_of_isZero hx, isFinite_of_isZero hy]

theorem unpack_pack_zero (s : Sign) :
    UnpackedFloat.unpack .binary64 (UnpackedFloat.pack .binary64 (.zero s)) = .zero s := by
  cases s <;> rfl

/-- Zero times a finite number is zero, and times any other it is no number. -/
theorem isZero_mul_iff_isFinite (h : Component.isZero x = true) (y : Float) :
    Component.isZero (x * y) = true ↔ y.isFinite = true := by
  constructor
  · intro hzero
    by_contra hy
    have hproduct := isFinite_mul_left (Bool.not_eq_true _ ▸ hy) x
    rw [LawfulSigns.mul_comm, isFinite_of_isZero hzero] at hproduct
    cases hproduct
  · intro hy
    change y.toModel.unpack.isFinite = true at hy
    obtain ⟨s, hx⟩ := (isZero_iff_unpack x).1 h
    rw [isZero_iff_unpack]
    change ∃ t, UnpackedFloat.unpack .binary64 (UnpackedFloat.pack .binary64
      (UnpackedFloat.mul .binary64 x.toModel.unpack y.toModel.unpack)) = .zero t
    rw [hx]
    cases hu : y.toModel.unpack with
    | notANumber => rw [hu] at hy; cases hy
    | infinity t => rw [hu] at hy; cases hy
    | zero t => exact ⟨s * t, unpack_pack_zero (s * t)⟩
    | finite t n k hn => exact ⟨s * t, unpack_pack_zero (s * t)⟩

theorem isZero_zero_div (hzero : Component.isZero y = false) (hnan : y.isNaN = false) :
    Component.isZero (0 / y) = true := by
  change y.toModel.unpack.isNaN = false at hnan
  rw [isZero_iff_unpack]
  change ∃ s, UnpackedFloat.unpack .binary64 (UnpackedFloat.pack .binary64
    (UnpackedFloat.div .binary64 (0 : Float).toModel.unpack y.toModel.unpack)) = .zero s
  rw [unpack_zero]
  cases hu : y.toModel.unpack with
  | notANumber => rw [hu] at hnan; cases hnan
  | infinity t => exact ⟨_, unpack_pack_zero (Sign.positive / t)⟩
  | zero t =>
    rw [(isZero_iff_unpack y).2 ⟨t, hu⟩] at hzero
    cases hzero
  | finite t n k hn => exact ⟨_, unpack_pack_zero (Sign.positive / t)⟩

theorem isNaN_of_le {c : Float} (h : c ≤ x) : x.isNaN = false := by
  have hcompare (u : UnpackedFloat) : u.le .notANumber = false := by cases u <;> rfl
  rw [le_iff] at h
  change x.toModel.unpack.isNaN = false
  cases hu : x.toModel.unpack with
  | notANumber =>
    rw [hu, hcompare] at h
    cases h
  | _ => rfl

theorem isNaN_divisor (h : (x / y).isNaN = false) : y.isNaN = false := by
  change (UnpackedFloat.unpack .binary64 (UnpackedFloat.pack .binary64
    (UnpackedFloat.div .binary64 x.toModel.unpack y.toModel.unpack))).isNaN = false at h
  change y.toModel.unpack.isNaN = false
  cases hu : y.toModel.unpack with
  | notANumber =>
    have hquotient (u : UnpackedFloat) : UnpackedFloat.div .binary64 u .notANumber = .notANumber := by
      cases u <;> rfl
    rw [hu, hquotient] at h
    cases h
  | _ => rfl

theorem neg_add_self_unpacked (h : u.isFinite = true) : UnpackedFloat.add .binary64 u.neg u = .zero .positive := by
  cases u with
  | notANumber => cases h
  | infinity s => cases h
  | zero s => cases s <;> rfl
  | finite s m e hm =>
    have hsum : (-s).apply (m <<< (e - min e e).toNat : Nat) + s.apply (m <<< (e - min e e).toNat : Nat) = 0 := by
      rw [apply_neg, Int.add_left_neg]
    change UnpackedFloat.normalize .binary64 _ _ .positive = _
    rw [hsum]
    rfl

theorem isZero_neg_add_self (h : x.isFinite = true) : Component.isZero (-x + x) = true := by
  have hsum : -x + x = 0 := by
    change Float.ofModel (Float.Model.pack (UnpackedFloat.add .binary64 (-x.toModel).unpack x.toModel.unpack)) = 0
    rw [unpack_neg, neg_add_self_unpacked h]
    rfl
  rw [hsum]
  rfl

end Arithmetic

end MatrixCalculator.Binary64
