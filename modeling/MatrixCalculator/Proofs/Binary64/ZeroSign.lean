import Mathlib
import MatrixCalculator.Proofs.Binary64.Negation
import MatrixCalculator.Proofs.Scalar.ZeroSign
set_option autoImplicit false

/-!
Signed zeros of 64-bit floating numbers. Sums and products of numbers taken apart commute and let
negation through; only where a sum cancels is the sign of the zero that comes out another one.
-/

namespace MatrixCalculator.Binary64

open Float.Model Float.Model.UnpackedFloat

theorem apply_neg (s : Sign) (n : Int) : (-s).apply n = -s.apply n := by
  cases s with
  | negative => exact (Int.neg_neg n).symm
  | positive => rfl

theorem sign_mul_comm (s t : Sign) : s * t = t * s := by cases s <;> cases t <;> rfl

theorem neg_sign_mul (s t : Sign) : -(s * t) = -s * t := by cases s <;> cases t <;> rfl

theorem neg_roundWithAccuracy (s : Sign) (m : Nat) (e : Int) :
    (roundWithAccuracy .binary64 s m e .exact).neg = roundWithAccuracy .binary64 (-s) m e .exact := by
  unfold roundWithAccuracy
  dsimp only
  split <;> rfl

theorem add_comm_unpacked (u v : UnpackedFloat) :
    UnpackedFloat.add .binary64 u v = UnpackedFloat.add .binary64 v u := by
  cases u <;> cases v <;> grind [UnpackedFloat.add]

theorem mul_comm_unpacked (u v : UnpackedFloat) :
    UnpackedFloat.mul .binary64 u v = UnpackedFloat.mul .binary64 v u := by
  cases u <;> cases v <;> grind [UnpackedFloat.mul, sign_mul_comm]

theorem sub_eq_add_neg_unpacked (u v : UnpackedFloat) :
    UnpackedFloat.sub .binary64 u v = UnpackedFloat.add .binary64 u v.neg := by
  cases u <;> cases v <;> grind [UnpackedFloat.add, UnpackedFloat.sub, UnpackedFloat.neg, apply_neg]

theorem neg_mul_unpacked (u v : UnpackedFloat) :
    (UnpackedFloat.mul .binary64 u v).neg = UnpackedFloat.mul .binary64 u.neg v := by
  cases u <;> cases v <;> grind [UnpackedFloat.mul, UnpackedFloat.neg, neg_sign_mul, neg_roundWithAccuracy]

def AgreesUnpacked (u v : UnpackedFloat) : Prop := u = v ∨ (∃ s, u = .zero s) ∧ ∃ s, v = .zero s

theorem normalize_of_pos {m : Int} (h : 0 < m) (e : Int) (s : Sign) :
    UnpackedFloat.normalize .binary64 m e s = UnpackedFloat.round .binary64 .positive m.toNat e := by
  have hcompare : compare m 0 = .gt := compare_gt_iff_gt.2 h
  rw [UnpackedFloat.normalize, hcompare]

theorem normalize_of_neg {m : Int} (h : m < 0) (e : Int) (s : Sign) :
    UnpackedFloat.normalize .binary64 m e s = UnpackedFloat.round .binary64 .negative (-m).toNat e := by
  have hcompare : compare m 0 = .lt := compare_lt_iff_lt.2 h
  rw [UnpackedFloat.normalize, hcompare]

/-- Digits that cancel leave a positive zero, whichever way round they are subtracted. -/
theorem neg_normalize_agrees (m e : Int) :
    AgreesUnpacked (UnpackedFloat.normalize .binary64 m e .positive).neg
      (UnpackedFloat.normalize .binary64 (-m) e .positive) := by
  rcases Int.lt_trichotomy m 0 with h | rfl | h
  · rw [normalize_of_neg h, normalize_of_pos (by omega)]
    exact .inl (neg_roundWithAccuracy ..)
  · exact .inr ⟨⟨_, rfl⟩, _, rfl⟩
  · rw [normalize_of_pos h, normalize_of_neg (by omega), Int.neg_neg]
    exact .inl (neg_roundWithAccuracy ..)

theorem neg_add_agrees_unpacked (u v : UnpackedFloat) :
    AgreesUnpacked (UnpackedFloat.add .binary64 u v).neg (UnpackedFloat.add .binary64 u.neg v.neg) := by
  cases u with
  | notANumber => exact .inl rfl
  | infinity s =>
    cases v with
    | infinity t => cases s <;> cases t <;> exact .inl rfl
    | _ => exact .inl rfl
  | zero s =>
    cases v with
    | zero t => cases s <;> cases t <;> exact .inr ⟨⟨_, rfl⟩, _, rfl⟩
    | _ => exact .inl rfl
  | finite s m e hm =>
    cases v with
    | finite t n k hn =>
      have hsum := neg_normalize_agrees (s.apply (m <<< (e - min e k).toNat : Nat) +
        t.apply (n <<< (k - min e k).toNat : Nat)) (min e k)
      rw [Int.neg_add, ← apply_neg, ← apply_neg] at hsum
      exact hsum
    | _ => exact .inl rfl

theorem zero_add_agrees_unpacked (s : Sign) (u : UnpackedFloat) :
    AgreesUnpacked (UnpackedFloat.add .binary64 (.zero s) u) u := by
  cases u with
  | zero t => cases s <;> cases t <;> exact .inr ⟨⟨_, rfl⟩, _, rfl⟩
  | _ => exact .inl rfl

theorem AgreesUnpacked.add {u v : UnpackedFloat} (h : AgreesUnpacked u v) (w : UnpackedFloat) :
    AgreesUnpacked (UnpackedFloat.add .binary64 u w) (UnpackedFloat.add .binary64 v w) := by
  rcases h with rfl | ⟨⟨s, rfl⟩, t, rfl⟩
  · exact .inl rfl
  · cases w with
    | zero r => cases s <;> cases t <;> cases r <;> exact .inr ⟨⟨_, rfl⟩, _, rfl⟩
    | _ => exact .inl rfl

theorem AgreesUnpacked.mul {u v : UnpackedFloat} (h : AgreesUnpacked u v) (w : UnpackedFloat) :
    AgreesUnpacked (UnpackedFloat.mul .binary64 u w) (UnpackedFloat.mul .binary64 v w) := by
  rcases h with rfl | ⟨⟨s, rfl⟩, t, rfl⟩
  · exact .inl rfl
  · cases w with
    | notANumber => exact .inl rfl
    | infinity r => exact .inl rfl
    | zero r => exact .inr ⟨⟨_, rfl⟩, _, rfl⟩
    | finite r m e hm => exact .inr ⟨⟨_, rfl⟩, _, rfl⟩

theorem exists_pack_eq_word {u : UnpackedFloat} (hu : u ≠ .notANumber) :
    ∃ s e f, (e = -1#11 → f = 0#52) ∧ UnpackedFloat.pack .binary64 u = word s e f ∧
      UnpackedFloat.pack .binary64 u.neg = word (-s) e f := by
  cases u with
  | notANumber => exact absurd rfl hu
  | infinity s => exact ⟨s, -1#11, 0#52, fun _ => rfl, rfl, rfl⟩
  | zero s => exact ⟨s, 0#11, 0#52, fun _ => rfl, rfl, rfl⟩
  | finite s m e hm =>
    simp only [UnpackedFloat.neg, UnpackedFloat.pack]
    split
    · exact ⟨s, -1#11, 0#52, fun _ => rfl, rfl, rfl⟩
    · next hsmall =>
      split
      · refine ⟨s, _, _, fun hone => ?_, rfl, rfl⟩
        have hfield := congrArg BitVec.toNat hone
        change (e + Format.binary64.exponentBias + Format.binary64.mantissaBitsWithoutImplicit).toNat % 2048 =
          2047 at hfield
        change ¬ 2048 ≤ (e + Format.binary64.exponentBias +
          Format.binary64.mantissaBitsWithoutImplicit).toNat + 1 at hsmall
        omega
      · exact ⟨s, 0#11, _, fun hzero => absurd hzero (by decide), rfl, rfl⟩

theorem neg_pack (u : UnpackedFloat) : -Float.Model.pack u = Float.Model.pack u.neg := by
  by_cases hu : u = .notANumber
  · rw [hu]
    rfl
  · obtain ⟨s, e, f, h, hpack, hneg⟩ := exists_pack_eq_word hu
    change Float.Model.pack (UnpackedFloat.unpack .binary64 (UnpackedFloat.pack .binary64 u)).neg = _
    simp only [Float.Model.pack, hpack, neg_eq_mapSign, mapSign_unpack_word, pack_unpack_word (-s) h]
    simp only [← neg_eq_mapSign, hneg]

theorem isZero_iff_unpack (x : Float) : Component.isZero x = true ↔ ∃ s, x.toModel.unpack = .zero s := by
  change x.toModel.unpack.beq (0 : Float).toModel.unpack = true ↔ _
  rw [unpack_zero]
  cases x.toModel.unpack with
  | notANumber => simp [UnpackedFloat.beq, UnpackedFloat.compare]
  | infinity s => cases s <;> simp [UnpackedFloat.beq, UnpackedFloat.compare]
  | zero s => simp [UnpackedFloat.beq, UnpackedFloat.compare]
  | finite s m e hm => cases s <;> simp [UnpackedFloat.beq, UnpackedFloat.compare]

theorem agreesUnpacked_of_agrees {x y : Float} (h : Component.Agrees x y) :
    AgreesUnpacked x.toModel.unpack y.toModel.unpack := by
  rcases h with rfl | ⟨hx, hy⟩
  · exact .inl rfl
  · exact .inr ⟨(isZero_iff_unpack x).1 hx, (isZero_iff_unpack y).1 hy⟩

theorem AgreesUnpacked.pack {u v : UnpackedFloat} (h : AgreesUnpacked u v) :
    Component.Agrees (Float.ofModel (Float.Model.pack u)) (Float.ofModel (Float.Model.pack v)) := by
  rcases h with rfl | ⟨⟨s, rfl⟩, t, rfl⟩
  · exact .inl rfl
  · exact .inr ⟨by cases s <;> rfl, by cases t <;> rfl⟩

instance : LawfulZero Float where
  zero_add_agrees x := by
    have hsum := (zero_add_agrees_unpacked .positive x.toModel.unpack).pack
    rw [pack_unpack] at hsum
    exact hsum

instance : LawfulSigns Float where
  add_comm x y := congrArg (Float.ofModel ∘ Float.Model.pack)
    (add_comm_unpacked x.toModel.unpack y.toModel.unpack)
  mul_comm x y := congrArg (Float.ofModel ∘ Float.Model.pack)
    (mul_comm_unpacked x.toModel.unpack y.toModel.unpack)
  sub_eq_add_neg x y := by
    change Float.ofModel (Float.Model.pack _) = Float.ofModel (Float.Model.pack
      (UnpackedFloat.add .binary64 x.toModel.unpack (-y.toModel).unpack))
    rw [unpack_neg, ← sub_eq_add_neg_unpacked]
  neg_add_agrees x y := by
    change Component.Agrees (Float.ofModel (-Float.Model.pack _)) (Float.ofModel (Float.Model.pack
      (UnpackedFloat.add .binary64 (-x.toModel).unpack (-y.toModel).unpack)))
    rw [neg_pack, unpack_neg, unpack_neg]
    exact (neg_add_agrees_unpacked x.toModel.unpack y.toModel.unpack).pack
  neg_mul_agrees x y := by
    change Component.Agrees (Float.ofModel (-Float.Model.pack _)) (Float.ofModel (Float.Model.pack
      (UnpackedFloat.mul .binary64 (-x.toModel).unpack y.toModel.unpack)))
    rw [neg_pack, unpack_neg, ← neg_mul_unpacked]
    exact .inl rfl
  add_agrees h z := ((agreesUnpacked_of_agrees h).add z.toModel.unpack).pack
  mul_agrees h z := ((agreesUnpacked_of_agrees h).mul z.toModel.unpack).pack

end MatrixCalculator.Binary64
