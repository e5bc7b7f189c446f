import Mathlib
import MatrixCalculator.Proofs.Scalar.Exact
set_option autoImplicit false

/-!
Over exact components the operations on scalars obey the laws of the complex numbers, whatever the
ranks of the operands and of the results in between. Conjugation is a homomorphism of the field, and
a number times its conjugate is the square of its distance from zero.
-/

namespace MatrixCalculator

instance : ExactComponent ℚ where
  __ := (inferInstance : Field ℚ)
  same x y := decide (x = y)
  same_iff _ _ := decide_eq_true_iff
  eq_zero_of_squares h := (mul_self_add_mul_self_eq_zero.1 h).1

namespace Scalar

structure ComplexLaws (β : Type) [Component β] [LE β] : Prop where
  add_comm (a b : Scalar β) : a + b = b + a
  add_assoc (a b c : Scalar β) : a + b + c = a + (b + c)
  add_zero (a : Scalar β) : a + 0 = a
  add_neg (a : Scalar β) : a + -a = 0
  sub_eq_add_neg (a b : Scalar β) : a - b = a + -b
  mul_comm (a b : Scalar β) : a * b = b * a
  mul_assoc (a b c : Scalar β) : a * b * c = a * (b * c)
  mul_one (a : Scalar β) : a * 1 = a
  mul_add (a b c : Scalar β) : a * (b + c) = a * b + a * c
  i_mul_i : (i : Scalar β) * i = -1
  eq_parts (a : Scalar β) : a = ofReal a.re + i * ofReal a.im
  conj_add (a b : Scalar β) : (a + b).conj = a.conj + b.conj
  conj_mul (a b : Scalar β) : (a * b).conj = a.conj * b.conj
  conj_div (a b : Scalar β) : (a / b).conj = a.conj / b.conj
  mul_div_cancel (a : Scalar β) {b : Scalar β} : b.isZero = false → a * b / b = a
  div_mul_cancel (a : Scalar β) {b : Scalar β} : b.isZero = false → a / b * b = a
  rank_mul_conj (a : Scalar β) : (a * a.conj).rank = .real
  mul_conj_nonneg (a : Scalar β) : 0 ≤ (a * a.conj).re
  mul_conj_eq_zero_iff (a : Scalar β) : (a * a.conj).re = 0 ↔ a.isZero = true

variable {β : Type} [ExactComponent β]

/-- The imaginary part that is left alone is zero, and so is its negation. -/
theorem conj_eq (a : Scalar β) : a.conj = ⟨a.re, -a.im⟩ := by
  unfold conj
  split
  · next hreal =>
    rw [isReal_iff] at hreal
    ext
    · rfl
    · rw [hreal, neg_zero]
  · rfl

@[simp] theorem conj_re (a : Scalar β) : a.conj.re = a.re := by rw [conj_eq]

@[simp] theorem conj_im (a : Scalar β) : a.conj.im = -a.im := by rw [conj_eq]

def conjHom : Scalar β →+* Scalar β where
  toFun := conj
  map_zero' := by ext <;> simp
  map_one' := by ext <;> simp
  map_add' a b := by
    ext
    · simp
    · simp only [conj_im, add_im]
      ring
  map_mul' a b := by
    ext
    · simp
    · simp only [conj_re, conj_im, mul_im]
      ring

theorem mul_conj (a : Scalar β) : a * a.conj = ofReal a.normSq := by
  ext
  · simp only [mul_re, conj_re, conj_im, normSq, ofReal]
    ring
  · simp only [mul_im, conj_re, conj_im, ofReal]
    ring

theorem eq_parts (a : Scalar β) : a = ofReal a.re + i * ofReal a.im := by
  ext <;> simp [i, ofReal]

theorem i_mul_i : (i : Scalar β) * i = -1 := by
  ext <;> simp [i]

theorem isZero_eq_false_iff (a : Scalar β) : a.isZero = false ↔ a ≠ 0 := by
  rw [Ne, ← isZero_iff, Bool.not_eq_true]

theorem normSq_eq_zero_iff (a : Scalar β) : a.normSq = 0 ↔ a = 0 := by
  constructor
  · intro h
    by_contra hne
    exact normSq_ne_zero hne h
  · rintro rfl
    simp [normSq]

variable [LinearOrder β] [IsStrictOrderedRing β]

theorem normSq_nonneg (a : Scalar β) : 0 ≤ a.normSq :=
  add_nonneg (mul_self_nonneg a.re) (mul_self_nonneg a.im)

/-- Scalars over the numbers of an ordered field are its complex numbers. -/
theorem complexLaws : ComplexLaws β where
  add_comm := add_comm
  add_assoc := add_assoc
  add_zero := add_zero
  add_neg := add_neg_cancel
  sub_eq_add_neg := sub_eq_add_neg
  mul_comm := mul_comm
  mul_assoc := mul_assoc
  mul_one := mul_one
  mul_add := mul_add
  i_mul_i := i_mul_i
  eq_parts := eq_parts
  conj_add := map_add conjHom
  conj_mul := map_mul conjHom
  conj_div := map_div₀ conjHom
  mul_div_cancel a b h := mul_div_cancel_right₀ a ((isZero_eq_false_iff b).1 h)
  div_mul_cancel a b h := div_mul_cancel₀ a ((isZero_eq_false_iff b).1 h)
  rank_mul_conj a := by
    rw [mul_conj, rank_eq_real, isReal_iff]
    rfl
  mul_conj_nonneg a := by
    rw [mul_conj]
    exact normSq_nonneg a
  mul_conj_eq_zero_iff a := by
    rw [mul_conj, isZero_iff]
    exact normSq_eq_zero_iff a

theorem complexLaws_rational :
    (⟨1, 2⟩ * ⟨3, -1⟩ : Scalar ℚ) = ⟨5, 5⟩ ∧ (⟨5, 5⟩ / ⟨3, -1⟩ : Scalar ℚ) = ⟨1, 2⟩ ∧
      (⟨7, 0⟩ / i * i : Scalar ℚ) = ⟨7, 0⟩ ∧ ComplexLaws ℝ := by
  have hproduct : (⟨1, 2⟩ * ⟨3, -1⟩ : Scalar ℚ) = ⟨5, 5⟩ := by decide +kernel
  refine ⟨hproduct, ?_, complexLaws.div_mul_cancel ⟨7, 0⟩ (by decide), complexLaws⟩
  rw [← hproduct]
  exact complexLaws.mul_div_cancel ⟨1, 2⟩ (by decide)

end Scalar

end MatrixCalculator
