import MatrixCalculator.Proofs.Scalar.Conjugation
set_option autoImplicit false

/-!
Numbers that agree up to the sign of zero. Two results may differ in the sign of a zero and still be
the same to every later sum and product, so that laws which signed zeros break are laws of agreement.
-/

namespace MatrixCalculator

namespace Component

variable {β : Type} [Component β] {x y z : β}

/-- Equal, or both zero, each of a sign of its own. -/
def Agrees (x y : β) : Prop := x = y ∨ isZero x = true ∧ isZero y = true

theorem agrees_refl (x : β) : Agrees x x := .inl rfl

theorem Agrees.symm (h : Agrees x y) : Agrees y x := by
  rcases h with rfl | ⟨hx, hy⟩
  · exact agrees_refl x
  · exact .inr ⟨hy, hx⟩

theorem Agrees.trans (h : Agrees x y) (k : Agrees y z) : Agrees x z := by
  rcases h with rfl | ⟨hx, hy⟩
  · exact k
  · rcases k with rfl | ⟨-, hz⟩
    · exact .inr ⟨hx, hy⟩
    · exact .inr ⟨hx, hz⟩

theorem Agrees.isZero_eq (h : Agrees x y) : isZero x = isZero y := by
  rcases h with rfl | ⟨hx, hy⟩
  · rfl
  · rw [hx, hy]

end Component

class LawfulZero (β : Type) [Component β] : Prop where
  zero_add_agrees (x : β) : Component.Agrees (0 + x) x

/-- Sums and products commute, negation passes through both, and none of them tells the signs of
zeros apart but by the sign of a zero. -/
class LawfulSigns (β : Type) [Component β] : Prop extends LawfulNegation β where
  add_comm (x y : β) : x + y = y + x
  mul_comm (x y : β) : x * y = y * x
  sub_eq_add_neg (x y : β) : x - y = x + -y
  neg_add_agrees (x y : β) : Component.Agrees (-(x + y)) (-x + -y)
  neg_mul_agrees (x y : β) : Component.Agrees (-(x * y)) (-x * y)
  add_agrees {x y : β} : Component.Agrees x y → ∀ z, Component.Agrees (x + z) (y + z)
  mul_agrees {x y : β} : Component.Agrees x y → ∀ z, Component.Agrees (x * z) (y * z)

namespace Component.Agrees

variable {β : Type} [Component β] [LawfulSigns β] {x x' y y' : β}

theorem neg (h : Agrees x y) : Agrees (-x) (-y) := by
  rcases h with rfl | ⟨hx, hy⟩
  · exact agrees_refl _
  · exact .inr ⟨by rw [LawfulNegation.isZero_neg, hx], by rw [LawfulNegation.isZero_neg, hy]⟩

theorem add (hx : Agrees x x') (hy : Agrees y y') : Agrees (x + y) (x' + y') := by
  have hright := LawfulSigns.add_agrees hy x'
  rw [LawfulSigns.add_comm y, LawfulSigns.add_comm y'] at hright
  exact (LawfulSigns.add_agrees hx y).trans hright

theorem mul (hx : Agrees x x') (hy : Agrees y y') : Agrees (x * y) (x' * y') := by
  have hright := LawfulSigns.mul_agrees hy x'
  rw [LawfulSigns.mul_comm y, LawfulSigns.mul_comm y'] at hright
  exact (LawfulSigns.mul_agrees hx y).trans hright

theorem sub (hx : Agrees x x') (hy : Agrees y y') : Agrees (x - y) (x' - y') := by
  rw [LawfulSigns.sub_eq_add_neg, LawfulSigns.sub_eq_add_neg]
  exact hx.add hy.neg

theorem neg_of_isZero (h : isZero x = true) : Agrees x (-x) :=
  .inr ⟨h, by rw [LawfulNegation.isZero_neg, h]⟩

end Component.Agrees

namespace Component

variable {β : Type} [Component β] [LawfulSigns β]

theorem mul_neg_agrees (x y : β) : Agrees (x * -y) (-(x * y)) := by
  rw [LawfulSigns.mul_comm x, LawfulSigns.mul_comm x]
  exact (LawfulSigns.neg_mul_agrees y x).symm

theorem add_agrees_of_isZero [LawfulZero β] {x : β} (h : isZero x = true) (y : β) : Agrees (x + y) y :=
  (LawfulSigns.add_agrees (.inr ⟨h, LawfulNegation.isZero_zero⟩) y).trans (LawfulZero.zero_add_agrees y)

theorem neg_mul_neg_agrees (x y : β) : Agrees (-x * -y) (x * y) := by
  have hleft : Agrees (-x * -y) (-(x * -y)) := (LawfulSigns.neg_mul_agrees x (-y)).symm
  have hright : Agrees (-(x * -y)) (- -(x * y)) := (mul_neg_agrees x y).neg
  rw [LawfulNegation.neg_neg] at hright
  exact hleft.trans hright

end Component

namespace Scalar

variable {β : Type} [Component β]

structure Agrees (a b : Scalar β) : Prop where
  re : Component.Agrees a.re b.re
  im : Component.Agrees a.im b.im

theorem agrees_refl (a : Scalar β) : a.Agrees a := ⟨.inl rfl, .inl rfl⟩

theorem Agrees.symm {a b : Scalar β} (h : a.Agrees b) : b.Agrees a := ⟨h.re.symm, h.im.symm⟩

theorem Agrees.trans {a b c : Scalar β} (h : a.Agrees b) (k : b.Agrees c) : a.Agrees c :=
  ⟨h.re.trans k.re, h.im.trans k.im⟩

theorem mul_of_real {a b : Scalar β} (h : (a.isReal && b.isReal) = true) : a * b = ofReal (a.re * b.re) := if_pos h

theorem mul_of_not_real {a b : Scalar β} (h : ¬ (a.isReal && b.isReal) = true) :
    a * b = ⟨a.re * b.re - a.im * b.im, a.re * b.im + a.im * b.re⟩ := by
  change mul a b = _
  rw [mul, if_neg h]

theorem zero_add_agrees [LawfulZero β] (a : Scalar β) : (0 + a).Agrees a :=
  ⟨LawfulZero.zero_add_agrees a.re, LawfulZero.zero_add_agrees a.im⟩

variable [LawfulSigns β] {a a' b b' : Scalar β}

theorem Agrees.add (ha : a.Agrees a') (hb : b.Agrees b') : (a + b).Agrees (a' + b') :=
  ⟨ha.re.add hb.re, ha.im.add hb.im⟩

theorem mul_commute (a b : Scalar β) : a * b = b * a := by
  change mul a b = mul b a
  unfold mul
  rw [Bool.and_comm, LawfulSigns.mul_comm a.re b.re, LawfulSigns.mul_comm a.im b.im,
    LawfulSigns.mul_comm a.re b.im, LawfulSigns.mul_comm a.im b.re,
    LawfulSigns.add_comm (b.im * a.re)]

/-- Where conjugation leaves a scalar as it is, turning the sign of its imaginary part does not
show. -/
theorem conj_agrees (a : Scalar β) : a.conj.Agrees ⟨a.re, -a.im⟩ := by
  unfold conj
  split
  · next hreal => exact ⟨.inl rfl, .neg_of_isZero hreal⟩
  · exact agrees_refl _

theorem conj_add_agrees (a b : Scalar β) : (a + b).conj.Agrees (a.conj + b.conj) := by
  have hneg : Component.Agrees (-(a.im + b.im)) (-a.im + -b.im) := LawfulSigns.neg_add_agrees a.im b.im
  refine (conj_agrees (a + b)).trans (Agrees.trans (b := ⟨a.re + b.re, -a.im + -b.im⟩) ⟨.inl rfl, hneg⟩ ?_)
  exact ((conj_agrees a).add (conj_agrees b)).symm

theorem conj_mul_agrees (a b : Scalar β) : (a * b).conj.Agrees (a.conj * b.conj) := by
  by_cases hreal : (a.isReal && b.isReal) = true
  · have ⟨ha, hb⟩ := Bool.and_eq_true_iff.1 hreal
    have hproduct : (a * b).isReal = true := by
      change (mul a b).isReal = true
      rw [mul, if_pos hreal]
      exact LawfulNegation.isZero_zero
    rw [conj, if_pos hproduct, conj, if_pos ha, conj, if_pos hb]
    exact agrees_refl _
  · have hconj : ¬ (a.conj.isReal && b.conj.isReal) = true := by rwa [isReal_conj, isReal_conj]
    have ha := conj_agrees a
    have hb := conj_agrees b
    have hre : Component.Agrees (a.re * b.re - a.im * b.im)
        (a.conj.re * b.conj.re - a.conj.im * b.conj.im) :=
      ((ha.re.mul hb.re).sub
        ((ha.im.mul hb.im).trans (Component.neg_mul_neg_agrees a.im b.im))).symm
    have hleft : Component.Agrees (a.conj.re * b.conj.im) (-(a.re * b.im)) :=
      (ha.re.mul hb.im).trans (Component.mul_neg_agrees a.re b.im)
    have hright : Component.Agrees (a.conj.im * b.conj.re) (-(a.im * b.re)) :=
      (ha.im.mul hb.re).trans (LawfulSigns.neg_mul_agrees a.im b.re).symm
    have him : Component.Agrees (-(a.re * b.im + a.im * b.re))
        (a.conj.re * b.conj.im + a.conj.im * b.conj.re) :=
      (LawfulSigns.neg_add_agrees _ _).trans (hleft.add hright).symm
    rw [mul_of_not_real hreal, mul_of_not_real hconj]
    exact (conj_agrees _).trans ⟨hre, him⟩

end Scalar

end MatrixCalculator
