import Mathlib
import MatrixCalculator.Scalar.Functions
import MatrixCalculator.Proofs.Binary64.Library
set_option autoImplicit false

/-!
The two edges of the real axis. A real number with a positive and one with a negative zero as its
imaginary part are the same number, and right of zero every function of the principal branch takes
them for the same. Left of zero the angle takes the sign of the zero, and with it logarithms and
powers lie on two branches; quotients by a negative real and negated reals lie on the lower edge. This is so
with every library that keeps its laws.
-/

namespace MatrixCalculator.Scalar

open Binary64 (pi isNegative Library CorrectlyRounded LawfulLibrary)

/-- A real number with a negative zero as its imaginary part. -/
def lowerEdge (r : Float) : Scalar Float := ⟨r, -0⟩

theorem same_self_of_number {a : Scalar Float} (hre : a.re.isNaN = false) (him : a.im.isNaN = false) :
    a.same a = true :=
  Bool.and_eq_true_iff.2 ⟨Binary64.beq_self_of_number hre, Binary64.beq_self_of_number him⟩

/-- The functions of the principal branch take both edges for the same number. -/
structure OneBranch [Library] (r : Float) : Prop where
  ln_eq : (lowerEdge r).ln = (ofReal r).ln
  ln_same : (lowerEdge r).ln.same (ofReal r).ln = true
  pow_eq (b : Scalar Float) : (lowerEdge r).pow b = (ofReal r).pow b
  argument_upper : -pi < (ofReal r).argument ∧ (ofReal r).argument ≤ pi
  argument_lower : -pi < (lowerEdge r).argument ∧ (lowerEdge r).argument ≤ pi

/-- Whether an exponent is a real whole number, so that powers need no logarithm. -/
def isWhole [Library] (b : Scalar Float) : Bool := b.isReal && Library.truncated b.re == b.re

/-- The functions of the principal branch follow the edge: the lower one has the angle that the
branch leaves out. -/
structure TwoBranches [Library] (r : Float) : Prop where
  argument_upper : (ofReal r).argument = pi
  argument_lower : (lowerEdge r).argument = -pi
  not_mem : ¬ -pi < (lowerEdge r).argument
  ln_upper : (ofReal r).ln = ⟨Library.ln r.abs, pi⟩
  ln_lower : (lowerEdge r).ln = ⟨Library.ln r.abs, -pi⟩
  ln_number : (ofReal r).ln.same (ofReal r).ln = true
  ln_not_same : (lowerEdge r).ln.same (ofReal r).ln = false
  pow_of_whole {b : Scalar Float} (hb : b.isWhole = true) : (lowerEdge r).pow b = (ofReal r).pow b
  pow_upper {b : Scalar Float} (hb : b.isWhole = false) : (ofReal r).pow b = exp (b * ⟨Library.ln r.abs, pi⟩)
  pow_lower {b : Scalar Float} (hb : b.isWhole = false) :
    (lowerEdge r).pow b = exp (b * ⟨Library.ln r.abs, -pi⟩)
  exponent_lower {b : Scalar Float} (hb : b.isReal = true) :
    (b * (ofReal r).ln).conj.Agrees (b * (lowerEdge r).ln)

theorem isWhole_of_isZero [Library] [CorrectlyRounded] {b : Scalar Float} (hb : b.isZero = true) :
    b.isWhole = true := by
  obtain ⟨hre, him⟩ := Bool.and_eq_true_iff.1 hb
  exact Bool.and_eq_true_iff.2 ⟨him, Binary64.truncated_beq_self_of_zero hre⟩

section Reals

variable [Library] {a b : Scalar Float}

theorem ln_of_pos (hreal : a.isReal = true) (hpos : 0 < a.re) : a.ln = ofReal (Library.ln a.re) := by
  have hcond : (a.isReal && ElementaryFunctions.lt 0 a.re) = true :=
    Bool.and_eq_true_iff.2 ⟨hreal, decide_eq_true hpos⟩
  rw [ln, if_pos hcond]
  rfl

theorem ln_of_not_pos [CorrectlyRounded] (hreal : a.isReal = true) (hpos : ¬ 0 < a.re) :
    a.ln = ⟨Library.ln a.re.abs, a.argument⟩ := by
  have hcond : ¬ (a.isReal && ElementaryFunctions.lt 0 a.re) = true := fun h =>
    hpos (of_decide_eq_true (Bool.and_eq_true_iff.1 h).2)
  rw [ln, if_neg hcond, modulus, if_pos hreal]
  exact congrArg (fun r => Scalar.mk (Library.ln r) a.argument) (CorrectlyRounded.abs_eq a.re)

/-- A real base other than zero goes through the logarithm unless the exponent spares it. -/
theorem pow_of_real [CorrectlyRounded] (hreal : a.isReal = true) (hzero : (a.re == 0) = false) :
    a.pow b = if (b.isReal && decide (0 ≤ a.re)) || b.isWhole then ofReal (Library.pow a.re b.re)
      else exp (b * a.ln) := by
  have hcond : (a.isReal && b.isReal && (ElementaryFunctions.le 0 a.re ||
      Component.same (ElementaryFunctions.truncated b.re) b.re)) =
        ((b.isReal && decide (0 ≤ a.re)) || b.isWhole) := by
    rw [hreal, Bool.true_and, Bool.and_or_distrib_left]
    rfl
  have hbase : ¬ a.isZero = true := fun h => by
    have hre : (a.re == 0) = true := (Bool.and_eq_true_iff.1 h).1
    rw [hzero] at hre
    cases hre
  rw [pow, hcond]
  by_cases hspared : ((b.isReal && decide (0 ≤ a.re)) || b.isWhole) = true
  · rw [if_pos hspared, if_pos hspared]
    rfl
  · have hexponent : ¬ b.isZero = true := fun h => hspared (by rw [isWhole_of_isZero h, Bool.or_true])
    rw [if_neg hspared, if_neg hspared, if_neg hexponent, if_neg hbase]

end Reals

section Edges

variable {r : Float}

theorem isReal_ofReal (r : Float) : (ofReal r).isReal = true := LawfulNegation.isZero_zero

theorem isReal_lowerEdge (r : Float) : (lowerEdge r).isReal = true :=
  (LawfulNegation.isZero_neg (0 : Float)).trans LawfulNegation.isZero_zero

theorem div_eq_lowerEdge {x y : Float} (hy : y < 0) : ofReal x / ofReal y = lowerEdge (x / y) := by
  change div (ofReal x) (ofReal y) = _
  rw [div, if_pos (isReal_ofReal y)]
  exact congrArg (Scalar.mk (x / y)) (Binary64.zero_div_of_lt_zero hy)

variable [Library] [LawfulLibrary]

theorem oneBranch_of_pos (hr : r.isNaN = false) (hzero : (r == 0) = false) (hpos : 0 < r) (hlt : ¬ r < 0)
    (hsign : isNegative r = false) : OneBranch r := by
  have hln : (lowerEdge r).ln = (ofReal r).ln := by
    rw [ln_of_pos (isReal_lowerEdge r) hpos, ln_of_pos (isReal_ofReal r) hpos]
    rfl
  have hself : (ofReal r).ln.same (ofReal r).ln = true := by
    rw [ln_of_pos (isReal_ofReal r) hpos]
    have him : (0 : Float).isNaN = false := by decide
    exact same_self_of_number (LawfulLibrary.isNaN_ln hr hlt) him
  refine ⟨hln, hln.symm ▸ hself, fun b => ?_, ?_, ?_⟩
  · rw [pow_of_real (isReal_lowerEdge r) hzero, pow_of_real (isReal_ofReal r) hzero, hln]
    rfl
  · have hupper : (ofReal r).argument = 0 := LawfulLibrary.atan2_right (isReal_ofReal r) hr hsign
    rw [hupper]
    decide
  · have hlower : (lowerEdge r).argument = -0 := LawfulLibrary.atan2_right (isReal_lowerEdge r) hr hsign
    rw [hlower]
    decide

theorem twoBranches_of_neg (hr : r.isNaN = false) (hzero : (r == 0) = false) (hlt : ¬ 0 < r) (hle : ¬ 0 ≤ r)
    (hsign : isNegative r = true) : TwoBranches r := by
  have hpositive : ¬ isNegative 0 = true := by decide
  have hnegative : isNegative (-0) = true := by decide
  have hupper : (ofReal r).argument = pi :=
    (LawfulLibrary.atan2_left (isReal_ofReal r) hr hsign).trans (if_neg hpositive)
  have hlower : (lowerEdge r).argument = -pi :=
    (LawfulLibrary.atan2_left (isReal_lowerEdge r) hr hsign).trans (if_pos hnegative)
  have hlnUpper : (ofReal r).ln = ⟨Library.ln r.abs, pi⟩ := by
    rw [ln_of_not_pos (isReal_ofReal r) hlt, hupper]
    rfl
  have hlnLower : (lowerEdge r).ln = ⟨Library.ln r.abs, -pi⟩ := by
    rw [ln_of_not_pos (isReal_lowerEdge r) hlt, hlower]
    rfl
  have hnumber := LawfulLibrary.isNaN_ln (Binary64.isNaN_abs hr) (Binary64.not_abs_lt_zero r)
  have hpow {a b : Scalar Float} (hreal : a.isReal = true) (hre : a.re = r) :
      a.pow b = if b.isWhole then ofReal (Library.pow r b.re) else exp (b * a.ln) := by
    subst hre
    rw [pow_of_real hreal hzero, decide_eq_false hle, Bool.and_false, Bool.false_or]
  refine ⟨hupper, hlower, ?_, hlnUpper, hlnLower, ?_, ?_, fun hb => ?_, fun hb => ?_, fun hb => ?_,
    fun {b} hb => ?_⟩
  · rw [hlower]
    decide
  · rw [hlnUpper]
    have him : pi.isNaN = false := by decide
    exact same_self_of_number hnumber him
  · rw [hlnUpper, hlnLower]
    have him : Component.same (-pi) pi = false := by decide
    exact Bool.and_eq_false_iff.2 (.inr him)
  · rw [hpow (isReal_lowerEdge r) rfl, hpow (isReal_ofReal r) rfl, if_pos hb, if_pos hb]
  · rw [hpow (isReal_ofReal r) rfl, hb, hlnUpper]
    rfl
  · rw [hpow (isReal_lowerEdge r) rfl, hb, hlnLower]
    rfl
  · have hturned : (ofReal r).ln.conj = (lowerEdge r).ln := by
      have hreal : ¬ Component.isZero pi = true := by decide
      rw [hlnUpper, hlnLower, conj]
      exact if_neg hreal
    have hconj : b.conj = b := by rw [conj, if_pos hb]
    have hmul := conj_mul_agrees b (ofReal r).ln
    rwa [hturned, hconj] at hmul

/-- The sign of a zero imaginary part is not seen right of zero and decides the branch left of it. A
negative real that was divided or negated to has the negative one. -/
theorem edge_decides_branch {r : Float} (hnan : r.isNaN = false) (hzero : (r == 0) = false) :
    ((ofReal r).same (lowerEdge r) = true ∧ (ofReal r).rank = .real ∧ (lowerEdge r).rank = .real) ∧
    ((0 < r ∧ OneBranch r) ∨ (r < 0 ∧ TwoBranches r)) ∧
    (∀ x y : Float, y < 0 → x / y = r → ofReal x / ofReal y = lowerEdge r) ∧
    -(ofReal (-r)) = lowerEdge r := by
  refine ⟨⟨?_, rank_eq_real.2 (isReal_ofReal r), rank_eq_real.2 (isReal_lowerEdge r)⟩, ?_, ?_, ?_⟩
  · have him : Component.same (0 : Float) (-0) = true := by decide
    exact Bool.and_eq_true_iff.2 ⟨Binary64.beq_self_of_number hnan, him⟩
  · rcases Binary64.side_of_zero hnan hzero with ⟨hpos, hlt, -, hsign⟩ | ⟨hneg, hlt, hle, hsign⟩
    · exact .inl ⟨hpos, oneBranch_of_pos hnan hzero hpos hlt hsign⟩
    · exact .inr ⟨hneg, twoBranches_of_neg hnan hzero hlt hle hsign⟩
  · rintro x y hy rfl
    exact div_eq_lowerEdge hy
  · exact congrArg (Scalar.mk · (-0)) (LawfulNegation.neg_neg r)

end Edges

theorem edge_decides_branch_quotient :
    TwoBranches (-2) ∧ ofReal (6 : Float) / ofReal (-3) = lowerEdge (-2) := by
  obtain ⟨-, hbranch, hquotient, -⟩ := edge_decides_branch (r := -2) (by decide) (by decide)
  refine ⟨?_, hquotient 6 (-3) (by decide) (by rfl)⟩
  rcases hbranch with ⟨hpos, -⟩ | ⟨-, hbranches⟩
  · exact absurd hpos (by decide)
  · exact hbranches

/-- One divided by minus one is minus one, with another logarithm and an angle outside the branch. -/
theorem quotient_leaves_branch :
    (ofReal (1 : Float) / ofReal (-1)).same (ofReal (-1)) = true ∧
      (ofReal (1 : Float) / ofReal (-1)).rank = .real ∧ (ofReal (-1 : Float)).rank = .real ∧
      (ofReal (1 : Float) / ofReal (-1)).ln.same (ofReal (-1)).ln = false ∧
      ¬ -pi < (ofReal (1 : Float) / ofReal (-1)).argument := by
  decide +kernel

end MatrixCalculator.Scalar
