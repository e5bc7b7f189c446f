import Mathlib
import MatrixCalculator.Proofs.OrientedVector.ZeroNorm
import MatrixCalculator.Proofs.Scalar.Exact
set_option autoImplicit false

/-!
When the angle between real vectors is real. In exact arithmetic the cosine cannot leave the interval from
minus one to one; rounded, it can, and the arc cosine then goes on off the real axis. As long as the cosine
stays within the interval, the angle is its arc cosine.
-/

namespace MatrixCalculator

open Binary64 (Library)

namespace Scalar

/-- The logarithm that stands in for the arc sine off the real domain. -/
def arcLogarithm [Library] (z : Scalar Float) : Scalar Float := (i * z + (1 - z * z).sqrt).ln

/-- What is taken from zero is zero just where nothing was taken: zero times an angle adds nothing to it. -/
theorem isZero_zero_sub_iff (c t : Float) :
    Component.isZero (0 - (0 * t + c)) = true ↔ Component.isZero c = true ∧ t.isFinite = true := by
  rw [LawfulSigns.sub_eq_add_neg, (LawfulZero.zero_add_agrees _).isZero_eq, LawfulNegation.isZero_neg]
  have hproduct := Binary64.isZero_mul_iff_isFinite (x := 0) LawfulNegation.isZero_zero t
  by_cases ht : t.isFinite = true
  · rw [(Component.add_agrees_of_isZero (hproduct.2 ht) c).isZero_eq]
    exact (and_iff_left ht).symm
  · refine iff_of_false (fun hzero => ?_) fun h => ht h.2
    have hout : (0 * t).isFinite = false := by
      rw [LawfulSigns.mul_comm]
      exact Binary64.isFinite_mul_left (Bool.not_eq_true _ ▸ ht) 0
    have hsum := Binary64.isFinite_add_left hout c
    rw [Binary64.isFinite_of_isZero hzero] at hsum
    cases hsum

theorem rank_acos_outside [Library] {z : Scalar Float} (hout : z.inUnitInterval = false) :
    z.acos.rank = .real ↔ Component.isZero z.arcLogarithm.re = true ∧ z.arcLogarithm.im.isFinite = true := by
  have hcondition : ¬ (z.isReal && z.inUnitInterval) = true := by
    rw [hout, Bool.and_false]
    exact Bool.false_ne_true
  have hturn : ¬ ((⟨0, -1⟩ : Scalar Float).isReal && z.arcLogarithm.isReal) = true := by
    have hnot : (⟨0, -1⟩ : Scalar Float).isReal = false := rfl
    rw [hnot]
    exact Bool.false_ne_true
  have hasin : z.asin = (⟨0, -1⟩ : Scalar Float) * z.arcLogarithm := if_neg hcondition
  have hturned : Component.isZero (-1 * z.arcLogarithm.re) = Component.isZero z.arcLogarithm.re := by
    rw [← Component.Agrees.isZero_eq (LawfulSigns.neg_mul_agrees 1 z.arcLogarithm.re), LawfulNegation.isZero_neg,
      Binary64.one_mul_eq]
  rw [acos, if_neg hcondition, hasin, mul_of_not_real hturn, rank_eq_real, ← hturned]
  exact isZero_zero_sub_iff _ _

/-- What the arc cosine takes the logarithm of beside a real number above one, but for a factor of i. -/
def besideAxis [Library] (c : Float) : Float := c + Library.sqrt (-(1 - c * c))

theorem exists_besideAxis [Library] {c d : Float} (hd : Component.isZero d = true) (hc : c.isFinite = true)
    (hsquare : ¬ 0 ≤ 1 - c * c) (hs : Component.isZero (besideAxis c) = false) :
    ∃ t, Component.isZero t = true ∧
      i * ⟨c, d⟩ + (1 - ⟨c, d⟩ * ⟨c, d⟩ : Scalar Float).sqrt = ⟨t, besideAxis c⟩ := by
  have hturned : i * ⟨c, d⟩ = (⟨0 * c - 1 * d, 0 * d + 1 * c⟩ : Scalar Float) := by
    have hnot : ¬ ((i : Scalar Float).isReal && (⟨c, d⟩ : Scalar Float).isReal) = true := by
      have himaginary : (i : Scalar Float).isReal = false := by decide
      rw [himaginary]
      exact Bool.false_ne_true
    exact mul_of_not_real hnot
  have hroot : (1 - ⟨c, d⟩ * ⟨c, d⟩ : Scalar Float).sqrt = ⟨0, Library.sqrt (-(1 - c * c))⟩ := by
    have hnone : Component.isZero ((0 : Float) - 0) = true := by decide
    have hproduct : (⟨c, d⟩ * ⟨c, d⟩ : Scalar Float) = ofReal (c * c) :=
      mul_of_real (Bool.and_eq_true_iff.2 ⟨hd, hd⟩)
    have hreal : (1 - ofReal (c * c) : Scalar Float).isReal = true := hnone
    rw [hproduct, sqrt, if_pos hreal]
    exact if_neg fun hle => hsquare (of_decide_eq_true hle)
  have hcut := Binary64.isZero_mul_iff_isFinite (x := 0) LawfulNegation.isZero_zero
  refine ⟨0 * c - 1 * d + 0, ?_, ?_⟩
  · rw [LawfulSigns.add_comm, (LawfulZero.zero_add_agrees _).isZero_eq, LawfulSigns.sub_eq_add_neg,
      (Component.add_agrees_of_isZero ((hcut c).2 hc) _).isZero_eq, LawfulNegation.isZero_neg,
      Binary64.one_mul_eq]
    exact hd
  · have himaginary : Component.Agrees (0 * d + 1 * c + Library.sqrt (-(1 - c * c))) (besideAxis c) := by
      have hleft := Component.add_agrees_of_isZero ((hcut d).2 (Binary64.isFinite_of_isZero hd)) (1 * c)
      rw [Binary64.one_mul_eq] at hleft
      rw [Binary64.one_mul_eq]
      exact hleft.add (Component.agrees_refl _)
    rw [hturned, hroot]
    rcases himaginary with heq | ⟨-, hzero⟩
    · exact congrArg (Scalar.mk _) heq
    · exact absurd (hs.symm.trans hzero) Bool.false_ne_true

theorem arcLogarithm_beyond [Library]
    (hhypot : ∀ {x y : Float}, Component.isZero x = true → Library.hypot x y = y.abs) {c d : Float}
    (hd : Component.isZero d = true) (hc : c.isFinite = true) (hsquare : ¬ 0 ≤ 1 - c * c)
    (hs : Component.isZero (besideAxis c) = false) :
    (arcLogarithm ⟨c, d⟩).re = Library.ln (besideAxis c).abs := by
  obtain ⟨t, ht, hpoint⟩ := exists_besideAxis hd hc hsquare hs
  have hnot : ¬ (⟨t, besideAxis c⟩ : Scalar Float).isReal = true := Bool.eq_false_iff.1 hs
  have hpositive : ¬ ((⟨t, besideAxis c⟩ : Scalar Float).isReal && ElementaryFunctions.lt 0 t) = true :=
    fun h => hnot (Bool.and_eq_true_iff.1 h).1
  rw [arcLogarithm, hpoint, ln, if_neg hpositive, modulus, if_neg hnot]
  exact congrArg Library.ln (hhypot ht)

end Scalar

namespace OrientedVector

open Scalar

section Reals

variable {β : Type} [ElementaryFunctions β]

def cosine (v w : OrientedVector (Scalar β)) : β := (v.dot w).re / (v.norm.re * w.norm.re)

variable {v w : OrientedVector (Scalar β)}

theorem foldl_of_real (hzero : (0 : β) + 0 = 0) {pairs : List (Scalar β × Scalar β)}
    (h : ∀ p ∈ pairs, p.1.isReal = true ∧ p.2.isReal = true) (r : β) :
    pairs.foldl (fun acc p => acc + p.1 * p.2) (ofReal r) =
      ofReal (pairs.foldl (fun acc p => acc + p.1.re * p.2.re) r) := by
  induction pairs generalizing r with
  | nil => rfl
  | cons p pairs ih =>
    obtain ⟨hp, hpairs⟩ := List.forall_mem_cons.1 h
    have hsum : ofReal r + ofReal (p.1.re * p.2.re) = ofReal (r + p.1.re * p.2.re) :=
      congrArg (Scalar.mk _) hzero
    rw [List.foldl_cons, List.foldl_cons, mul_of_real (Bool.and_eq_true_iff.2 hp), hsum, ih hpairs]

theorem dot_of_real (hzero : (0 : β) + 0 = 0) (hv : ∀ x ∈ v.items, x.isReal = true)
    (hw : ∀ x ∈ w.items, x.isReal = true) :
    v.dot w = ofReal ((v.items.zip w.items).foldl (fun acc p => acc + p.1.re * p.2.re) 0) :=
  foldl_of_real hzero (fun _ hp => ⟨hv _ (List.of_mem_zip hp).1, hw _ (List.of_mem_zip hp).2⟩) 0

theorem normSquared_of_real (hv : ∀ x ∈ v.items, x.isReal = true) : v.normSquared = v.dot v := by
  have hself : v.items.zip v.items = v.items.map fun x => (x, x) := List.zipWith_self
  rw [dot, hself, List.foldl_map, normSquared]
  refine List.foldl_ext _ _ _ fun acc x hx => ?_
  rw [conj, if_pos (hv x hx)]

theorem angle_eq_ok_iff (hlength : v.length = w.length) {θ : Scalar β} :
    v.angle w = .ok θ ↔ (v.norm * w.norm).isZero = false ∧ θ = (v.dot w / (v.norm * w.norm)).acos := by
  rw [angle_eq hlength]
  split
  · next hzero => exact iff_of_false nofun fun h => absurd (h.1.symm.trans hzero) Bool.false_ne_true
  · next hne => exact ⟨fun h => ⟨Bool.eq_false_iff.2 hne, (Except.ok.inj h).symm⟩, fun h => h.2 ▸ rfl⟩

/-- Between real norms the cosine is the quotient, up to an imaginary part of zero over the norms. -/
theorem quotient_of_real (hzero : Component.isZero (0 : β) = true) {a b d : β} (hv : v.norm = ofReal a)
    (hw : w.norm = ofReal b) (hdot : v.dot w = ofReal d) :
    v.norm * w.norm = ofReal (a * b) ∧ v.dot w / (v.norm * w.norm) = ⟨v.cosine w, 0 / (a * b)⟩ := by
  have hreal (r : β) : (ofReal r).isReal = true := hzero
  have hnorms : v.norm * w.norm = ofReal (a * b) := by
    rw [hv, hw]
    exact mul_of_real (Bool.and_eq_true_iff.2 ⟨hreal a, hreal b⟩)
  refine ⟨hnorms, ?_⟩
  rw [cosine, hnorms, hdot, hv, hw]
  exact if_pos (hreal (a * b))

end Reals

section Exact

variable {v w : OrientedVector (Scalar ℝ)}

theorem dot_eq_sum_of_real (hv : ∀ x ∈ v.items, x.isReal = true) (hw : ∀ x ∈ w.items, x.isReal = true) :
    v.dot w = ofReal ((v.items.zip w.items).map fun p => p.1.re * p.2.re).sum := by
  rw [dot_of_real (add_zero 0) hv hw, List.sum_eq_foldl, List.foldl_map]

theorem dot_self_eq_sum_of_real (hv : ∀ x ∈ v.items, x.isReal = true) :
    v.dot v = ofReal (v.items.map fun x => x.re ^ 2).sum := by
  rw [dot_eq_sum_of_real hv hv]
  change ofReal (List.map _ (List.zipWith Prod.mk v.items v.items)).sum = _
  rw [List.zipWith_self, List.map_map]
  exact congrArg (fun l => ofReal (List.sum l)) (List.map_congr_left fun x _ => (sq x.re).symm)

theorem dot_self_nonneg (hv : ∀ x ∈ v.items, x.isReal = true) : 0 ≤ (v.dot v).re := by
  rw [dot_self_eq_sum_of_real hv]
  refine List.sum_nonneg fun r hr => ?_
  obtain ⟨x, -, rfl⟩ := List.mem_map.1 hr
  exact sq_nonneg x.re

/-- The inequality of Cauchy and Schwarz, for the sums over the entries. -/
theorem dot_sq_le (hlength : v.length = w.length) (hv : ∀ x ∈ v.items, x.isReal = true)
    (hw : ∀ x ∈ w.items, x.isReal = true) : (v.dot w).re ^ 2 ≤ (v.dot v).re * (w.dot w).re := by
  have hlengths : v.items.length = w.items.length := hlength
  have hleft : v.items = (v.items.zip w.items).map Prod.fst := (List.map_fst_zip hlengths.le).symm
  have hright : w.items = (v.items.zip w.items).map Prod.snd := (List.map_snd_zip hlengths.ge).symm
  rw [dot_eq_sum_of_real hv hw, dot_self_eq_sum_of_real hv, dot_self_eq_sum_of_real hw]
  generalize v.items.zip w.items = pairs at hleft hright ⊢
  rw [hleft, hright, List.map_map, List.map_map]
  simp only [ofReal, Function.comp_def, ← Fin.sum_univ_fun_getElem]
  exact Finset.sum_mul_sq_le_sq_mul_sq _ _ _

theorem norm_of_real (hv : ∀ x ∈ v.items, x.isReal = true) : v.norm = ofReal √(v.dot v).re := by
  have hreal : (v.dot v).isReal = true := by
    rw [dot_self_eq_sum_of_real hv]
    exact (isReal_iff _).2 rfl
  rw [norm, normSquared_of_real hv, Scalar.sqrt, if_pos hreal]
  exact if_pos (decide_eq_true (dot_self_nonneg hv))

theorem abs_cosine_le (hlength : v.length = w.length) (hv : ∀ x ∈ v.items, x.isReal = true)
    (hw : ∀ x ∈ w.items, x.isReal = true) : |v.cosine w| ≤ 1 := by
  rw [cosine, norm_of_real hv, norm_of_real hw, ofReal, ofReal, ← Real.sqrt_mul (dot_self_nonneg hv), abs_div,
    abs_of_nonneg (Real.sqrt_nonneg _)]
  exact div_le_one_of_le₀ (Real.abs_le_sqrt (dot_sq_le hlength hv hw)) (Real.sqrt_nonneg _)

theorem angle_exact (hlength : v.length = w.length) (hv : ∀ x ∈ v.items, x.isReal = true)
    (hw : ∀ x ∈ w.items, x.isReal = true) {θ : Scalar ℝ} (h : v.angle w = .ok θ) :
    θ = ofReal (Real.arccos (v.cosine w)) := by
  obtain ⟨-, rfl⟩ := (angle_eq_ok_iff hlength).1 h
  obtain ⟨-, hquotient⟩ := quotient_of_real ((ExactComponent.same_iff (0 : ℝ) 0).2 rfl) (norm_of_real hv)
    (norm_of_real hw) (dot_eq_sum_of_real hv hw)
  obtain ⟨hlow, hhigh⟩ := abs_le.1 (abs_cosine_le hlength hv hw)
  rw [hquotient, zero_div, Scalar.acos]
  refine if_pos (Bool.and_eq_true_iff.2 ⟨(isReal_iff _).2 rfl, ?_⟩)
  exact Bool.and_eq_true_iff.2 ⟨decide_eq_true hlow, decide_eq_true hhigh⟩

end Exact

section Rounded

theorem zero_add_zero : (0 : Float) + 0 = 0 := by rfl

variable [Library] {v w : OrientedVector (Scalar Float)}

theorem norm_of_finite_real (hv : ∀ x ∈ v.items, x.isFinite = true ∧ x.isReal = true) :
    v.norm = ofReal (Library.sqrt (v.dot v).re) := by
  have hreal : ∀ x ∈ v.items, x.isReal = true := fun x hx => (hv x hx).2
  have hsum : v.normSquared.VanishesIf v.Vanishes := vanishesIf_normSquared fun x hx => (hv x hx).1
  rw [normSquared_of_real hreal] at hsum
  refine (congrArg Scalar.sqrt (normSquared_of_real hreal)).trans (sqrt_of_real ?_ hsum.re.nonneg)
  rw [dot_of_real zero_add_zero hreal hreal]
  exact isReal_ofReal _

theorem quotient_of_finite_real (hv : ∀ x ∈ v.items, x.isFinite = true ∧ x.isReal = true)
    (hw : ∀ x ∈ w.items, x.isFinite = true ∧ x.isReal = true) : ∃ n : Float,
      v.norm * w.norm = ofReal n ∧ v.dot w / (v.norm * w.norm) = ⟨v.cosine w, 0 / n⟩ ∧
        v.cosine w = (v.dot w).re / n := by
  obtain ⟨hnorms, hquotient⟩ := quotient_of_real LawfulNegation.isZero_zero (norm_of_finite_real hv)
    (norm_of_finite_real hw) (dot_of_real zero_add_zero (fun x hx => (hv x hx).2) (fun x hx => (hw x hx).2))
  refine ⟨_, hnorms, hquotient, ?_⟩
  rw [cosine, norm_of_finite_real hv, norm_of_finite_real hw]
  rfl

theorem inUnitInterval_iff (z : Scalar Float) : z.inUnitInterval = true ↔ -1 ≤ z.re ∧ z.re ≤ 1 :=
  Bool.and_eq_true_iff.trans (and_congr decide_eq_true_iff decide_eq_true_iff)

theorem angle_rounded (hlength : v.length = w.length) (hv : ∀ x ∈ v.items, x.isFinite = true ∧ x.isReal = true)
    (hw : ∀ x ∈ w.items, x.isFinite = true ∧ x.isReal = true) {θ : Scalar Float} (h : v.angle w = .ok θ)
    (hinterval : -1 ≤ v.cosine w ∧ v.cosine w ≤ 1) : θ = ofReal (Library.acos (v.cosine w)) := by
  obtain ⟨hne, rfl⟩ := (angle_eq_ok_iff hlength).1 h
  obtain ⟨n, hnorms, hquotient, hcosine⟩ := quotient_of_finite_real hv hw
  rw [hnorms, isZero_ofReal] at hne
  have hnumber : n.isNaN = false := Binary64.isNaN_divisor (hcosine ▸ Binary64.isNaN_of_le hinterval.1)
  rw [hquotient, Scalar.acos]
  refine if_pos (Bool.and_eq_true_iff.2 ⟨Binary64.isZero_zero_div hne hnumber, ?_⟩)
  exact (inUnitInterval_iff ⟨v.cosine w, 0 / n⟩).2 hinterval

end Rounded

noncomputable def exact (v : OrientedVector (Scalar Float)) : OrientedVector (Scalar ℝ) :=
  ofList v.space (v.items.map fun x => ⟨Binary64.value x.re, Binary64.value x.im⟩)

theorem isReal_of_mem_exact {v : OrientedVector (Scalar Float)} (hv : ∀ x ∈ v.items, x.isReal = true) :
    ∀ x ∈ v.exact.items, x.isReal = true := by
  intro x hx
  obtain ⟨y, hy, rfl⟩ := List.mem_map.1 hx
  rw [isReal_iff, Rat.cast_eq_zero]
  exact Binary64.value_of_isZero (hv y hy)

/-- Without rounding the angle between real vectors is real. With rounding it is as long as the cosine stays
within its interval; where the cosine leaves it, the angle leaves the real axis, unless the logarithm that
stands in for it is zero. -/
theorem rank_angle [Library] {v w : OrientedVector (Scalar Float)} (hlength : v.length = w.length)
    (hv : ∀ x ∈ v.items, x.isFinite = true ∧ x.rank = .real)
    (hw : ∀ x ∈ w.items, x.isFinite = true ∧ x.rank = .real) :
    (-1 ≤ v.exact.cosine w.exact ∧ v.exact.cosine w.exact ≤ 1 ∧ ∀ θ, v.exact.angle w.exact = .ok θ →
      θ = ofReal (Real.arccos (v.exact.cosine w.exact)) ∧ θ.rank = .real) ∧
    ∀ θ, v.angle w = .ok θ →
      (-1 ≤ v.cosine w ∧ v.cosine w ≤ 1 → θ = ofReal (Library.acos (v.cosine w)) ∧ θ.rank = .real) ∧
      (¬ (-1 ≤ v.cosine w ∧ v.cosine w ≤ 1) →
        (θ.rank = .real ↔ Component.isZero (v.dot w / (v.norm * w.norm)).arcLogarithm.re = true ∧
          (v.dot w / (v.norm * w.norm)).arcLogarithm.im.isFinite = true)) := by
  have hvreal : ∀ x ∈ v.items, x.isFinite = true ∧ x.isReal = true :=
    fun x hx => ⟨(hv x hx).1, rank_eq_real.1 (hv x hx).2⟩
  have hwreal : ∀ x ∈ w.items, x.isFinite = true ∧ x.isReal = true :=
    fun x hx => ⟨(hw x hx).1, rank_eq_real.1 (hw x hx).2⟩
  have hvexact := isReal_of_mem_exact fun x hx => (hvreal x hx).2
  have hwexact := isReal_of_mem_exact fun x hx => (hwreal x hx).2
  have hexact : v.exact.length = w.exact.length := by
    rw [exact, exact, length_ofList, length_ofList, List.length_map, List.length_map]
    exact hlength
  obtain ⟨hlow, hhigh⟩ := abs_le.1 (abs_cosine_le hexact hvexact hwexact)
  refine ⟨⟨hlow, hhigh, fun θ h => ?_⟩, fun θ h => ⟨fun hinterval => ?_, fun hout => ?_⟩⟩
  · have hangle := angle_exact hexact hvexact hwexact h
    exact ⟨hangle, hangle ▸ rank_eq_real.2 ((isReal_iff _).2 rfl)⟩
  · have hangle := angle_rounded hlength hvreal hwreal h hinterval
    exact ⟨hangle, hangle ▸ rank_eq_real.2 (isReal_ofReal _)⟩
  · obtain ⟨-, rfl⟩ := (angle_eq_ok_iff hlength).1 h
    obtain ⟨n, -, hquotient, -⟩ := quotient_of_finite_real hvreal hwreal
    refine rank_acos_outside (Bool.eq_false_iff.2 fun hin => hout ?_)
    rw [hquotient] at hin
    exact (inUnitInterval_iff ⟨v.cosine w, 0 / n⟩).1 hin

theorem rank_angle_three_four :
    ∃ θ, (ofList .row [⟨3, 0⟩, ⟨4, 0⟩] : OrientedVector (Scalar Float)).angle
      (ofList .row [⟨3, 0⟩, ⟨4, 0⟩]) = .ok θ ∧ θ.rank = .real := by
  have hok : (ofList .row [⟨3, 0⟩, ⟨4, 0⟩] : OrientedVector (Scalar Float)).angle
      (ofList .row [⟨3, 0⟩, ⟨4, 0⟩]) = .ok (ofReal 1 : Scalar Float).acos := by
    refine (angle_eq_ok_iff rfl).2 ⟨by decide +kernel, congrArg acos ?_⟩
    decide +kernel
  obtain ⟨-, hrounded⟩ := rank_angle (v := ofList .row [⟨3, 0⟩, ⟨4, 0⟩])
    (w := ofList .row [⟨3, 0⟩, ⟨4, 0⟩]) rfl (by decide +kernel) (by decide +kernel)
  exact ⟨_, hok, ((hrounded _ hok).1 (by decide +kernel)).2⟩

/-- Beyond one the angle is off the real axis, unless the logarithm on the way to it is zero. -/
theorem rank_angle_beyond [Library]
    (hhypot : ∀ {x y : Float}, Component.isZero x = true → Library.hypot x y = y.abs)
    {v w : OrientedVector (Scalar Float)} (hlength : v.length = w.length)
    (hv : ∀ x ∈ v.items, x.isFinite = true ∧ x.isReal = true)
    (hw : ∀ x ∈ w.items, x.isFinite = true ∧ x.isReal = true) {θ : Scalar Float} (h : v.angle w = .ok θ)
    (hone : ¬ v.cosine w ≤ 1) (hc : (v.cosine w).isFinite = true) (hsquare : ¬ 0 ≤ 1 - v.cosine w * v.cosine w)
    (hs : Component.isZero (besideAxis (v.cosine w)) = false)
    (hln : Component.isZero (Library.ln (besideAxis (v.cosine w)).abs) = false) : θ.rank ≠ .real := by
  obtain ⟨hne, rfl⟩ := (angle_eq_ok_iff hlength).1 h
  obtain ⟨n, hnorms, hquotient, hcosine⟩ := quotient_of_finite_real hv hw
  rw [hnorms, isZero_ofReal] at hne
  have hnumber : n.isNaN = false := Binary64.isNaN_divisor (hcosine ▸ Binary64.isNaN_of_isFinite hc)
  have hzero := Binary64.isZero_zero_div hne hnumber
  have hout : (⟨v.cosine w, 0 / n⟩ : Scalar Float).inUnitInterval = false :=
    Bool.eq_false_iff.2 fun hin => hone ((inUnitInterval_iff ⟨v.cosine w, 0 / n⟩).1 hin).2
  rw [hquotient, ne_eq, rank_acos_outside hout, arcLogarithm_beyond hhypot hzero hc hsquare hs, hln]
  exact fun hreal => Bool.false_ne_true hreal.1

/-- The angle of three ones with themselves is not real: their cosine is a little more than one. -/
theorem angle_leaves_reals :
    (∀ x ∈ (ofList .row [⟨1, 0⟩, ⟨1, 0⟩, ⟨1, 0⟩] : OrientedVector (Scalar Float)).items,
      x.isFinite = true ∧ x.rank = .real) ∧
    ∃ θ, (ofList .row [⟨1, 0⟩, ⟨1, 0⟩, ⟨1, 0⟩] : OrientedVector (Scalar Float)).angle
      (ofList .row [⟨1, 0⟩, ⟨1, 0⟩, ⟨1, 0⟩]) = .ok θ ∧ θ.rank ≠ .real := by
  obtain ⟨θ, hangle⟩ : ∃ θ, (ofList .row [⟨1, 0⟩, ⟨1, 0⟩, ⟨1, 0⟩] : OrientedVector (Scalar Float)).angle
      (ofList .row [⟨1, 0⟩, ⟨1, 0⟩, ⟨1, 0⟩]) = .ok θ := ⟨_, (angle_eq_ok_iff rfl).2 ⟨by decide +kernel, rfl⟩⟩
  refine ⟨by decide +kernel, θ, hangle, ?_⟩
  exact rank_angle_beyond Binary64.hypotenuse_of_isZero rfl (by decide +kernel) (by decide +kernel) hangle
    (by decide +kernel) (by decide +kernel) (by decide +kernel) (by decide +kernel) (by decide +kernel)

end OrientedVector

end MatrixCalculator
