import Mathlib
import MatrixCalculator.OrientedVector.Norm
import MatrixCalculator.Proofs.Binary64.Library
import MatrixCalculator.Proofs.Binary64.Overflow
import MatrixCalculator.Proofs.Scalar.BranchCut
set_option autoImplicit false

/-!
Which vectors have no direction. The norm squares the entries before it adds them, so that a part whose
square is at most half of the least number counts for nothing. Sums, roots and products lose nothing
more: the norm is zero where every square is lost and nowhere else. A norm out of range is never zero,
and takes the product with another norm out of range.
-/

namespace MatrixCalculator

open Binary64

namespace Scalar

/-- Both parts have a square that is rounded to zero. -/
def Vanishes (x : Scalar Float) : Prop :=
  value x.re ^ 2 ≤ 2 ^ (-1075 : Int) ∧ value x.im ^ 2 ≤ 2 ^ (-1075 : Int)

/-- A sum of squares that is zero where `P` holds. Its imaginary part has cancelled, unless both parts are
out of range. -/
structure VanishesIf (P : Prop) (a : Scalar Float) : Prop where
  re : Binary64.VanishesIf P a.re
  im_of : P → Component.isZero a.im = true
  im : Component.isZero a.im = true ∨ a.im.isFinite = false ∧ a.re.isFinite = false

section Squares

variable {a b x : Scalar Float} {P Q : Prop}

theorem vanishes_of_isZero (h : x.isZero = true) : x.Vanishes := by
  obtain ⟨hre, him⟩ := Bool.and_eq_true_iff.1 h
  exact ⟨value_sq_le_of_isZero hre, value_sq_le_of_isZero him⟩

theorem VanishesIf.add (ha : a.VanishesIf P) (hb : b.VanishesIf Q) : (a + b).VanishesIf (P ∧ Q) where
  re := ha.re.add hb.re
  im_of h := (Component.add_agrees_of_isZero (ha.im_of h.1) b.im).isZero_eq.trans (hb.im_of h.2)
  im := by
    rcases ha.im with hzero | ⟨him, hre⟩
    · rcases hb.im with hzero' | ⟨him, hre⟩
      · exact .inl ((Component.add_agrees_of_isZero hzero b.im).isZero_eq.trans hzero')
      · exact .inr ⟨isFinite_add_right a.im him, isFinite_add_right a.re hre⟩
    · exact .inr ⟨isFinite_add_left him b.im, isFinite_add_left hre b.re⟩

/-- An entry times its conjugate is the sum of the squares of its parts; the mixed products cancel. -/
theorem vanishesIf_mul_conj [Library] (h : x.isFinite = true) : (x * x.conj).VanishesIf x.Vanishes := by
  obtain ⟨hre, him⟩ := Bool.and_eq_true_iff.1 h
  change x.re.isFinite = true at hre
  change x.im.isFinite = true at him
  by_cases hreal : x.isReal = true
  · have hproduct : x * x.conj = ofReal (x.re * x.re) := by
      rw [conj, if_pos hreal]
      exact mul_of_real (by rw [hreal]; rfl)
    rw [hproduct]
    exact ⟨(vanishesIf_square hre).congr (and_iff_left (value_sq_le_of_isZero hreal)).symm,
      fun _ => LawfulNegation.isZero_zero, .inl LawfulNegation.isZero_zero⟩
  · have hproduct : x * x.conj = ⟨x.re * x.re - x.im * -x.im, x.re * -x.im + x.im * x.re⟩ := by
      rw [conj, if_neg hreal]
      exact mul_of_not_real fun hboth => hreal (Bool.and_eq_true_iff.1 hboth).1
    have hsum : Component.Agrees (x.re * x.re - x.im * -x.im) (x.re * x.re + x.im * x.im) := by
      have hturned := (Component.mul_neg_agrees x.im x.im).neg
      rw [LawfulNegation.neg_neg] at hturned
      rw [LawfulSigns.sub_eq_add_neg]
      exact (Component.agrees_refl _).add hturned
    have hmixed : Component.Agrees (x.re * -x.im + x.im * x.re) (-(x.re * x.im) + x.re * x.im) := by
      rw [LawfulSigns.mul_comm x.im x.re]
      exact (Component.mul_neg_agrees x.re x.im).add (Component.agrees_refl _)
    have hcancel (hfinite : (x.re * x.im).isFinite = true) :
        Component.isZero (x.re * -x.im + x.im * x.re) = true := by
      rw [Component.Agrees.isZero_eq hmixed]
      exact isZero_neg_add_self hfinite
    rw [hproduct]
    refine ⟨((vanishesIf_square hre).add (vanishesIf_square him)).of_agrees hsum, fun hv => hcancel ?_, ?_⟩
    · exact ((within_of_square hre hv.1).mul (within_of_square him hv.2) (by decide)).isFinite
    · by_cases hfinite : (x.re * x.im).isFinite = true
      · exact .inl (hcancel hfinite)
      · refine .inr ⟨isFinite_add_right _ ?_, (isFinite_eq_of_agrees hsum).trans ?_⟩
        · rw [LawfulSigns.mul_comm]
          exact Bool.not_eq_true _ ▸ hfinite
        · exact isFinite_sum_of_squares (Bool.not_eq_true _ ▸ hfinite)

/-- What one more entry adds is lost where its squares are. -/
theorem vanishesIf_foldl [Library] {items : List (Scalar Float)} (h : ∀ x ∈ items, x.isFinite = true)
    {acc : Scalar Float} (hacc : acc.VanishesIf P) :
    (items.foldl (fun acc x => acc + x * x.conj) acc).VanishesIf (P ∧ ∀ x ∈ items, x.Vanishes) := by
  induction items generalizing acc P with
  | nil => simpa using hacc
  | cons x items ih =>
    obtain ⟨hx, hitems⟩ := List.forall_mem_cons.1 h
    rw [List.forall_mem_cons, ← and_assoc]
    exact ih hitems (hacc.add (vanishesIf_mul_conj hx))

end Squares

/-- A norm that is zero where `P` holds: otherwise it is well above zero, or both parts are out of range. -/
inductive NormIf (P : Prop) : Scalar Float → Prop where
  | zero (h : P) {r : Float} (hr : Component.isZero r = true) : NormIf P (ofReal r)
  | positive (h : ¬ P) {r : Float} (hr : Reaches (-536) r) : NormIf P (ofReal r)
  | beyond (h : ¬ P) {a : Scalar Float} (hre : a.re.isFinite = false) (him : a.im.isFinite = false) : NormIf P a

section Zeros

variable {P : Prop} {n : Scalar Float}

theorem isZero_ofReal (r : Float) : (ofReal r).isZero = Component.isZero r := by
  rw [isZero, ofReal, LawfulNegation.isZero_zero, Bool.and_true]

theorem ofReal_mul_ofReal (r t : Float) : ofReal r * ofReal t = ofReal (r * t) :=
  mul_of_real (Bool.and_eq_true_iff.2 ⟨isReal_ofReal r, isReal_ofReal t⟩)

theorem not_isZero_of_re (h : n.re.isFinite = false) : ¬ n.isZero = true := fun hzero => by
  rw [isFinite_of_isZero (Bool.and_eq_true_iff.1 hzero).1] at h
  cases h

theorem not_isZero_beyond_mul (hre : n.re.isFinite = false) (him : n.im.isFinite = false) (k : Scalar Float) :
    ¬ (n * k).isZero = true := by
  have hnot : ¬ (n.isReal && k.isReal) = true := fun hboth => by
    rw [isFinite_of_isZero (Bool.and_eq_true_iff.1 hboth).1] at him
    cases him
  rw [mul_of_not_real hnot]
  exact not_isZero_of_re (isFinite_sub_left (isFinite_mul_left hre k.re) _)

theorem NormIf.isZero_iff (hn : NormIf P n) : n.isZero = true ↔ P := by
  cases hn with
  | zero hP hr => exact iff_of_true ((isZero_ofReal _).trans hr) hP
  | positive hP hr => exact iff_of_false (isZero_ofReal _ ▸ hr.not_isZero) hP
  | beyond hP hre _ => exact iff_of_false (not_isZero_of_re hre) hP

end Zeros

section Norms

variable [Library] {P Q : Prop} {a n k : Scalar Float}

theorem sqrt_of_real (hreal : a.isReal = true) (hle : 0 ≤ a.re) : a.sqrt = ofReal (Library.sqrt a.re) := by
  rw [sqrt, if_pos hreal]
  exact if_pos (decide_eq_true hle)

theorem normIf_sqrt [CorrectlyRounded] (ha : a.VanishesIf P) : NormIf P a.sqrt := by
  rcases ha.im with hreal | ⟨him, hre⟩
  · rw [sqrt_of_real hreal ha.re.nonneg, CorrectlyRounded.sqrt_eq]
    cases ha.re with
    | zero hP hre => exact .zero hP (isZero_sqrt hre)
    | reaches hP hre => exact .positive hP (hre.sqrt (by decide))
  · have hnot : ¬ a.isReal = true := fun hreal => by
      rw [isFinite_of_isZero hreal] at him
      cases him
    have htwo : (Component.two : Float).isFinite = true := rfl
    have hroot {r : Float} (hr : r.isFinite = false) : (Library.sqrt (r / Component.two)).isFinite = false := by
      rw [CorrectlyRounded.sqrt_eq]
      exact isFinite_sqrt (isFinite_div_left hr htwo)
    refine .beyond (fun hP => hnot (ha.im_of hP)) ?_ ?_
    · rw [sqrt, if_neg hnot]
      exact hroot (isFinite_add_right a.modulus hre)
    · have hpart := hroot (isFinite_sub_right a.modulus hre)
      rw [sqrt, if_neg hnot]
      dsimp only
      split
      · exact (isFinite_neg _).trans hpart
      · exact hpart

theorem isFinite_ofReal (r : Float) : (ofReal r).isFinite = r.isFinite := by
  have hzero : ElementaryFunctions.isFinite (0 : Float) = true := rfl
  rw [isFinite, ofReal, hzero, Bool.and_true]
  rfl

theorem isFinite_beyond (hre : n.re.isFinite = false) : ¬ n.isFinite = true := fun h => by
  have hfinite : n.re.isFinite = true := (Bool.and_eq_true_iff.1 h).1
  rw [hre] at hfinite
  cases hfinite

theorem NormIf.isZero_zero_mul {r : Float} (hr : Component.isZero r = true) (hk : NormIf Q k) :
    (ofReal r * k).isZero = true ↔ k.isFinite = true := by
  have hreal (t : Float) : (ofReal r * ofReal t).isZero = true ↔ (ofReal t).isFinite = true := by
    rw [ofReal_mul_ofReal, isZero_ofReal, isFinite_ofReal]
    exact isZero_mul_iff_isFinite hr t
  cases hk with
  | zero _ _ => exact hreal _
  | positive _ _ => exact hreal _
  | beyond _ hre him =>
    rw [mul_commute]
    exact iff_of_false (not_isZero_beyond_mul hre him _) (isFinite_beyond hre)

theorem NormIf.isZero_mul_iff (hn : NormIf P n) (hk : NormIf Q k) :
    (n * k).isZero = true ↔ P ∧ k.isFinite = true ∨ Q ∧ n.isFinite = true := by
  have hfinite (hQ : Q) : k.isFinite = true := by
    cases hk with
    | zero _ hr => exact (isFinite_ofReal _).trans (isFinite_of_isZero hr)
    | positive hnot _ => exact absurd hQ hnot
    | beyond hnot _ _ => exact absurd hQ hnot
  cases hn with
  | zero hP hr =>
    rw [hk.isZero_zero_mul hr]
    exact ⟨fun h => .inl ⟨hP, h⟩, fun h => h.elim And.right fun h => hfinite h.1⟩
  | positive hP hr =>
    simp only [hP, false_and, false_or]
    cases hk with
    | zero hQ hr' =>
      rw [mul_commute, (NormIf.positive hP hr).isZero_zero_mul hr']
      exact (and_iff_right hQ).symm
    | positive hQ hr' =>
      rw [ofReal_mul_ofReal, isZero_ofReal]
      exact iff_of_false (hr.mul hr' (by decide)).not_isZero fun h => hQ h.1
    | beyond hQ hre him =>
      rw [mul_commute]
      exact iff_of_false (not_isZero_beyond_mul hre him _) fun h => hQ h.1
  | beyond hP hre him =>
    refine iff_of_false (not_isZero_beyond_mul hre him k) fun h => ?_
    exact h.elim (fun h => hP h.1) fun h => isFinite_beyond hre h.2

end Norms

end Scalar

namespace OrientedVector

theorem angle_eq {β : Type} [ElementaryFunctions β] {v w : OrientedVector (Scalar β)}
    (h : v.length = w.length) :
    v.angle w = if (v.norm * w.norm).isZero = true then .error .zeroNorm
      else .ok (v.dot w / (v.norm * w.norm)).acos :=
  if_pos h

variable {v w : OrientedVector (Scalar Float)}

def Vanishes (v : OrientedVector (Scalar Float)) : Prop := ∀ x ∈ v.items, x.Vanishes

theorem vanishesIf_normSquared [Library] (h : ∀ x ∈ v.items, x.isFinite = true) :
    v.normSquared.VanishesIf v.Vanishes := by
  have hnone := LawfulNegation.isZero_zero (β := Float)
  have hzero : (0 : Scalar Float).VanishesIf True := ⟨.zero trivial hnone, fun _ => hnone, .inl hnone⟩
  have hsum := Scalar.vanishesIf_foldl h hzero
  rwa [true_and] at hsum

section Refusals

variable [Library] [CorrectlyRounded]

theorem normIf_norm (h : ∀ x ∈ v.items, x.isFinite = true) : Scalar.NormIf v.Vanishes v.norm :=
  Scalar.normIf_sqrt (vanishesIf_normSquared h)

/-- Normalization and the angle refuse the vectors whose squares are all lost, and no others; where the
other norm is out of range, the angle does not notice even these. -/
theorem refuses_vanishing (hv : ∀ x ∈ v.items, x.isFinite = true) (hw : ∀ x ∈ w.items, x.isFinite = true)
    (hlength : v.length = w.length) :
    ((∀ x ∈ v.items, x.isZero = true ∨ ¬ x.Vanishes) → (v.Vanishes ↔ ∀ x ∈ v.items, x.isZero = true)) ∧
    (v.unit = .error .zeroNorm ↔ v.Vanishes) ∧
    (¬ v.Vanishes → ∃ u, v.unit = .ok u ∧ u.space = v.space ∧ u.length = v.length) ∧
    (v.angle w = .error .zeroNorm ↔
      v.Vanishes ∧ w.norm.isFinite = true ∨ w.Vanishes ∧ v.norm.isFinite = true) ∧
    (v.angle w ≠ .error .zeroNorm → ∃ θ, v.angle w = .ok θ) := by
  have hnorm := (normIf_norm hv).isZero_iff
  have hnorms := (normIf_norm hv).isZero_mul_iff (normIf_norm hw)
  refine ⟨fun h => ⟨fun hsmall x hx => ?_, fun hzero x hx => ?_⟩, ?_, fun hnot => ?_, ?_, fun hok => ?_⟩
  · exact (h x hx).resolve_right (not_not.2 (hsmall x hx))
  · exact Scalar.vanishes_of_isZero (hzero x hx)
  · rw [← hnorm, unit]
    split <;> simp [*]
  · refine ⟨v.divide v.norm, if_neg fun hzero => hnot (hnorm.1 hzero), rfl, ?_⟩
    exact List.length_map _
  · rw [← hnorms, angle_eq hlength]
    split <;> simp [*]
  · rw [angle_eq hlength] at hok ⊢
    exact ⟨_, if_neg fun hzero => hok (if_pos hzero)⟩

end Refusals

theorem refuses_vanishing_zero :
    (∃ u, (ofList .column [⟨3, 0⟩, ⟨0, 4⟩] : OrientedVector (Scalar Float)).unit = .ok u ∧
      u.space = .column ∧ u.length = 2) ∧
    (ofList .column [⟨3, 0⟩, ⟨0, 4⟩] : OrientedVector (Scalar Float)).angle (zeros .row 2) =
      .error .zeroNorm := by
  obtain ⟨-, -, hunit, hangle, -⟩ := refuses_vanishing
    (v := ofList .column [⟨3, 0⟩, ⟨0, 4⟩]) (w := zeros .row 2) (by decide +kernel) (by decide +kernel) rfl
  have hthree : value (3 : Float) = 3 := by decide +kernel
  have hzeros : ∀ x ∈ (zeros .row 2 : OrientedVector (Scalar Float)).items, x.isZero = true := by
    decide +kernel
  refine ⟨hunit fun h => ?_, hangle.2 (.inr ⟨fun x hx => Scalar.vanishes_of_isZero (hzeros x hx), ?_⟩)⟩
  · have hsquare := (h ⟨3, 0⟩ List.mem_cons_self).1
    rw [hthree] at hsquare
    exact absurd (hsquare.trans (zpow_le_one_of_nonpos₀ one_le_two (by decide))) (by norm_num)
  · decide +kernel

/-- A vector of one small entry has no direction, and a zero vector has an angle with a large one. -/
theorem small_refused :
    ((∀ x ∈ (ofList .row [⟨1e-200, 0⟩] : OrientedVector (Scalar Float)).items,
        x.isFinite = true ∧ x.isZero = false) ∧
      (ofList .row [⟨1e-200, 0⟩] : OrientedVector (Scalar Float)).unit = .error .zeroNorm) ∧
    ((∀ x ∈ (ofList .row [⟨0, 0⟩] : OrientedVector (Scalar Float)).items, x.isZero = true) ∧
      ((ofList .row [⟨0, 0⟩] : OrientedVector (Scalar Float)).angle
        (ofList .row [⟨1e200, 0⟩])).isOk = true) := by
  decide +kernel

end OrientedVector

end MatrixCalculator
