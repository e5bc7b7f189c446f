import Mathlib
import MatrixCalculator.Entry
set_option autoImplicit false

/-!
Exact entries. Where the operations on entries are those of a ring or a field, laws of the algebra
hold that rounding breaks. Scalars over exact components are such entries: the shorter paths for real
operands only leave out terms that are zero, and what is left is the arithmetic of complex numbers.
-/

namespace MatrixCalculator

class RingEntry (α : Type) extends CommRing α, Entry α where
  isZero_iff (x : α) : Entry.isZero x = true ↔ x = 0
  rank_zero : Entry.rank (0 : α) = .real
  rank_one : Entry.rank (1 : α) = .real

class FieldEntry (α : Type) extends RingEntry α, Field α

namespace Entry

variable {α : Type} [RingEntry α]

theorem isZero_iff (x : α) : isZero x = true ↔ x = 0 := RingEntry.isZero_iff x

theorem rank_zero : rank (0 : α) = .real := RingEntry.rank_zero

theorem rank_one : rank (1 : α) = .real := RingEntry.rank_one

end Entry

/-- Entries are compared by a modulus in a linear order, which is least at zero and only there. -/
structure ComparedBy {α L : Type} [FieldEntry α] [LinearOrder L] (modulus : α → L) : Prop where
  compareModulus_eq (x y : α) : Entry.compareModulus x y = some (compare (modulus x) (modulus y))
  lt_of_ne_zero {x : α} : x ≠ 0 → modulus 0 < modulus x

/-- Components that are the numbers of a field in which squares add up to zero only as zeros do. -/
class ExactComponent (β : Type) extends Field β, Component β where
  same_iff (x y : β) : Component.same x y = true ↔ x = y
  eq_zero_of_squares {x y : β} : x * x + y * y = 0 → x = 0

/-- Such components with functions of which nothing is asked. -/
class ExactFunctions (β : Type) extends ElementaryFunctions β, ExactComponent β

class OrderedFunctions (β : Type) [ExactFunctions β] [LinearOrder β] : Prop where
  lt_iff (x y : β) : ElementaryFunctions.lt x y = true ↔ x < y
  abs_zero : ElementaryFunctions.abs (0 : β) = 0
  abs_pos {x : β} : x ≠ 0 → 0 < ElementaryFunctions.abs x
  hypot_pos {x y : β} : y ≠ 0 → 0 < ElementaryFunctions.hypot x y

namespace Scalar

@[ext] theorem ext {β : Type} {a b : Scalar β} (hre : a.re = b.re) (him : a.im = b.im) : a = b := by
  cases a
  cases b
  cases hre
  cases him
  rfl

section

variable {β : Type} [Component β]

@[simp] theorem zero_re : (0 : Scalar β).re = 0 := rfl
@[simp] theorem zero_im : (0 : Scalar β).im = 0 := rfl
@[simp] theorem one_re : (1 : Scalar β).re = 1 := rfl
@[simp] theorem one_im : (1 : Scalar β).im = 0 := rfl
@[simp] theorem add_re (a b : Scalar β) : (a + b).re = a.re + b.re := rfl
@[simp] theorem add_im (a b : Scalar β) : (a + b).im = a.im + b.im := rfl
@[simp] theorem sub_re (a b : Scalar β) : (a - b).re = a.re - b.re := rfl
@[simp] theorem sub_im (a b : Scalar β) : (a - b).im = a.im - b.im := rfl
@[simp] theorem neg_re (a : Scalar β) : (-a).re = -a.re := rfl
@[simp] theorem neg_im (a : Scalar β) : (-a).im = -a.im := rfl

end

section

variable {β : Type} [ExactComponent β]

theorem isReal_iff (a : Scalar β) : a.isReal = true ↔ a.im = 0 := ExactComponent.same_iff a.im 0

theorem isZero_iff (a : Scalar β) : a.isZero = true ↔ a = 0 := by
  have hre : Component.isZero a.re = true ↔ a.re = 0 := ExactComponent.same_iff a.re 0
  have him : Component.isZero a.im = true ↔ a.im = 0 := ExactComponent.same_iff a.im 0
  rw [isZero, Bool.and_eq_true_iff, hre, him]
  constructor
  · rintro ⟨hre, him⟩
    exact ext hre him
  · rintro rfl
    exact ⟨rfl, rfl⟩

theorem mul_eq (a b : Scalar β) :
    a * b = ⟨a.re * b.re - a.im * b.im, a.re * b.im + a.im * b.re⟩ := by
  change mul a b = _
  unfold mul
  split
  · next h =>
    rw [Bool.and_eq_true_iff, isReal_iff, isReal_iff] at h
    simp [ofReal, h]
  · rfl

@[simp] theorem mul_re (a b : Scalar β) : (a * b).re = a.re * b.re - a.im * b.im := by rw [mul_eq]

@[simp] theorem mul_im (a b : Scalar β) : (a * b).im = a.re * b.im + a.im * b.re := by rw [mul_eq]

def normSq (a : Scalar β) : β := a.re * a.re + a.im * a.im

theorem normSq_ne_zero {a : Scalar β} (h : a ≠ 0) : a.normSq ≠ 0 := by
  intro hn
  have hre : a.re = 0 := ExactComponent.eq_zero_of_squares hn
  have him : a.im = 0 := ExactComponent.eq_zero_of_squares ((add_comm _ _).trans hn)
  exact h (ext hre him)

instance : Inv (Scalar β) := ⟨fun a => ⟨a.re / a.normSq, -a.im / a.normSq⟩⟩

@[simp] theorem inv_re (a : Scalar β) : a⁻¹.re = a.re / a.normSq := rfl
@[simp] theorem inv_im (a : Scalar β) : a⁻¹.im = -a.im / a.normSq := rfl

theorem div_eq_mul_inv (a b : Scalar β) : a / b = a * b⁻¹ := by
  change div a b = _
  unfold div
  split
  · next h =>
    rw [isReal_iff] at h
    by_cases hb : b.re = 0
    · ext <;> simp [h, hb, normSq]
    · ext <;> simp [h, normSq] <;> field_simp
  · ext
    · simp only [mul_re, inv_re, inv_im, normSq]
      ring
    · simp only [mul_im, inv_re, inv_im, normSq]
      ring

instance : CommRing (Scalar β) where
  add_assoc a b c := by ext <;> simp [add_assoc]
  zero_add a := by ext <;> simp
  add_zero a := by ext <;> simp
  add_comm a b := by ext <;> simp [add_comm]
  neg_add_cancel a := by ext <;> simp
  sub_eq_add_neg a b := by ext <;> simp [sub_eq_add_neg]
  mul_assoc a b c := by ext <;> simp <;> ring
  one_mul a := by ext <;> simp
  mul_one a := by ext <;> simp
  zero_mul a := by ext <;> simp
  mul_zero a := by ext <;> simp
  left_distrib a b c := by ext <;> simp <;> ring
  right_distrib a b c := by ext <;> simp <;> ring
  mul_comm a b := by ext <;> simp <;> ring
  nsmul := nsmulRec
  zsmul := zsmulRec

instance : Field (Scalar β) where
  div_eq_mul_inv := div_eq_mul_inv
  exists_pair_ne := ⟨0, 1, fun h => zero_ne_one (congrArg re h)⟩
  mul_inv_cancel a h := by
    have hn := normSq_ne_zero h
    ext
    · simp only [mul_re, inv_re, inv_im, one_re]
      field_simp
      simp only [normSq]
      ring
    · simp only [mul_im, inv_re, inv_im, one_im]
      ring
  inv_zero := by ext <;> simp [normSq]
  nnqsmul := _
  qsmul := _

end

section

variable {β : Type} [ExactFunctions β]

instance : FieldEntry (Scalar β) where
  isZero_iff := isZero_iff
  rank_zero := rank_eq_real.2 ((isReal_iff 0).2 rfl)
  rank_one := rank_eq_real.2 ((isReal_iff 1).2 rfl)

-- The field has the operations that calculations use.
example : (RingEntry.toEntry : Entry (Scalar β)) = inferInstanceAs (Entry (Scalar β)) := rfl

variable [LinearOrder β] [OrderedFunctions β]

theorem modulus_pos {a : Scalar β} (h : a ≠ 0) : 0 < a.modulus := by
  unfold modulus
  split
  · next hreal =>
    rw [isReal_iff] at hreal
    exact OrderedFunctions.abs_pos fun hre => h (ext hre hreal)
  · next hreal => exact OrderedFunctions.hypot_pos fun him => hreal ((isReal_iff a).2 him)

theorem modulus_zero : (0 : Scalar β).modulus = 0 := by
  rw [modulus, if_pos ((isReal_iff 0).2 rfl)]
  exact OrderedFunctions.abs_zero

theorem comparedBy_modulus : ComparedBy (modulus : Scalar β → β) where
  compareModulus_eq a b := by
    change ElementaryFunctions.compare a.modulus b.modulus = _
    unfold ElementaryFunctions.compare
    have hsame : Component.same a.modulus b.modulus = true ↔ a.modulus = b.modulus :=
      ExactComponent.same_iff _ _
    simp only [OrderedFunctions.lt_iff, hsame]
    rcases lt_trichotomy a.modulus b.modulus with h | h | h
    · rw [if_pos h, compare_lt_iff_lt.2 h]
    · rw [if_neg h.not_lt, if_neg h.not_gt, if_pos h, compare_eq_iff_eq.2 h]
    · rw [if_neg h.not_gt, if_pos h, compare_gt_iff_gt.2 h]
  lt_of_ne_zero h := by
    rw [modulus_zero]
    exact modulus_pos h

end

end Scalar

open Classical in
/-- The real numbers, with the functions that the approximations are of. There is no infinite number
among them; as in division by zero, zero stands in its place. -/
noncomputable instance : ExactFunctions ℝ where
  __ := (inferInstance : Field ℝ)
  same x y := decide (x = y)
  lt x y := decide (x < y)
  le x y := decide (x ≤ y)
  isFinite _ := true
  ofInt n := n
  truncated x := if 0 ≤ x then ⌊x⌋ else ⌈x⌉
  wholePart x := max Int64.minValue.toInt (min Int64.maxValue.toInt (if 0 ≤ x then ⌊x⌋ else ⌈x⌉))
  pi := Real.pi
  infinity := 0
  abs x := |x|
  sqrt := Real.sqrt
  exp := Real.exp
  ln := Real.log
  sin := Real.sin
  cos := Real.cos
  tan := Real.tan
  asin := Real.arcsin
  acos := Real.arccos
  atan := Real.arctan
  sinh := Real.sinh
  cosh := Real.cosh
  tanh := Real.tanh
  asinh := Real.arsinh
  acosh := Real.arcosh
  atanh := Real.artanh
  atan2 y x := Complex.arg ⟨x, y⟩
  hypot x y := √(x * x + y * y)
  pow x y := x ^ y
  same_iff _ _ := decide_eq_true_iff
  eq_zero_of_squares h := (mul_self_add_mul_self_eq_zero.1 h).1

instance : OrderedFunctions ℝ where
  lt_iff _ _ := decide_eq_true_iff
  abs_zero := abs_zero
  abs_pos h := abs_pos.2 h
  hypot_pos {x _} h := Real.sqrt_pos.2 (add_pos_of_nonneg_of_pos (mul_self_nonneg x) (mul_self_pos.2 h))

end MatrixCalculator
