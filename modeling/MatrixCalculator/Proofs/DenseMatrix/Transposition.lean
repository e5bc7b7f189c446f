import Mathlib
import MatrixCalculator.Proofs.Binary64.ZeroSign
import MatrixCalculator.Proofs.Container.RankTracking
set_option autoImplicit false

/-!
Transposition turns a product round. Entry by entry the same terms are added in the same order, with
their factors exchanged; under conjugation as well, each term and each sum agree with their images up
to the sign of zero.
-/

namespace MatrixCalculator.DenseMatrix

section

variable {β : Type} [ElementaryFunctions β] [LawfulNegation β] {m : DenseMatrix (Scalar β)}

theorem WellFormed.get?_conjugated (h : m.WellFormed) (i j : Nat) :
    m.conjugated.get? i j = (m.get? i j).map Scalar.conj := by
  have htracks := h.family.tracksRank LawfulNegation.isZero_zero
  rw [get?_eq_lists, lists_conjugated htracks, get?_eq_lists, List.getElem?_map]
  cases m.lists[i]? with
  | none => rfl
  | some row => exact List.getElem?_map

theorem WellFormed.get?_conjTransposed (h : m.WellFormed) (i j : Nat) :
    m.conjTransposed.get? j i = (m.get? i j).map Scalar.conj := by
  rw [DenseMatrix.conjTransposed, h.conjugated.hasShape.get?_transposed, h.get?_conjugated]

theorem WellFormed.cell_conjTransposed (h : m.WellFormed) (i j : Nat) :
    m.conjTransposed.cell j i = (m.cell i j).conj := by
  rw [cell, h.get?_conjTransposed, cell]
  cases m.get? i j with
  | none => exact Scalar.conj_zero.symm
  | some x => rfl

end

variable {β : Type} [ElementaryFunctions β] [LawfulSigns β] {a b m : DenseMatrix (Scalar β)}

/-- Transposing exchanges the factors and the places of the terms, nothing else. -/
theorem HasShape.mul_transposed {rows inner cols : Nat} (ha : a.HasShape ⟨rows, inner⟩)
    (hb : b.HasShape ⟨inner, cols⟩) :
    ∃ c, a.mul b = .ok c ∧ b.transposed.mul a.transposed = .ok c.transposed := by
  have hproduct : a.mul b = .ok (ofFn rows cols fun i j => sum inner fun k => a.cell i k * b.cell k j) :=
    mul_of_shape_eq ha hb rfl
  have hdual : b.transposed.mul a.transposed =
      .ok (ofFn cols rows fun i j => sum inner fun k => b.cell k i * a.cell j k) :=
    mul_of_cells hb.transposed ha.transposed (fun i _ k _ => hb.cell_transposed k i)
      fun k _ j _ => ha.cell_transposed j k
  refine ⟨_, hproduct, ?_⟩
  rw [hdual, HasShape.transposed_eq (s := ⟨rows, cols⟩) (hasShape_ofFn ..)]
  refine congrArg _ (ofFn_congr fun i hi j hj => ?_)
  rw [cell_ofFn hj hi]
  exact sum_congr fun k _ => Scalar.mul_commute _ _

theorem conj_sum_agrees {n : Nat} {f g : Nat → Scalar β} (h : ∀ k < n, (f k).conj.Agrees (g k)) :
    (sum n f).conj.Agrees (sum n g) := by
  refine sum_rel (R := fun x y : Scalar β => x.conj.Agrees y) ?_ (fun hx hy => ?_) h
  · rw [Scalar.conj_zero]
    exact Scalar.agrees_refl 0
  · exact (Scalar.conj_add_agrees _ _).trans (hx.add hy)

theorem WellFormed.mul_conjTransposed {rows inner cols : Nat} (ha : a.WellFormed) (hb : b.WellFormed)
    (has : a.HasShape ⟨rows, inner⟩) (hbs : b.HasShape ⟨inner, cols⟩) :
    ∃ c e, a.mul b = .ok c ∧ b.conjTransposed.mul a.conjTransposed = .ok e ∧
      c.conjTransposed.Alike Scalar.Agrees e := by
  have hproduct : a.mul b = .ok (ofFn rows cols fun i j => sum inner fun k => a.cell i k * b.cell k j) :=
    mul_of_shape_eq has hbs rfl
  have hdual : b.conjTransposed.mul a.conjTransposed =
      .ok (ofFn cols rows fun i j => sum inner fun k => (b.cell k i).conj * (a.cell j k).conj) :=
    mul_of_cells hbs.conjTransposed has.conjTransposed (fun i _ k _ => hb.cell_conjTransposed k i)
      fun k _ j _ => ha.cell_conjTransposed j k
  refine ⟨_, _, hproduct, hdual, ?_⟩
  refine HasShape.alike (s := ⟨cols, rows⟩) (hasShape_ofFn rows cols _).conjTransposed (hasShape_ofFn ..)
    fun i hi j hj => ?_
  rw [(wellFormed_ofFn ..).cell_conjTransposed, cell_ofFn hj hi, cell_ofFn hi hj]
  refine conj_sum_agrees fun k _ => ?_
  rw [Scalar.mul_commute (b.cell k i).conj]
  exact Scalar.conj_mul_agrees _ _

/-- Transposing and conjugate transposing move the entries across the diagonal, undo themselves and
turn products round, the latter up to the sign of zero. Matrices without rows or without columns keep
their lengths throughout. -/
theorem transposition_reverses_products :
    (∀ m : DenseMatrix (Scalar β), m.WellFormed →
      m.transposed.shape = ⟨m.colCount, m.rowCount⟩ ∧ m.conjTransposed.shape = ⟨m.colCount, m.rowCount⟩ ∧
      (∀ i j, m.transposed.get? j i = m.get? i j ∧
        m.conjTransposed.get? j i = (m.get? i j).map Scalar.conj) ∧
      m.transposed.transposed.Alike (· = ·) m ∧ m.conjTransposed.conjTransposed.Alike (· = ·) m) ∧
    ∀ a b : DenseMatrix (Scalar β), a.WellFormed → b.WellFormed → a.colCount = b.rowCount →
      ∃ c d e, a.mul b = .ok c ∧ b.transposed.mul a.transposed = .ok d ∧
        c.transposed.Alike (· = ·) d ∧ b.conjTransposed.mul a.conjTransposed = .ok e ∧
        c.conjTransposed.Alike Scalar.Agrees e := by
  refine ⟨fun m hm => ?_, fun a b ha hb h => ?_⟩
  · have hshape := hm.hasShape
    refine ⟨hshape.transposed.shape_eq, hshape.conjTransposed.shape_eq, fun i j =>
      ⟨hshape.get?_transposed i j, hm.get?_conjTransposed i j⟩, ?_, ?_⟩
    · refine alike_of_get?_eq hshape.transposed.transposed.shape_eq fun i j => ?_
      rw [hshape.transposed.get?_transposed, hshape.get?_transposed]
    · refine alike_of_get?_eq hshape.conjTransposed.conjTransposed.shape_eq fun i j => ?_
      rw [hm.conjTransposed.get?_conjTransposed, hm.get?_conjTransposed, Option.map_map]
      cases m.get? i j with
      | none => rfl
      | some x => exact congrArg some x.conj_conj
  · have hbshape : b.HasShape ⟨a.colCount, b.colCount⟩ := h ▸ hb.hasShape
    obtain ⟨c, hc, hd⟩ := ha.hasShape.mul_transposed hbshape
    obtain ⟨c', e, hc', he, halike⟩ := ha.mul_conjTransposed hb ha.hasShape hbshape
    cases hc.symm.trans hc'
    exact ⟨c, _, e, hc, hd, alike_self _, he, halike⟩

theorem transposition_reverses_products_imaginary :
    (∃ c e : DenseMatrix (Scalar Float),
      (ofFn 1 2 fun _ _ => .i).mul (ofFn 2 1 fun _ _ => .i) = .ok c ∧
      (ofFn 2 1 fun _ _ => .i).conjTransposed.mul (ofFn 1 2 fun _ _ => .i).conjTransposed = .ok e ∧
      c.conjTransposed.Alike Scalar.Agrees e) ∧
    ∃ c d : DenseMatrix (Scalar Float), (zeros 2 0).mul (zeros 0 3) = .ok c ∧
      (zeros 0 3).transposed.mul (zeros 2 0).transposed = .ok d ∧ c.transposed.Alike (· = ·) d := by
  have hreverses := (transposition_reverses_products (β := Float)).2
  obtain ⟨c, -, e, hc, -, -, he, halike⟩ := hreverses (ofFn 1 2 fun _ _ => .i) (ofFn 2 1 fun _ _ => .i)
    (wellFormed_ofFn ..) (wellFormed_ofFn ..) rfl
  obtain ⟨c', d, -, hc', hd, halike', -⟩ := hreverses (zeros 2 0) (zeros 0 3) (wellFormed_zeros 2 0)
    (wellFormed_zeros 0 3) rfl
  exact ⟨⟨c, e, hc, he, halike⟩, c', d, hc', hd, halike'⟩

end MatrixCalculator.DenseMatrix
