import Mathlib
import MatrixCalculator.Proofs.Binary64.ZeroSign
import MatrixCalculator.Proofs.DenseMatrix.WellFormed
set_option autoImplicit false

/-!
Every product is the product of matrices, once a row is read as a matrix of one row and a column as
a matrix of one column. All of them add the same terms in the same order; only the outer product has
nothing to add, and so leaves out the zero that sums start from.
-/

namespace MatrixCalculator

variable {α : Type} [Entry α]

def OrientedVector.asMatrix (v : OrientedVector α) : DenseMatrix α :=
  match v.space with
  | .row => .ofFn 1 v.length fun _ j => v.items.getD j 0
  | .column => .ofFn v.length 1 fun i _ => v.items.getD i 0

namespace OrientedVector

variable {v w : OrientedVector α} {n : Nat}

theorem asMatrix_of_row (h : v.space = .row) :
    v.asMatrix = .ofFn 1 v.length fun _ j => v.items.getD j 0 := by
  rw [asMatrix, h]

theorem asMatrix_of_column (h : v.space = .column) :
    v.asMatrix = .ofFn v.length 1 fun i _ => v.items.getD i 0 := by
  rw [asMatrix, h]

theorem shape_asMatrix (v : OrientedVector α) : v.asMatrix.shape = v.shape := by
  cases h : v.space with
  | row => rw [asMatrix_of_row h, DenseMatrix.shape_ofFn, shape, h]
  | column => rw [asMatrix_of_column h, DenseMatrix.shape_ofFn, shape, h]

theorem dot_eq_sum (hv : v.length = n) (hw : w.length = n) :
    v.dot w = DenseMatrix.sum n fun k => v.items.getD k 0 * w.items.getD k 0 := by
  have hv : v.items.length = n := hv
  have hw : w.items.length = n := hw
  have hzip : v.items.zip w.items = (List.range n).map fun k => (v.items.getD k 0, w.items.getD k 0) := by
    refine List.ext_getElem (by simp [hv, hw]) fun k hk _ => ?_
    have hkn : k < n := by simpa [hv, hw] using hk
    simp [hkn, hv, hw]
  rw [dot, hzip, List.foldl_map]
  rfl

end OrientedVector

namespace DenseMatrix

def single (x : α) : DenseMatrix α := ofFn 1 1 fun _ _ => x

/-- A product is given for exactly the accepted operands, and is then the product of the operands
read as matrices, up to a relation of entries; otherwise it is refused with both shapes. -/
structure FollowsMul {σ : Type} (R : α → α → Prop) (accepted : Prop) (operation : Operation)
    (read : σ → DenseMatrix α) (a b : DenseMatrix α) (product : Except Error σ) : Prop where
  given : accepted → ∃ p c, product = .ok p ∧ a.mul b = .ok c ∧ (read p).Alike R c
  refused : ¬ accepted → product = .error (.dimensionMismatch operation a.shape b.shape)

variable {m : DenseMatrix α} {v w : OrientedVector α}

theorem mul_row_column (hv : v.space = .row) (hw : w.space = .column) (hlength : v.length = w.length) :
    v.asMatrix.mul w.asMatrix = .ok (single (v.dot w)) := by
  rw [OrientedVector.asMatrix_of_row hv, OrientedVector.asMatrix_of_column hw, hlength,
    OrientedVector.dot_eq_sum hlength rfl]
  exact mul_of_cells (hasShape_ofFn ..) (hasShape_ofFn ..) (fun i hi k hk => cell_ofFn hi hk)
    fun k hk j hj => cell_ofFn hk hj

/-- Column times row adds each term to zero. -/
theorem mul_column_row (hv : v.space = .column) (hw : w.space = .row) :
    v.asMatrix.mul w.asMatrix =
      .ok (ofFn v.length w.length fun i j => 0 + v.items.getD i 0 * w.items.getD j 0) := by
  rw [OrientedVector.asMatrix_of_column hv, OrientedVector.asMatrix_of_row hw]
  exact mul_of_cells (hasShape_ofFn ..) (hasShape_ofFn ..) (fun i hi k hk => cell_ofFn hi hk)
    fun k hk j hj => cell_ofFn hk hj

theorem asMatrix_ofList_column (n : Nat) (f : Nat → α) :
    (OrientedVector.ofList .column ((List.range n).map f)).asMatrix = ofFn n 1 fun i _ => f i := by
  rw [OrientedVector.asMatrix_of_column rfl, OrientedVector.length_ofList, List.length_map,
    List.length_range]
  refine ofFn_congr fun i hi j _ => ?_
  change ((List.range n).map f).getD i 0 = f i
  simp [hi]

theorem asMatrix_ofList_row (n : Nat) (f : Nat → α) :
    (OrientedVector.ofList .row ((List.range n).map f)).asMatrix = ofFn 1 n fun _ j => f j := by
  rw [OrientedVector.asMatrix_of_row rfl, OrientedVector.length_ofList, List.length_map,
    List.length_range]
  refine ofFn_congr fun i _ j hj => ?_
  change ((List.range n).map f).getD j 0 = f j
  simp [hj]

theorem Regular.mul_column (hm : m.Regular) (hv : v.space = .column) (hlength : v.length = m.colCount) :
    ∃ p, m.mulColumn v = .ok p ∧ m.mul v.asMatrix = .ok p.asMatrix := by
  refine ⟨_, mulColumn_of_length_eq hm.hasShape hv hlength, ?_⟩
  rw [asMatrix_ofList_column, OrientedVector.asMatrix_of_column hv, hlength]
  exact mul_of_cells hm.hasShape (hasShape_ofFn ..) (fun _ _ _ _ => rfl) fun k hk j hj => cell_ofFn hk hj

theorem Regular.row_mul (hm : m.Regular) (hv : v.space = .row) (hlength : v.length = m.rowCount) :
    ∃ p, rowMul v m = .ok p ∧ v.asMatrix.mul m = .ok p.asMatrix := by
  refine ⟨_, rowMul_of_length_eq hm.hasShape hv hlength, ?_⟩
  rw [asMatrix_ofList_row, OrientedVector.asMatrix_of_row hv, hlength]
  exact mul_of_cells (hasShape_ofFn ..) hm.hasShape (fun i hi k hk => cell_ofFn hi hk) fun _ _ _ _ => rfl

/-- The products of two vectors, and of a matrix and a vector on either side, are products of
matrices and are refused only for their orientation or their lengths. Inner sums are the same sums;
the outer product agrees up to the sign of zero. -/
theorem products_follow_mul {β : Type} [ElementaryFunctions β] [LawfulZero β] :
    (∀ v w : OrientedVector (Scalar β),
      FollowsMul (· = ·) (v.space = .row ∧ w.space = .column ∧ v.length = w.length) .innerProduct
        single v.asMatrix w.asMatrix (v.inner w) ∧
      FollowsMul Scalar.Agrees (v.space = .column ∧ w.space = .row) .outerProduct id
        v.asMatrix w.asMatrix (outer v w)) ∧
    ∀ m : DenseMatrix (Scalar β), m.WellFormed → ∀ v : OrientedVector (Scalar β),
      FollowsMul (· = ·) (v.space = .column ∧ v.length = m.colCount) .matrixVectorProduct
        OrientedVector.asMatrix m v.asMatrix (m.mulColumn v) ∧
      FollowsMul (· = ·) (v.space = .row ∧ v.length = m.rowCount) .vectorMatrixProduct
        OrientedVector.asMatrix v.asMatrix m (rowMul v m) := by
  refine ⟨fun v w => ⟨⟨fun h => ?_, fun h => ?_⟩, ⟨fun h => ?_, fun h => ?_⟩⟩,
    fun m hm v => ⟨⟨fun h => ?_, fun h => ?_⟩, ⟨fun h => ?_, fun h => ?_⟩⟩⟩
  · have hinner : v.inner w = .ok (v.dot w) := by rw [OrientedVector.inner, if_pos h]
    exact ⟨_, _, hinner, mul_row_column h.1 h.2.1 h.2.2, alike_self _⟩
  · rw [OrientedVector.inner, if_neg h, v.shape_asMatrix, w.shape_asMatrix]
  · refine ⟨_, _, outer_eq h.1 h.2, mul_column_row h.1 h.2, ?_⟩
    refine (hasShape_ofFn ..).alike (hasShape_ofFn ..) fun i hi j hj => ?_
    rw [cell_ofFn hi hj, cell_ofFn hi hj]
    exact (Scalar.zero_add_agrees _).symm
  · rw [outer, if_neg h, v.shape_asMatrix, w.shape_asMatrix]
  · obtain ⟨p, hp, hmul⟩ := hm.regular.mul_column h.1 h.2
    exact ⟨p, _, hp, hmul, alike_self _⟩
  · rw [mulColumn, if_neg h, v.shape_asMatrix]
  · obtain ⟨p, hp, hmul⟩ := hm.regular.row_mul h.1 h.2
    exact ⟨p, _, hp, hmul, alike_self _⟩
  · rw [rowMul, if_neg h, v.shape_asMatrix]

/-- A negative zero of the outer product is positive in the product of matrices; and a matrix
without rows takes a column to the column without entries. -/
theorem products_follow_mul_signed :
    (∃ p c, outer (.ofList .column [⟨-1, 0⟩]) (.ofList .row [(0 : Scalar Float)]) = .ok p ∧
      (OrientedVector.ofList .column [⟨-1, 0⟩]).asMatrix.mul
        (OrientedVector.ofList .row [(0 : Scalar Float)]).asMatrix = .ok c ∧
      p.Alike Scalar.Agrees c ∧ p.get? 0 0 ≠ c.get? 0 0) ∧
    ∃ p c, (zeros 0 2).mulColumn (.zeros .column 2) = .ok p ∧
      (zeros 0 2 : DenseMatrix (Scalar Float)).mul (OrientedVector.zeros .column 2).asMatrix = .ok c ∧
      p.asMatrix.Alike (· = ·) c := by
  obtain ⟨hvectors, hmatrix⟩ := products_follow_mul (β := Float)
  constructor
  · have houter := (hvectors (.ofList .column [⟨-1, 0⟩]) (.ofList .row [0])).2
    obtain ⟨p, c, hp, hc, halike⟩ := houter.given ⟨rfl, rfl⟩
    refine ⟨p, c, hp, hc, halike, ?_⟩
    cases hp
    cases hc
    intro hsame
    have hbits := congrArg (Option.map (·.re.toBits)) hsame
    revert hbits
    decide
  · exact ((hmatrix (zeros 0 2) (wellFormed_zeros 0 2) (.zeros .column 2)).1).given ⟨rfl, rfl⟩

end DenseMatrix

end MatrixCalculator
