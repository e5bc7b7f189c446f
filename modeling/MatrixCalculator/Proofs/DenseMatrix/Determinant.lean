import Mathlib
import MatrixCalculator.Proofs.DenseMatrix.Grid
set_option autoImplicit false

/-!
The determinant by cofactors is the alternating sum over all permutations. Each minor is the grid
without the first row and one column, so that the recursion is the expansion of the determinant along
its first row; a cofactor that is passed over would have been multiplied by zero.
-/

namespace MatrixCalculator.DenseMatrix

open Equiv (Perm swap swap_apply_def)

theorem skip_eq_succAbove {n : Nat} (j : Fin (n + 1)) (l : Fin n) : skip j l = (j.succAbove l : Nat) := by
  unfold skip Fin.succAbove
  simp only [Fin.lt_def, Fin.val_castSucc]
  split <;> rfl

variable {α : Type} [RingEntry α] {n : Nat} {m : DenseMatrix α}

theorem grid_minor (m : DenseMatrix α) (j : Fin (n + 1)) :
    (ofFn n n fun i l => m.cell (skip 0 i) (skip j l)).grid n n =
      (m.grid (n + 1) (n + 1)).submatrix Fin.succ j.succAbove := by
  ext i l
  have hrow : skip 0 i = i.succ := skip_eq_succAbove 0 i
  simp only [grid, Matrix.of_apply, Matrix.submatrix_apply, cell_ofFn i.isLt l.isLt, hrow,
    skip_eq_succAbove]

def cofactorTerm (m : DenseMatrix α) (n j : Nat) : α :=
  (-1) ^ j * m.cell 0 j * ((ofFn n n fun i l => m.cell (skip 0 i) (skip j l)).grid n n).det

theorem sum_cofactorTerm (m : DenseMatrix α) (n : Nat) :
    sum (n + 1) (m.cofactorTerm n) = (m.grid (n + 1) (n + 1)).det := by
  rw [sum_eq, Matrix.det_succ_row_zero]
  refine Finset.sum_congr rfl fun j _ => ?_
  rw [cofactorTerm, grid_minor]
  rfl

/-- Whatever the pivot, the step for column `j` adds the term of that column. -/
theorem cofactor_step {acc pivot cofactor : α} (j : Nat) :
    (if Entry.isZero pivot then acc
      else if j % 2 = 0 then acc + pivot * cofactor else acc - pivot * cofactor) =
      acc + (-1) ^ j * pivot * cofactor := by
  by_cases hzero : Entry.isZero pivot = true
  · rw [if_pos hzero, (Entry.isZero_iff pivot).1 hzero]
    ring
  · rw [if_neg hzero]
    split
    · next heven =>
      rw [(Nat.even_iff.2 heven).neg_one_pow]
      ring
    · next hodd =>
      rw [(Nat.odd_iff.2 (Nat.mod_two_ne_zero.1 hodd)).neg_one_pow]
      ring

theorem cofactorDet_eq : ∀ (n : Nat) {m : DenseMatrix α}, m.HasShape ⟨n, n⟩ →
    cofactorDet n m = .ok (m.grid n n).det
  | 0, m, _ => by rw [cofactorDet, Matrix.det_fin_zero]
  | 1, m, h => by
    rw [cofactorDet, h.entry_eq_cell Nat.one_pos Nat.one_pos, Matrix.det_fin_one]
    rfl
  | 2, m, h => by
    have hread {i j : Nat} (hi : i < 2) (hj : j < 2) : m.entry i j = .ok (m.cell i j) :=
      h.entry_eq_cell hi hj
    simp only [cofactorDet, hread Nat.two_pos Nat.two_pos, hread Nat.two_pos Nat.one_lt_two,
      hread Nat.one_lt_two Nat.two_pos, hread Nat.one_lt_two Nat.one_lt_two, bind, Except.bind]
    rw [Matrix.det_fin_two]
    rfl
  | n + 3, m, h => by
    rw [cofactorDet, ← sum_cofactorTerm]
    refine foldlM_of_ok (fun acc j hj => ?_) 0
    rw [h.entry_eq_cell (Nat.succ_pos _) (List.mem_range.1 hj), h.minor_eq 0 j]
    have hminor : cofactorDet (n + 2) (ofFn (n + 2) (n + 2) fun i l => m.cell (skip 0 i) (skip j l)) = _ :=
      cofactorDet_eq (n + 2) (hasShape_ofFn ..)
    rw [cofactorTerm, ← cofactor_step, apply_ite Except.ok]
    simp only [bind, Except.bind, pure, Except.pure, Nat.add_one_sub_one, hminor]

theorem HasShape.det_eq (h : m.HasShape ⟨n, n⟩) : m.det = .ok (m.grid n n).det := by
  rw [det, h.requireSquare_eq, h.rowCount_eq]
  exact cofactorDet_eq n h

theorem det_of_not_square (h : m.rowCount ≠ m.colCount) :
    m.det = .error (.notSquare .determinant m.shape) := by
  simp [det, requireSquare, isSquare, h, bind, Except.bind]

/-- The determinant of a square matrix is the sum of the signed products along all permutations; a
matrix that is not square has none. -/
theorem det_eq_sum_perm (h : m.WellFormed) :
    (∀ n, m.shape = ⟨n, n⟩ →
      m.det = .ok (∑ s : Perm (Fin n), (Perm.sign s : ℤ) * ∏ i : Fin n, m.cell i (s i))) ∧
    (m.rowCount ≠ m.colCount → m.det = .error (.notSquare .determinant m.shape)) := by
  refine ⟨fun n hn => ?_, det_of_not_square⟩
  rw [(HasShape.mk h.regular hn).det_eq, ← Matrix.det_transpose, Matrix.det_apply']
  rfl

/-- Imaginary units everywhere but on the diagonal, so that the first pivot is zero. -/
noncomputable def hollow : DenseMatrix (Scalar ℝ) := ofFn 3 3 fun i j => if i = j then 0 else Scalar.i

theorem cell_hollow (i j : Fin 3) : hollow.cell i j = if i = j then 0 else Scalar.i := by
  rw [hollow, cell_ofFn i.isLt j.isLt]
  simp only [Fin.ext_iff]

/-- Only the two rotations avoid the diagonal. -/
theorem det_eq_sum_perm_hollow : hollow.WellFormed ∧ hollow.det = .ok ⟨0, -2⟩ := by
  have hwellFormed : hollow.WellFormed := wellFormed_ofFn ..
  have hperms : (Finset.univ : Finset (Perm (Fin 3))) =
      {1, swap 0 1, swap 0 2, swap 1 2, swap 0 1 * swap 1 2, swap 0 2 * swap 1 2} := by decide
  have hcube : Scalar.i * Scalar.i * Scalar.i = (⟨0, -1⟩ : Scalar ℝ) := by
    ext <;> simp [Scalar.i]
  refine ⟨hwellFormed, ?_⟩
  rw [(det_eq_sum_perm hwellFormed).1 3 (shape_ofFn ..), hperms]
  simp only [cell_hollow, Fin.prod_univ_three]
  repeat rw [Finset.sum_insert (by decide)]
  rw [Finset.sum_singleton]
  have hsum : (⟨0, -1⟩ : Scalar ℝ) + ⟨0, -1⟩ = ⟨0, -2⟩ := by
    ext <;> norm_num
  simp [Perm.mul_apply, swap_apply_def, hcube, hsum]

end MatrixCalculator.DenseMatrix
