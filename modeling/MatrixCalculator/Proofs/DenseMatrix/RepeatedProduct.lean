import Mathlib
import MatrixCalculator.Proofs.DenseMatrix.Inversion
set_option autoImplicit false

/-!
Repeated squaring comes to multiplying factor by factor, however large the exponent. What carries the
induction is that the result times the remaining power of the base stays the same, digit by digit.
-/

namespace MatrixCalculator.DenseMatrix

def repeatedProduct {α : Type} [Entry α] (base : DenseMatrix α) : Nat → Except Error (DenseMatrix α)
  | 0 => .ok (identity base.rowCount)
  | k + 1 => do (← base.repeatedProduct k).mul base

variable {α : Type} [RingEntry α] {m base : DenseMatrix α} {n : Nat}

theorem HasShape.repeatedProduct_eq (h : base.HasShape ⟨n, n⟩) (k : Nat) :
    base.repeatedProduct k = .ok (ofGrid (base.grid n n ^ k)) := by
  induction k with
  | zero => rw [repeatedProduct, h.rowCount_eq, identity_eq_ofGrid, pow_zero]
  | succ k ih =>
    rw [repeatedProduct, ih]
    change (ofGrid _).mul base = _
    rw [mul_eq_ofGrid (hasShape_ofGrid _) h, grid_ofGrid, pow_succ]

/-- Squaring the base halves the exponent. -/
theorem HasShape.powerFrom_eq (h : base.HasShape ⟨n, n⟩) (R : Matrix (Fin n) (Fin n) α) (k : Nat) :
    powerFrom (ofGrid R) base k = .ok (ofGrid (R * base.grid n n ^ k)) := by
  induction k using Nat.strongRecOn generalizing R base with
  | ind k ih =>
    rw [powerFrom]
    split
    · next hk => rw [hk, pow_zero, mul_one]
    · next hk =>
      -- The last square is not taken, and would not have been used.
      have hrest (R : Matrix (Fin n) (Fin n) α) :
          (if k / 2 = 0 then .ok (ofGrid R) else do powerFrom (ofGrid R) (← base.mul base) (k / 2)) =
            .ok (ofGrid (R * base.grid n n ^ (2 * (k / 2)))) := by
        split
        · next hlast => rw [hlast, mul_zero, pow_zero, mul_one]
        · rw [mul_eq_ofGrid h h]
          change powerFrom _ (ofGrid _) _ = _
          rw [ih (k / 2) (by omega) (hasShape_ofGrid _), grid_ofGrid, ← pow_two, ← pow_mul]
      dsimp only
      split
      · next hodd =>
        have hk : k = 1 + 2 * (k / 2) := by omega
        rw [mul_eq_ofGrid (hasShape_ofGrid R) h, grid_ofGrid]
        refine (hrest _).trans ?_
        rw [mul_assoc, ← pow_succ', add_comm, ← hk]
      · next heven =>
        have hk : k = 2 * (k / 2) := by omega
        rw [← hk] at hrest
        exact hrest R

theorem HasShape.powerFrom_identity (h : base.HasShape ⟨n, n⟩) (k : Nat) :
    powerFrom (identity n) base k = .ok (ofGrid (base.grid n n ^ k)) := by
  rw [identity_eq_ofGrid, h.powerFrom_eq, one_mul]

theorem HasShape.power_eq (h : m.HasShape ⟨n, n⟩) (k : Int) :
    m.power k = if k < 0 then m.inverse >>= (powerFrom (identity n) · k.natAbs)
      else powerFrom (identity n) m k.natAbs := by
  rw [power, h.requireSquare_eq, h.rowCount_eq]
  rfl

/-- A whole power of a square matrix is the product of as many factors, of the matrix or of its
inverse, and is refused exactly where an inverse is asked for and there is none. Other matrices have
no powers. -/
theorem power_eq_repeatedProduct (h : m.WellFormed) (k : Int) :
    (∀ n, m.shape = ⟨n, n⟩ →
      (0 ≤ k → m.power k = .ok (ofGrid (m.grid n n ^ k.natAbs)) ∧
        m.repeatedProduct k.natAbs = m.power k) ∧
      (k < 0 → ∀ b, m.inverse = .ok b → m.power k = .ok (ofGrid (b.grid n n ^ k.natAbs)) ∧
        b.repeatedProduct k.natAbs = m.power k) ∧
      ((∃ e, m.power k = .error e) ↔ k < 0 ∧ ∃ e, m.inverse = .error e) ∧
      ∀ e, m.power k = .error e → e = .singularMatrix) ∧
    (m.rowCount ≠ m.colCount → m.power k = .error (.notSquare .matrixPower m.shape)) := by
  refine ⟨fun n hn => ?_, fun hne => power_of_not_square hne k⟩
  have hm : m.HasShape ⟨n, n⟩ := ⟨h.regular, hn⟩
  have hends := power_ends hm k
  refine ⟨fun hk => ?_, fun hk b hb => ?_, ?_, fun e he => ?_⟩
  · rw [hm.power_eq, if_neg (Int.not_lt.2 hk), hm.powerFrom_identity]
    exact ⟨rfl, hm.repeatedProduct_eq _⟩
  · have hshape : b.HasShape ⟨n, n⟩ := (inverse_ends hm).of_eq_ok hb
    rw [hm.power_eq, if_pos hk, hb]
    exact ⟨hshape.powerFrom_identity _, (hshape.repeatedProduct_eq _).trans (hshape.powerFrom_identity _).symm⟩
  · constructor
    · rintro ⟨e, he⟩
      rw [he] at hends
      obtain ⟨-, hk, hinverse⟩ := hends
      exact ⟨hk, _, hinverse⟩
    · rintro ⟨hk, e, he⟩
      refine ⟨e, ?_⟩
      rw [hm.power_eq, if_pos hk, he]
      rfl
  · rw [he] at hends
    exact hends.1

noncomputable def exchange : DenseMatrix (Scalar ℝ) := ofFn 2 2 fun i j => if i = j then 0 else 1

theorem grid_exchange_mul_self : exchange.grid 2 2 * exchange.grid 2 2 = 1 := by
  have hgrid : exchange.grid 2 2 = !![0, 1; 1, 0] := by
    refine Matrix.ext fun i j => ?_
    fin_cases i <;> fin_cases j <;> simp [grid, exchange, cell_ofFn]
  rw [hgrid, Matrix.mul_fin_two, Matrix.one_fin_two]
  simp

/-- The least exponent of a machine word; its absolute value does not fit one. -/
theorem power_eq_repeatedProduct_minValue :
    exchange.WellFormed ∧ exchange.power Int64.minValue.toInt = .ok (identity 2) := by
  have hwellFormed : exchange.WellFormed := wellFormed_ofFn ..
  have hshape : exchange.HasShape ⟨2, 2⟩ := hasShape_ofFn ..
  have hnegative : Int64.minValue.toInt < 0 := by decide
  refine ⟨hwellFormed, ?_⟩
  obtain ⟨b, hb, -, hleft⟩ | ⟨-, hdet⟩ := hshape.inverse_spec Scalar.comparedBy_modulus
  · have hself : b.grid 2 2 = exchange.grid 2 2 := left_inv_eq_right_inv hleft grid_exchange_mul_self
    have hpower := (((power_eq_repeatedProduct hwellFormed Int64.minValue.toInt).1 2 (shape_ofFn ..)).2.1
      hnegative b hb).1
    have heven : Int64.minValue.toInt.natAbs = 2 * Nat.pow 2 62 := by decide
    rw [hpower, hself, heven, pow_mul, pow_two, grid_exchange_mul_self, one_pow, identity_eq_ofGrid]
  · have hone := congrArg Matrix.det grid_exchange_mul_self
    rw [Matrix.det_mul, hdet, zero_mul, Matrix.det_one] at hone
    exact absurd hone zero_ne_one

end MatrixCalculator.DenseMatrix
