import MatrixCalculator.DenseMatrix.Power
import MatrixCalculator.Proofs.DenseMatrix.Arithmetic
import MatrixCalculator.Proofs.DenseMatrix.Inverse
set_option autoImplicit false

/-!
Whole powers keep the shape of a square matrix. Only a negative exponent can end without a result,
and then because the matrix has no inverse.
-/

namespace MatrixCalculator.DenseMatrix

variable {α : Type} [Entry α] {n : Nat}

/-- What every product keeps, squaring and multiplying keep, and nothing else can be refused. -/
theorem powerFrom_keeps {P : DenseMatrix α → Prop} {E : Error → Prop}
    (hmul : ∀ a b, P a → P b → Ends P E (a.mul b)) {result base : DenseMatrix α} (hr : P result)
    (hb : P base) (k : Nat) : Ends P E (powerFrom result base k) := by
  induction k using Nat.strongRecOn generalizing result base with
  | ind k ih =>
    rw [powerFrom]
    split
    · exact hr
    · next hk =>
      have hrest : ∀ next : DenseMatrix α, P next →
          Ends P E (if k / 2 = 0 then .ok next else do powerFrom next (← base.mul base) (k / 2)) := by
        intro next hnext
        split
        · exact hnext
        · exact (hmul base base hb hb).bind fun squared hs => ih (k / 2) (by omega) hnext hs
      dsimp only
      split
      · exact (hmul result base hr hb).bind hrest
      · exact hrest result hr

theorem powerFrom_ends {result base : DenseMatrix α} (hr : result.HasShape ⟨n, n⟩)
    (hb : base.HasShape ⟨n, n⟩) (k : Nat) :
    Ends (HasShape · ⟨n, n⟩) (fun _ => False) (powerFrom result base k) := by
  refine powerFrom_keeps (fun a b ha hb => ?_) hr hb k
  obtain ⟨product, hmul, hproduct⟩ := ha.mul hb rfl
  rw [hmul]
  exact hproduct

theorem power_ends {m : DenseMatrix α} (h : m.HasShape ⟨n, n⟩) (k : Int) :
    Ends (HasShape · ⟨n, n⟩)
      (fun e => e = .singularMatrix ∧ k < 0 ∧ m.inverse = .error .singularMatrix) (m.power k) := by
  have hfrom : ∀ base : DenseMatrix α, base.HasShape ⟨n, n⟩ →
      Ends (HasShape · ⟨n, n⟩)
        (fun e => e = .singularMatrix ∧ k < 0 ∧ m.inverse = .error .singularMatrix)
        (powerFrom (identity n) base k.natAbs) := fun base hb =>
    (powerFrom_ends (hasShape_identity n) hb k.natAbs).mono (fun _ => id) fun _ => False.elim
  have hinverse := inverse_ends h
  unfold power
  rw [h.requireSquare_eq, h.rowCount_eq]
  simp only [bind, Except.bind]
  split
  · next hk =>
    cases hi : m.inverse with
    | ok base =>
      rw [hi] at hinverse
      simpa only [hi] using hfrom base hinverse
    | error e =>
      rw [hi] at hinverse
      obtain rfl : e = .singularMatrix := hinverse
      exact ⟨rfl, hk, rfl⟩
  · exact hfrom m h

theorem power_of_not_square {m : DenseMatrix α} (h : m.rowCount ≠ m.colCount) (k : Int) :
    m.power k = .error (.notSquare .matrixPower m.shape) := by
  simp [power, requireSquare, isSquare, h, bind, Except.bind]

end MatrixCalculator.DenseMatrix
