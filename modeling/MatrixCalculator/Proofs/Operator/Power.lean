import Mathlib
import MatrixCalculator.Operator.Apply
import MatrixCalculator.Proofs.Binary64.Library
import MatrixCalculator.Proofs.DenseMatrix.RepeatedProduct
set_option autoImplicit false

/-!
Powers of matrices as the operator takes them. The exponent is the real part of a scalar, cut towards
zero; it passes through a signed word, and beyond the ends of the word it is the last number there
that counts.
-/

namespace MatrixCalculator

open Binary64

noncomputable def Scalar.exact (s : Scalar Float) : Scalar ℝ := ⟨value s.re, value s.im⟩

/-- The real part cut towards zero, however large. -/
def Scalar.wholeExponent (s : Scalar Float) : Int := towardsZero (value s.re)

/-- The product of as many factors as the exponent says, of the inverse where it is negative. -/
def DenseMatrix.factorwise {α : Type} [Entry α] (m : DenseMatrix α) (t : Int) :
    Except Error (DenseMatrix α) :=
  (if t < 0 then m.inverse else .ok m) >>= (·.repeatedProduct t.natAbs)

theorem DenseMatrix.HasShape.power_eq_factorwise {α : Type} [RingEntry α] {m : DenseMatrix α} {n : Nat}
    (h : m.HasShape ⟨n, n⟩) (k : Int) : m.power k = m.factorwise k := by
  have hfrom {base : DenseMatrix α} (hb : base.HasShape ⟨n, n⟩) :
      powerFrom (identity n) base k.natAbs = base.repeatedProduct k.natAbs :=
    (hb.powerFrom_identity _).trans (hb.repeatedProduct_eq _).symm
  rw [h.power_eq, factorwise]
  split
  · cases hbase : m.inverse with
    | ok base => exact hfrom ((inverse_ends h).of_eq_ok hbase)
    | error e => rfl
  · exact hfrom h

variable {M : DenseMatrix (Scalar ℝ)} {s : Scalar Float}

theorem wholePart_exact (s : Scalar Float) :
    ElementaryFunctions.wholePart s.exact.re = heldInWord s.wholeExponent := by
  rw [Scalar.wholeExponent, ← towardsZero_cast]
  rfl

theorem apply_power_exact (M : DenseMatrix (Scalar ℝ)) (s : Scalar Float) :
    BinaryOp.apply .power (.matrix M) (.scalar s.exact) =
      Operand.matrix <$> M.power (heldInWord s.wholeExponent) := by
  rw [← wholePart_exact]
  rfl

/-- The operator multiplies as many factors as the exponent says, as long as the exponent fits a
signed word. Only an inverse can be missing. Rounded matrices are raised to the same exponent. -/
theorem power_of_held_exponent [Library] [CorrectlyRounded] (hM : M.WellFormed) (hsquare : M.rowCount = M.colCount)
    (hs : s.re.isFinite = true) :
    BinaryOp.apply .power (.matrix M) (.scalar s.exact) =
      Operand.matrix <$> M.factorwise (heldInWord s.wholeExponent) ∧
    (heldInWord s.wholeExponent = s.wholeExponent ↔ -2 ^ 63 ≤ s.wholeExponent ∧ s.wholeExponent < 2 ^ 63) ∧
    (0 ≤ s.wholeExponent → ∃ p, BinaryOp.apply .power (.matrix M) (.scalar s.exact) = .ok (.matrix p)) ∧
    (∀ e, BinaryOp.apply .power (.matrix M) (.scalar s.exact) = .error e →
      e = .singularMatrix ∧ M.inverse = .error .singularMatrix) ∧
    ∀ m : DenseMatrix (Scalar Float), BinaryOp.apply .power (.matrix m) (.scalar s) =
      Operand.matrix <$> m.power (heldInWord s.wholeExponent) := by
  have hshape : M.HasShape ⟨M.rowCount, M.rowCount⟩ := hM.hasShape_of_isSquare (beq_iff_eq.2 hsquare)
  have hends : Ends (fun x => ∃ p, x = .matrix p) (fun e => e = .singularMatrix ∧
      heldInWord s.wholeExponent < 0 ∧ M.inverse = .error .singularMatrix)
      (BinaryOp.apply .power (.matrix M) (.scalar s.exact)) := by
    rw [apply_power_exact]
    exact (DenseMatrix.power_ends hshape _).map fun p _ => ⟨p, rfl⟩
  refine ⟨?_, heldInWord_eq_iff _, fun hnonneg => ?_, fun e he => ?_, fun m => ?_⟩
  · rw [apply_power_exact, hshape.power_eq_factorwise]
  · cases hx : BinaryOp.apply .power (.matrix M) (.scalar s.exact) with
    | ok x =>
      obtain ⟨p, rfl⟩ := hends.of_eq_ok hx
      exact ⟨p, rfl⟩
    | error e =>
      rw [hx] at hends
      exact absurd hends.2.1 (Int.not_lt.2 (heldInWord_nonneg hnonneg))
  · rw [he] at hends
    exact ⟨hends.1, hends.2.2⟩
  · rw [Scalar.wholeExponent, ← wholePart_eq hs]
    rfl

namespace DenseMatrix

theorem factorwise_exchange (k : Nat) : exchange.factorwise k = .ok (ofGrid (exchange.grid 2 2 ^ k)) := by
  rw [factorwise, if_neg (by omega)]
  exact (hasShape_ofFn ..).repeatedProduct_eq k

theorem factorwise_exchange_even (k : Nat) : exchange.factorwise (2 * k : Nat) = .ok (identity 2) := by
  rw [factorwise_exchange, pow_mul, pow_two, grid_exchange_mul_self, one_pow, identity_eq_ofGrid]

theorem factorwise_exchange_odd (k : Nat) :
    exchange.factorwise (2 * k + 1 : Nat) = .ok (ofGrid (exchange.grid 2 2)) := by
  rw [factorwise_exchange, pow_succ, pow_mul, pow_two, grid_exchange_mul_self, one_pow, one_mul]

end DenseMatrix

theorem power_of_held_exponent_fraction :
    BinaryOp.apply .power (.matrix DenseMatrix.exchange)
      (.scalar (Scalar.exact ⟨Float.ofBits 0x4004000000000000, 0⟩)) =
        .ok (.matrix (DenseMatrix.identity 2)) := by
  have hvalue : value (Float.ofBits 0x4004000000000000) = 5 / 2 := by
    change exactValue (.finite .positive (5 * 2 ^ 50) (-51) (by decide)) = _
    norm_num [exactValue, Float.Model.UnpackedFloat.Sign.apply]
  have hexponent : heldInWord (Scalar.wholeExponent ⟨Float.ofBits 0x4004000000000000, 0⟩) = (2 * 1 : Nat) := by
    rw [Scalar.wholeExponent, hvalue, towardsZero]
    norm_num
    decide
  have hwellFormed : DenseMatrix.exchange.WellFormed := DenseMatrix.wellFormed_ofFn ..
  have hpower := (power_of_held_exponent (s := ⟨Float.ofBits 0x4004000000000000, 0⟩) hwellFormed rfl rfl).1
  rw [hpower, hexponent, DenseMatrix.factorwise_exchange_even]
  rfl

/-- From two to the power 63 on, the exponent is taken for the odd number before it, so that the
exchange is not undone. -/
theorem exponent_beyond_word_not_taken :
    ¬ ∀ (M : DenseMatrix (Scalar ℝ)) (s : Scalar Float), M.WellFormed → M.rowCount = M.colCount →
      s.isFinite = true →
      BinaryOp.apply .power (.matrix M) (.scalar s.exact) = Operand.matrix <$> M.factorwise s.wholeExponent := by
  intro hall
  have hvalue : value (Float.ofBits 0x43e0000000000000) = 2 ^ 63 := by
    change exactValue (.finite .positive (2 ^ 52) 11 (by decide)) = _
    norm_num [exactValue, Float.Model.UnpackedFloat.Sign.apply]
  have hexponent : Scalar.wholeExponent ⟨Float.ofBits 0x43e0000000000000, 0⟩ = (2 * Nat.pow 2 62 : Nat) := by
    rw [Scalar.wholeExponent, hvalue, towardsZero]
    norm_num
  have hheld : heldInWord (2 * Nat.pow 2 62 : Nat) = (2 * (Nat.pow 2 62 - 1) + 1 : Nat) := by decide
  have hshape : DenseMatrix.exchange.HasShape ⟨2, 2⟩ := DenseMatrix.hasShape_ofFn ..
  have hpower := hall DenseMatrix.exchange ⟨Float.ofBits 0x43e0000000000000, 0⟩
    (DenseMatrix.wellFormed_ofFn ..) rfl rfl
  rw [apply_power_exact, hexponent, hheld, hshape.power_eq_factorwise, DenseMatrix.factorwise_exchange_odd,
    DenseMatrix.factorwise_exchange_even, DenseMatrix.identity_eq_ofGrid] at hpower
  have hgrid := congrArg (DenseMatrix.grid · 2 2) (Operand.matrix.inj (Except.ok.inj hpower))
  simp only [DenseMatrix.grid_ofGrid] at hgrid
  have hcorner := congrFun (congrFun hgrid 0) 0
  simp [DenseMatrix.grid, DenseMatrix.exchange, DenseMatrix.cell_ofFn] at hcorner

end MatrixCalculator
