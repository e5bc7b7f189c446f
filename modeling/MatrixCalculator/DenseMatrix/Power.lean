import MatrixCalculator.DenseMatrix.Arithmetic
import MatrixCalculator.DenseMatrix.Inverse
set_option autoImplicit false

/-!
Whole powers of square matrices by repeated squaring over the binary digits of the exponent. The
zeroth power is the identity, and a negative power is a power of the inverse.
-/

namespace MatrixCalculator.DenseMatrix

variable {α : Type} [Entry α]

/-- `result` times the `n`-th power of `base`. The base is not squared after the last digit. -/
def powerFrom (result base : DenseMatrix α) (n : Nat) : Except Error (DenseMatrix α) :=
  if h : n = 0 then .ok result
  else do
    let result ← if n % 2 = 1 then result.mul base else .ok result
    if n / 2 = 0 then .ok result
    else powerFrom result (← base.mul base) (n / 2)
termination_by n
decreasing_by omega

def power (m : DenseMatrix α) (n : Int) : Except Error (DenseMatrix α) := do
  m.requireSquare .matrixPower
  let base ← if n < 0 then m.inverse else .ok m
  powerFrom (identity m.rowCount) base n.natAbs

end MatrixCalculator.DenseMatrix
