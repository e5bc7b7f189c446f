import MatrixCalculator.DenseMatrix
set_option autoImplicit false

/-!
Determinants by cofactors along the first row, with the closed forms for up to two rows. A zero
pivot is passed over together with its minor.
-/

namespace MatrixCalculator.DenseMatrix

variable {α : Type} [Entry α]

def skip (k i : Nat) : Nat := if i < k then i else i + 1

def minor (m : DenseMatrix α) (k l : Nat) : Except Error (DenseMatrix α) :=
  ofFnM (m.rowCount - 1) (m.colCount - 1) fun i j => m.entry (skip k i) (skip l j)

def cofactorDet : Nat → DenseMatrix α → Except Error α
  | 0, _ => .ok 1
  | 1, m => m.entry 0 0
  | 2, m => do
    return (← m.entry 0 0) * (← m.entry 1 1) - (← m.entry 0 1) * (← m.entry 1 0)
  | n + 3, m =>
    (List.range (n + 3)).foldlM (fun acc j => do
      let pivot ← m.entry 0 j
      if Entry.isZero pivot then return acc
      let term := pivot * (← cofactorDet (n + 2) (← m.minor 0 j))
      return if j % 2 = 0 then acc + term else acc - term) 0

def det (m : DenseMatrix α) : Except Error α := do
  m.requireSquare .determinant
  cofactorDet m.rowCount m

end MatrixCalculator.DenseMatrix
