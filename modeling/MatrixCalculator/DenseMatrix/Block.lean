import MatrixCalculator.DenseMatrix
set_option autoImplicit false

/-!
Matrices side by side, and blocks cut out of a matrix. The width of matrices set side by side is
read off the rows, so without rows it is zero.
-/

namespace MatrixCalculator.DenseMatrix

variable {α : Type} [Entry α]

def augment (a b : DenseMatrix α) : Except Error (DenseMatrix α) :=
  if a.rowCount = b.rowCount then
    ofRows ((a.lists.zipWith (· ++ ·) b.lists).map (OrientedVector.ofList .row))
  else .error (.dimensionMismatch .matrixAugment a.shape b.shape)

/-- Sets a column beside the matrix; the rows keep the ranks they have. -/
def augmentColumn (m : DenseMatrix α) (v : OrientedVector α) : Except Error (DenseMatrix α) :=
  if v.space = .column ∧ v.length = m.rowCount then
    ofRows (m.family.vectors.zipWith OrientedVector.append v.items)
  else .error (.dimensionMismatch .matrixAugment m.shape v.shape)

def maxCount : Nat := UInt64.size - 1

/-- Cuts `top` and `bottom` rows and `left` and `right` columns off; one row and one column must
remain. A refusal reports the rows and columns to be cut, held at the greatest count. -/
def trim (m : DenseMatrix α) (top bottom left right : Nat) : Except Error (DenseMatrix α) :=
  if top + bottom < m.rowCount ∧ left + right < m.colCount then
    ofFnM (m.rowCount - (top + bottom)) (m.colCount - (left + right)) fun i j =>
      m.entry (i + top) (j + left)
  else
    .error (.dimensionMismatch .matrixTrim m.shape
      ⟨min (top + bottom) maxCount, min (left + right) maxCount⟩)

end MatrixCalculator.DenseMatrix
