import MatrixCalculator.DenseMatrix.Block
set_option autoImplicit false

/-!
Inversion by elimination. The identity is set beside the matrix; for each column in turn, a row with
the greatest modulus there is swapped up, divided by its pivot, and used to clear the column in all
other rows. What then stands on the right is the inverse.
-/

namespace MatrixCalculator.DenseMatrix

variable {α : Type} [Entry α]

/-- The row, from `col` on down to row `degree`, whose entry in column `col` has the greatest
modulus; the last of several. Entries that do not compare count as equal. -/
def pivotRow (work : DenseMatrix α) (degree col : Nat) : Except Error Nat :=
  (List.range' (col + 1) (degree - (col + 1))).foldlM (fun best r => do
    let x ← work.entry best col
    let y ← work.entry r col
    return if Entry.compareModulus x y = some .gt then best else r) col

/-- Takes from row `row` the multiple of row `col` that clears its entry in column `col`. -/
def clearEntry (col : Nat) (work : DenseMatrix α) (row : Nat) : Except Error (DenseMatrix α) := do
  if row = col then return work
  let factor ← work.entry row col
  if Entry.isZero factor then return work
  let target ← work.row row
  let source ← work.row col
  let reduced := target.items.zipWith (fun a b => a - factor * b) source.items
  (work.family.set row (.ofList .row reduced)).map DenseMatrix.mk |>.result

def clearColumn (degree : Nat) (work : DenseMatrix α) (col : Nat) : Except Error (DenseMatrix α) := do
  let best ← work.pivotRow degree col
  if Entry.isZero (← work.entry best col) then throw .singularMatrix
  let work ← (work.swapRows col best).result
  let pivot ← work.entry col col
  let source ← work.row col
  let normalized := source.items.map (· / pivot)
  let work ← (work.family.set col (.ofList .row normalized)).map DenseMatrix.mk |>.result
  (List.range degree).foldlM (clearEntry col) work

def inverse (m : DenseMatrix α) : Except Error (DenseMatrix α) := do
  m.requireSquare .inverse
  let degree := m.rowCount
  if degree = 0 then return zeros 0 0
  let work ← m.augment (identity degree)
  let work ← (List.range degree).foldlM (clearColumn degree) work
  work.trim 0 0 degree 0

end MatrixCalculator.DenseMatrix
