import MatrixCalculator.DenseMatrix
import MatrixCalculator.OrientedVector.Arithmetic
set_option autoImplicit false

/-!
Sums, scaling and products of matrices, and their products with vectors. Every product adds its
terms from the left, starting at zero, so that all of them round alike.
-/

namespace MatrixCalculator.DenseMatrix

variable {α : Type} [Entry α]

def sumM (n : Nat) (term : Nat → Except Error α) : Except Error α :=
  (List.range n).foldlM (fun acc k => do return acc + (← term k)) 0

def zipEntries (operation : Operation) (f : α → α → α) (a b : DenseMatrix α) :
    Except Error (DenseMatrix α) :=
  if a.shape = b.shape then
    ofFnM a.rowCount a.colCount fun i j => do return f (← a.entry i j) (← b.entry i j)
  else .error (.dimensionMismatch operation a.shape b.shape)

def add (a b : DenseMatrix α) : Except Error (DenseMatrix α) :=
  zipEntries .matrixAddition (· + ·) a b

def sub (a b : DenseMatrix α) : Except Error (DenseMatrix α) :=
  zipEntries .matrixSubtraction (· - ·) a b

def scale (m : DenseMatrix α) (s : α) : DenseMatrix α := m.mapEntries (· * s)

def divide (m : DenseMatrix α) (s : α) : DenseMatrix α := m.mapEntries (· / s)

def mulColumn (m : DenseMatrix α) (v : OrientedVector α) : Except Error (OrientedVector α) :=
  if v.space = .column ∧ v.length = m.colCount then do
    let items ← (List.range m.rowCount).mapM fun i =>
      sumM m.colCount fun j => do return (← m.entry i j) * (← v.entry j)
    return .ofList .column items
  else .error (.dimensionMismatch .matrixVectorProduct m.shape v.shape)

def rowMul (v : OrientedVector α) (m : DenseMatrix α) : Except Error (OrientedVector α) :=
  if v.space = .row ∧ v.length = m.rowCount then do
    let items ← (List.range m.colCount).mapM fun j =>
      sumM m.rowCount fun i => do return (← v.entry i) * (← m.entry i j)
    return .ofList .row items
  else .error (.dimensionMismatch .vectorMatrixProduct v.shape m.shape)

def mul (a b : DenseMatrix α) : Except Error (DenseMatrix α) :=
  if a.colCount = b.rowCount then
    ofFnM a.rowCount b.colCount fun i j =>
      sumM a.colCount fun k => do return (← a.entry i k) * (← b.entry k j)
  else .error (.dimensionMismatch .matrixProduct a.shape b.shape)

def outer (v w : OrientedVector α) : Except Error (DenseMatrix α) :=
  if v.space = .column ∧ w.space = .row then
    ofFnM v.length w.length fun i j => do return (← v.entry i) * (← w.entry j)
  else .error (.dimensionMismatch .outerProduct v.shape w.shape)

def trace (m : DenseMatrix α) : Except Error α := do
  m.requireSquare .trace
  sumM m.rowCount fun i => m.entry i i

end MatrixCalculator.DenseMatrix
