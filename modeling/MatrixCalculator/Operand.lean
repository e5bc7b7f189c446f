import MatrixCalculator.DenseMatrix
set_option autoImplicit false

/-!
Operands of expressions: a scalar, a vector or a matrix of scalars over one type of components.
-/

namespace MatrixCalculator

inductive Operand (β : Type) where
  | scalar (a : Scalar β)
  | vector (v : OrientedVector (Scalar β))
  | matrix (m : DenseMatrix (Scalar β))
  deriving DecidableEq, Repr

namespace Operand

variable {β : Type}

def kind : Operand β → Kind
  | .scalar _ => .scalar
  | .vector _ => .vector
  | .matrix _ => .matrix

def toScalar : Operand β → Except Error (Scalar β)
  | .scalar a => .ok a
  | x => .error (.kindMismatch .scalar x.kind)

def toVector : Operand β → Except Error (OrientedVector (Scalar β))
  | .vector v => .ok v
  | x => .error (.kindMismatch .vector x.kind)

def toMatrix : Operand β → Except Error (DenseMatrix (Scalar β))
  | .matrix m => .ok m
  | x => .error (.kindMismatch .matrix x.kind)

def isFinite [ElementaryFunctions β] : Operand β → Bool
  | .scalar a => a.isFinite
  | .vector v => v.items.all Scalar.isFinite
  | .matrix m => m.lists.all (·.all Scalar.isFinite)

def same [ElementaryFunctions β] : Operand β → Operand β → Bool
  | .scalar a, .scalar b => a.same b
  | .vector v, .vector w => v.same w
  | .matrix m, .matrix n => m.same n
  | _, _ => false

end Operand

end MatrixCalculator
