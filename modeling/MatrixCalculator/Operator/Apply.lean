import MatrixCalculator.Operand
import MatrixCalculator.DenseMatrix.Arithmetic
import MatrixCalculator.DenseMatrix.Power
set_option autoImplicit false

/-!
What each operator does to operands of each kind. Conjugation takes any kind, the other unary
operators take scalars; a combination of kinds that no row lists is refused by name.
-/

namespace MatrixCalculator

variable {β : Type} [ElementaryFunctions β]

def UnaryOp.onScalar : UnaryOp → Scalar β → Scalar β
  | .sqrt => Scalar.sqrt
  | .conj => Scalar.conj
  | .sin => Scalar.sin
  | .cos => Scalar.cos
  | .tan => Scalar.tan
  | .asin => Scalar.asin
  | .acos => Scalar.acos
  | .atan => Scalar.atan
  | .sinh => Scalar.sinh
  | .cosh => Scalar.cosh
  | .tanh => Scalar.tanh
  | .asinh => Scalar.asinh
  | .acosh => Scalar.acosh
  | .atanh => Scalar.atanh

def UnaryOp.apply : UnaryOp → Operand β → Except Error (Operand β)
  | op, .scalar a => .ok (.scalar (op.onScalar a))
  | .conj, .vector v => .ok (.vector v.conjugated)
  | .conj, .matrix m => .ok (.matrix m.conjugated)
  | op, x => .error (.unsupportedOperands (.unary op) x.kind none)

/-- The product of two vectors: inner for row times column, outer for column times row. -/
def OrientedVector.product (v w : OrientedVector (Scalar β)) : Except Error (Operand β) :=
  match v.space, w.space with
  | .row, .column => Operand.scalar <$> v.inner w
  | .column, .row => Operand.matrix <$> DenseMatrix.outer v w
  | _, _ => .error (.dimensionMismatch .vectorProduct v.shape w.shape)

def BinaryOp.apply : BinaryOp → Operand β → Operand β → Except Error (Operand β)
  | .add, .scalar a, .scalar b => .ok (.scalar (a + b))
  | .add, .vector v, .vector w => Operand.vector <$> v.add w
  | .add, .matrix m, .matrix n => Operand.matrix <$> m.add n
  | .subtract, .scalar a, .scalar b => .ok (.scalar (a - b))
  | .subtract, .vector v, .vector w => Operand.vector <$> v.sub w
  | .subtract, .matrix m, .matrix n => Operand.matrix <$> m.sub n
  | .multiply, .scalar a, .scalar b => .ok (.scalar (a * b))
  | .multiply, .vector v, .scalar s => .ok (.vector (v.scale s))
  | .multiply, .scalar s, .vector v => .ok (.vector (v.scale s))
  | .multiply, .matrix m, .scalar s => .ok (.matrix (m.scale s))
  | .multiply, .scalar s, .matrix m => .ok (.matrix (m.scale s))
  | .multiply, .vector v, .vector w => v.product w
  | .multiply, .vector v, .matrix m => Operand.vector <$> DenseMatrix.rowMul v m
  | .multiply, .matrix m, .vector v => Operand.vector <$> m.mulColumn v
  | .multiply, .matrix m, .matrix n => Operand.matrix <$> m.mul n
  | .divide, .scalar a, .scalar b => .ok (.scalar (a / b))
  | .divide, .vector v, .scalar s => .ok (.vector (v.divide s))
  | .divide, .matrix m, .scalar s => .ok (.matrix (m.divide s))
  | .power, .scalar a, .scalar b => .ok (.scalar (a.pow b))
  | .power, .matrix m, .scalar s =>
    Operand.matrix <$> m.power (ElementaryFunctions.wholePart s.re)
  | op, x, y => .error (.unsupportedOperands (.binary op) x.kind (some y.kind))

end MatrixCalculator
