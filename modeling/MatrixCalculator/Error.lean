import MatrixCalculator.Operator
set_option autoImplicit false

/-!
What can go wrong while an expression is compiled, while it runs, and inside the algebra it calls.
Each constructor of `Error` is one cause with the facts a caller needs; `Error.message` words it.
-/

namespace MatrixCalculator

inductive Kind where
  | scalar
  | vector
  | matrix
  deriving DecidableEq, Repr

def Kind.name : Kind → String
  | .scalar => "Value"
  | .vector => "Vector"
  | .matrix => "Matrix"

/-- Rows and columns of an operand: a row of length n is 1 by n, a column n by 1. -/
structure Shape where
  rows : Nat
  cols : Nat
  deriving DecidableEq, Repr

def Shape.text (s : Shape) : String := toString s.rows ++ "x" ++ toString s.cols

inductive Parenthesis where
  | opening
  | closing
  deriving DecidableEq, Repr

def Parenthesis.symbol : Parenthesis → String
  | .opening => "("
  | .closing => ")"

inductive Operation where
  | vectorAddition | vectorSubtraction | vectorProduct | innerProduct | outerProduct | vectorAngle
  | matrixConstruction | matrixSetRow | matrixAugment | matrixTrim
  | matrixAddition | matrixSubtraction | matrixVectorProduct | vectorMatrixProduct | matrixProduct
  | matrixPower | trace | determinant | inverse
  deriving DecidableEq, Repr

def Operation.name : Operation → String
  | .vectorAddition => "vector addition"
  | .vectorSubtraction => "vector subtraction"
  | .vectorProduct => "vector product"
  | .innerProduct => "inner product"
  | .outerProduct => "outer product"
  | .vectorAngle => "vector angle"
  | .matrixConstruction => "matrix construction"
  | .matrixSetRow => "matrix set row"
  | .matrixAugment => "matrix augment"
  | .matrixTrim => "matrix trim"
  | .matrixAddition => "matrix addition"
  | .matrixSubtraction => "matrix subtraction"
  | .matrixVectorProduct => "matrix-vector product"
  | .vectorMatrixProduct => "vector-matrix product"
  | .matrixProduct => "matrix product"
  | .matrixPower => "matrix power"
  | .trace => "trace"
  | .determinant => "determinant"
  | .inverse => "inverse"

inductive Error where
  /-- The variable at `index` of the registration list stands there a second time. -/
  | duplicateVariable (index : Nat)
  | unregisteredVariable (index : Nat)
  /-- The literal at `index` has a component that is not finite. -/
  | unsupportedLiteral (index : Nat)
  | unmatchedParenthesis (position : Nat) (found : Parenthesis)
  | arityMismatch (expected found : Nat)
  | kindMismatch (expected found : Kind)
  | insufficientOperands (operator : Operator) (needed available : Nat)
  | tooManyOperands (remaining : Nat)
  | emptyExpression
  | unsupportedOperation (name : String)
  | dimensionMismatch (operation : Operation) (left right : Shape)
  /-- The operator has no meaning on operands of these kinds; a unary one has no right operand. -/
  | unsupportedOperands (operator : Operator) (left : Kind) (right : Option Kind)
  | notSquare (operation : Operation) (shape : Shape)
  | singularMatrix
  | zeroNorm
  | indexOutOfBounds (index length : Nat)
  /-- The operand stack of a running expression is full. -/
  | operandStackFull
  | nameTooLong
  deriving DecidableEq, Repr

def Error.message : Error → String
  | .duplicateVariable i =>
    "Error registering variables: variable at index " ++ toString i ++ " is a duplicate"
  | .unregisteredVariable i => "Variable at index " ++ toString i ++ " was not registered"
  | .unsupportedLiteral i =>
    "Unsupported literal at index " ++ toString i ++ ": literal has a non-finite component"
  | .unmatchedParenthesis i p =>
    "Unmatched parenthesis at position " ++ toString i ++ ": found '" ++ p.symbol ++ "'"
  | .arityMismatch expected found =>
    "Expected " ++ toString expected ++ " input values (one per registered variable), found "
      ++ toString found
  | .kindMismatch expected found =>
    "Type mismatch: expected " ++ expected.name ++ ", received " ++ found.name
  | .insufficientOperands op needed available =>
    "Not enough operands for '" ++ op.name ++ "': needs " ++ toString needed ++ ", "
      ++ toString available ++ " available"
  | .tooManyOperands n => "Too many operands left over after calculation: " ++ toString n
  | .emptyExpression => "Expression produced no value"
  | .unsupportedOperation name => "Operation not supported: '" ++ name ++ "'"
  | .dimensionMismatch operation left right =>
    "Dimension mismatch in " ++ operation.name ++ ": " ++ left.text ++ " and " ++ right.text
  | .unsupportedOperands op left (some right) =>
    "'" ++ op.name ++ "' is not defined for " ++ left.name ++ " and " ++ right.name
  | .unsupportedOperands op left none => "'" ++ op.name ++ "' is not defined for " ++ left.name
  | .notSquare operation shape =>
    operation.name ++ " requires a square matrix, found " ++ shape.text
  | .singularMatrix => "Matrix is singular"
  | .zeroNorm => "Norm equal to zero"
  | .indexOutOfBounds index length =>
    "Index " ++ toString index ++ " out of bounds for length " ++ toString length
  | .operandStackFull => "Capacity exceeded for operand stack"
  | .nameTooLong => "String too long for heapless buffer"

end MatrixCalculator
