import MatrixCalculator.Rank
import MatrixCalculator.Operator
import MatrixCalculator.Error
import MatrixCalculator.Update
import MatrixCalculator.Checked
import MatrixCalculator.Component
import MatrixCalculator.Scalar
import MatrixCalculator.Scalar.Functions
import MatrixCalculator.Entry
import MatrixCalculator.RankedSeq
import MatrixCalculator.OrientedVector
import MatrixCalculator.OrientedVector.Arithmetic
import MatrixCalculator.OrientedVector.Norm
import MatrixCalculator.VectorFamily
import MatrixCalculator.DenseMatrix
import MatrixCalculator.Capacity
import MatrixCalculator.DenseMatrix.Arithmetic
import MatrixCalculator.DenseMatrix.Determinant
import MatrixCalculator.DenseMatrix.Block
import MatrixCalculator.DenseMatrix.Inverse
import MatrixCalculator.DenseMatrix.Power
import MatrixCalculator.Operand
import MatrixCalculator.Operator.Apply
import MatrixCalculator.Expression.Token
import MatrixCalculator.Expression.Program
import MatrixCalculator.Expression.Compile
import MatrixCalculator.Expression.Evaluate
import MatrixCalculator.Expression.Capacity
import MatrixCalculator.Binary64.Fields
import MatrixCalculator.Binary64.Integral
import MatrixCalculator.Binary64.Library
import MatrixCalculator.Binary64.Hypotenuse
import MatrixCalculator.Binary64.Logarithm
import MatrixCalculator.Binary64
import MatrixCalculator.Decimal.Shortest
import MatrixCalculator.Decimal.Plain
import MatrixCalculator.Text
import MatrixCalculator.Tolerance
import MatrixCalculator.FieldTree
import MatrixCalculator.FieldTree.Codec
import MatrixCalculator.FieldTree.Reader
import MatrixCalculator.Proofs.Expression.Reading
import MatrixCalculator.Proofs.Expression.Registration
import MatrixCalculator.Proofs.Expression.Tree
import MatrixCalculator.Proofs.Expression.Grammar
import MatrixCalculator.Proofs.Expression.Running
import MatrixCalculator.Proofs.Expression.Meaning
import MatrixCalculator.Proofs.Expression.Grouping
import MatrixCalculator.Proofs.Expression.Refusal
import MatrixCalculator.Proofs.DenseMatrix.Regular
import MatrixCalculator.Proofs.DenseMatrix.Arithmetic
import MatrixCalculator.Proofs.Ends
import MatrixCalculator.Proofs.DenseMatrix.Inverse
import MatrixCalculator.Proofs.DenseMatrix.Power
import MatrixCalculator.Proofs.Operator.Form
import MatrixCalculator.Proofs.Expression.Form
import MatrixCalculator.Proofs.Expression.Capacity
import MatrixCalculator.Proofs.Expression.Advance
import MatrixCalculator.Proofs.Expression.Conservation
import MatrixCalculator.Proofs.Expression.Binding
import MatrixCalculator.Proofs.Expression.Context
import MatrixCalculator.Proofs.Expression.Substitution
import MatrixCalculator.Proofs.Operator.Algebraic
import MatrixCalculator.Proofs.Expression.Accounting
import MatrixCalculator.Proofs.Expression.Session
import MatrixCalculator.Proofs.Expression.Acceptance
import MatrixCalculator.Proofs.Container.WellFormed
import MatrixCalculator.Proofs.DenseMatrix.Cells
import MatrixCalculator.Proofs.DenseMatrix.WellFormed
import MatrixCalculator.Proofs.DenseMatrix.Enclosed
import MatrixCalculator.Proofs.Container.Reachable
import MatrixCalculator.Proofs.Container.RankTracking
import MatrixCalculator.Proofs.Container.Evaluation
import MatrixCalculator.Proofs.Binary64.Negation
import MatrixCalculator.Proofs.Container.InPlace
import MatrixCalculator.Proofs.Container.RankAttained
import MatrixCalculator.Proofs.Container.RankMonotone
import MatrixCalculator.Proofs.Container.Conjugation
import MatrixCalculator.Proofs.Container.InnerLength
import MatrixCalculator.Proofs.FieldTree.RoundTrip
import MatrixCalculator.Proofs.Scalar.Exact
import MatrixCalculator.Proofs.Scalar.FieldLaws
import MatrixCalculator.Proofs.DenseMatrix.Grid
import MatrixCalculator.Proofs.DenseMatrix.Regrouping
import MatrixCalculator.Proofs.DenseMatrix.Determinant
import MatrixCalculator.Proofs.DenseMatrix.Elimination
import MatrixCalculator.Proofs.DenseMatrix.Inversion
import MatrixCalculator.Proofs.DenseMatrix.RepeatedProduct
import MatrixCalculator.Proofs.DenseMatrix.SideBySide
import MatrixCalculator.Proofs.Binary64.WholePart
import MatrixCalculator.Proofs.Operator.Power
import MatrixCalculator.Proofs.Binary64.ZeroSign
import MatrixCalculator.Proofs.DenseMatrix.Products
import MatrixCalculator.Proofs.DenseMatrix.Transposition
import MatrixCalculator.Proofs.DenseMatrix.Trimming
import MatrixCalculator.Proofs.DenseMatrix.Rejoining
import MatrixCalculator.Proofs.Binary64.Magnitude
import MatrixCalculator.Proofs.Binary64.Logarithm
import MatrixCalculator.Proofs.Binary64.Sides
import MatrixCalculator.Proofs.Binary64.Underflow
import MatrixCalculator.Proofs.Binary64.Overflow
import MatrixCalculator.Proofs.Binary64.Truncation
import MatrixCalculator.Proofs.Binary64.Library
import MatrixCalculator.Proofs.Scalar.BranchCut
import MatrixCalculator.Proofs.DenseMatrix.InversionTotal
import MatrixCalculator.Proofs.Expression.Precedence
import MatrixCalculator.Proofs.Text.Unambiguous
import MatrixCalculator.Proofs.OrientedVector.ZeroNorm
import MatrixCalculator.Proofs.OrientedVector.Angle
