import MatrixCalculator.Operand
import MatrixCalculator.Binary64
import MatrixCalculator.Decimal.Plain
set_option autoImplicit false

/-!
The text of scalars, vectors, matrices and operands, given the text of a component. A real scalar is
its real part and an imaginary one its imaginary part with an `i`; otherwise the two parts stand side
by side, the sign of the second between them. A column vector ends in a prime.
-/

namespace MatrixCalculator

class NumberText (β : Type) where
  text : β → String

instance : NumberText Float := ⟨Decimal.ofFloat⟩

variable {β : Type} [ElementaryFunctions β] [NumberText β]

def Scalar.text (a : Scalar β) : String :=
  if Component.isZero a.im then NumberText.text a.re
  else if Component.isZero a.re then NumberText.text a.im ++ "i"
  else if ElementaryFunctions.lt a.im 0 then NumberText.text a.re ++ NumberText.text a.im ++ "i"
  else NumberText.text a.re ++ "+" ++ NumberText.text a.im ++ "i"

def OrientedVector.text (v : OrientedVector (Scalar β)) : String :=
  let listed := "[" ++ ", ".intercalate (v.items.map Scalar.text) ++ "]"
  match v.space with
  | .row => listed
  | .column => listed ++ "'"

def DenseMatrix.text (m : DenseMatrix (Scalar β)) : String :=
  "\n".intercalate (m.family.vectors.map OrientedVector.text)

def Operand.text : Operand β → String
  | .scalar a => a.text
  | .vector v => v.text
  | .matrix m => m.text

end MatrixCalculator
