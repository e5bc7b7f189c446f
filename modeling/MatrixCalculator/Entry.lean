import MatrixCalculator.Scalar.Functions
set_option autoImplicit false

/-!
What vectors and matrices ask of their entries. No law is part of the class: the shape of a result
never hangs on one, and a law that a statement about values needs is a hypothesis of that statement.
-/

namespace MatrixCalculator

class Entry (α : Type) extends Zero α, One α, Add α, Sub α, Mul α, Div α where
  conj : α → α
  rank : α → Rank
  isZero : α → Bool
  same : α → α → Bool
  /-- How the moduli of two entries compare; `none` when they are not comparable. -/
  compareModulus : α → α → Option Ordering

instance {β : Type} [ElementaryFunctions β] : Entry (Scalar β) where
  conj := Scalar.conj
  rank := Scalar.rank
  isZero := Scalar.isZero
  same := Scalar.same
  compareModulus a b := ElementaryFunctions.compare a.modulus b.modulus

end MatrixCalculator
