import MatrixCalculator.Expression.Evaluate
set_option autoImplicit false

/-!
Expressions as trees over a list of registered variables, and their postfix form. A tree has no
parentheses: its shape says what belongs to what.
-/

namespace MatrixCalculator

/-- An operator that stands between two operands, whether a table knows its name or not. -/
inductive DyadicOp where
  | known (op : BinaryOp)
  | unknown (name : String)
  deriving DecidableEq, Repr

def DyadicOp.operator : DyadicOp → Operator
  | .known op => .binary op
  | .unknown name => .unknown name

inductive Tree (β : Type) (registered : List Variable) where
  | constant (x : Operand β)
  /-- The operand bound to the variable registered at a position. -/
  | input (position : Fin registered.length)
  | unary (op : UnaryOp) (child : Tree β registered)
  | dyadic (op : DyadicOp) (left right : Tree β registered)
  deriving Repr

namespace Tree

variable {β : Type} {registered : List Variable}

def postorder : Tree β registered → List (Slot β)
  | .constant x => [.constant x]
  | .input i => [.variable registered[i] i]
  | .unary op child => child.postorder ++ [.operation (.unary op)]
  | .dyadic op left right => left.postorder ++ right.postorder ++ [.operation op.operator]

def size : Tree β registered → Nat
  | .constant _ | .input _ => 1
  | .unary _ child => child.size + 1
  | .dyadic _ left right => left.size + right.size + 1

end Tree

end MatrixCalculator
