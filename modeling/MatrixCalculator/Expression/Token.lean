import MatrixCalculator.Operand
set_option autoImplicit false

/-!
What an expression is written in: constants, variables, and the names of operators and parentheses.
-/

namespace MatrixCalculator

/-- A placeholder for an operand of one kind; two variables are the same when their ids are. -/
structure Variable where
  id : Nat
  kind : Kind
  deriving DecidableEq, Repr

def Variable.accepts {β : Type} (v : Variable) (x : Operand β) : Except Error Unit :=
  if x.kind = v.kind then .ok () else .error (.kindMismatch v.kind x.kind)

def Variable.bind {β : Type} (v : Variable) (x : Operand β) : Except Error (Operand β) := do
  v.accepts x
  return x

inductive Token (β : Type) where
  | constant (x : Operand β)
  | variable (v : Variable)
  /-- The name of an operator, or a parenthesis. -/
  | symbol (name : String)
  deriving DecidableEq, Repr

end MatrixCalculator
