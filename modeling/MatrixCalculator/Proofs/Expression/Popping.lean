import MatrixCalculator.Proofs.Expression.Running
set_option autoImplicit false

/-!
Taking operands one by one. A step may first count the operands on the stack and then take each from
the top, where taking one fails if there is none. Whatever such a failure is reported as, it is never
seen: once the operands are counted none is missing, and the same holds for the result of a run.
-/

namespace MatrixCalculator

variable {β : Type} [ElementaryFunctions β]

namespace Slot

def pop {β : Type} (missing : Error) :
    List (Operand β) → Except (Halt β) (Operand β × List (Operand β))
  | [] => .error ⟨missing, []⟩
  | x :: rest => .ok (x, rest)

def require {β : Type} (op : Operator) (needed : Nat) (stack : List (Operand β)) :
    Except (Halt β) Unit :=
  if stack.length < needed then .error ⟨.insufficientOperands op needed stack.length, stack⟩
  else .ok ()

theorem require_of_le {β : Type} {op : Operator} {needed : Nat} {stack : List (Operand β)}
    (h : needed ≤ stack.length) : require op needed stack = .ok () := if_neg (Nat.not_lt.2 h)

def executePopping (missing : Error) (inputs stack : List (Operand β)) :
    Slot β → Except (Halt β) (List (Operand β))
  | .operation (.unary op) => do
    require (.unary op) 1 stack
    let (x, rest) ← pop missing stack
    deliver rest (op.apply x)
  | .operation (.binary op) => do
    require (.binary op) 2 stack
    let (right, rest) ← pop missing stack
    let (left, rest) ← pop missing rest
    deliver rest (op.apply left right)
  | slot => execute inputs stack slot

/-- Once operands are counted, none is missing. -/
theorem executePopping_eq (missing : Error) (inputs : List (Operand β)) :
    executePopping missing inputs = execute inputs := by
  funext stack slot
  cases slot with
  | constant | «variable» => rfl
  | operation op =>
    cases op with
    | unary op =>
      match stack with
      | [] => rfl
      | x :: rest => rfl
    | binary op =>
      match stack with
      | [] => rfl
      | [x] => rfl
      | y :: x :: rest =>
        rw [executePopping, require_of_le (Nat.le_add_left 2 _)]
        rfl
    | unknown name => rfl

def outcomePopping {β : Type} (missing : Error) (stack : List (Operand β)) :
    Except Error (Operand β) :=
  match stack.length with
  | 0 => .error .emptyExpression
  | 1 => (Prod.fst <$> pop missing stack).mapError Halt.error
  | remaining => .error (.tooManyOperands remaining)

theorem outcomePopping_eq {β : Type} (missing : Error) :
    outcomePopping (β := β) missing = outcome := by
  funext stack
  match stack with
  | [] => rfl
  | [x] => rfl
  | x :: y :: rest => rfl

end Slot

/-- Runs a program, taking every operand from the stack one by one, the result too. -/
def Program.evalPopping (missing : Error) (p : Program β) (inputs : List (Operand β)) :
    Except Error (Operand β) := do
  p.checkInputs inputs
  Slot.outcomePopping missing
    (← (p.slots.foldlM (Slot.executePopping missing inputs) []).mapError Halt.error)

theorem Program.evalPopping_eq (missing : Error) (p : Program β) (inputs : List (Operand β)) :
    p.evalPopping missing inputs = p.eval inputs := by
  rw [evalPopping, eval_eq, Slot.executePopping_eq, Slot.outcomePopping_eq]
  rfl

end MatrixCalculator
