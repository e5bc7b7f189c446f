import MatrixCalculator.Expression.Compile
import MatrixCalculator.Operator.Apply
set_option autoImplicit false

/-!
Running a postfix program on a stack of operands. An evaluator may be used again and again: what a
run leaves on the stack, after a failure too, stays there until the next run clears it.
-/

namespace MatrixCalculator

variable {β : Type} [ElementaryFunctions β]

def maxStackDepth : Nat := 1024

/-- A run that stopped: why, and the operands it left. -/
structure Halt (β : Type) where
  error : Error
  residue : List (Operand β)

namespace Slot

def push {β : Type} (x : Operand β) (stack : List (Operand β)) :
    Except (Halt β) (List (Operand β)) :=
  if stack.length < maxStackDepth then .ok (x :: stack) else .error ⟨.operandStackFull, stack⟩

def deliver {β : Type} (rest : List (Operand β)) (result : Except Error (Operand β)) :
    Except (Halt β) (List (Operand β)) :=
  match result with
  | .ok x => .ok (x :: rest)
  | .error e => .error ⟨e, rest⟩

def input {β : Type} (inputs : List (Operand β)) (v : Variable) (position : Nat) :
    Except Error (Operand β) :=
  match inputs[position]? with
  | some x => v.bind x
  | none => .error (.indexOutOfBounds position inputs.length)

/-- The stack, its top first, after one slot. The operand on top is the right one. -/
def execute (inputs : List (Operand β)) (stack : List (Operand β)) :
    Slot β → Except (Halt β) (List (Operand β))
  | .constant x => push x stack
  | .variable v position =>
    match input inputs v position with
    | .ok x => push x stack
    | .error e => .error ⟨e, stack⟩
  | .operation (.unary op) =>
    match stack with
    | x :: rest => deliver rest (op.apply x)
    | [] => .error ⟨.insufficientOperands (.unary op) 1 0, stack⟩
  | .operation (.binary op) =>
    match stack with
    | right :: left :: rest => deliver rest (op.apply left right)
    | _ => .error ⟨.insufficientOperands (.binary op) 2 stack.length, stack⟩
  | .operation (.unknown name) => .error ⟨.unsupportedOperation name, stack⟩

def executeAll (inputs : List (Operand β)) (slots : List (Slot β)) :
    Except (Halt β) (List (Operand β)) :=
  slots.foldlM (execute inputs) []

end Slot

/-- An evaluator between two runs, with what the last one left on its stack. -/
structure Evaluator (β : Type) where
  stack : List (Operand β)

namespace Evaluator

def fresh {β : Type} : Evaluator β := ⟨[]⟩

def run (ev : Evaluator β) (p : Program β) (inputs : List (Operand β)) :
    Except Error (Operand β) × Evaluator β :=
  match p.checkInputs inputs with
  | .error e => (.error e, ev)
  | .ok () =>
    match Slot.executeAll inputs p.slots with
    | .error halt => (.error halt.error, ⟨halt.residue⟩)
    | .ok [] => (.error .emptyExpression, ⟨[]⟩)
    | .ok [x] => (.ok x, ⟨[]⟩)
    | .ok stack => (.error (.tooManyOperands stack.length), ⟨stack⟩)

end Evaluator

def Program.eval (p : Program β) (inputs : List (Operand β)) : Except Error (Operand β) :=
  (Evaluator.fresh.run p inputs).1

def evaluateImmediate (tokens : List (Token β)) : Except Error (Operand β) := do
  (← compile [] tokens).eval []

end MatrixCalculator
