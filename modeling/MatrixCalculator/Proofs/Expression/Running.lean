import MatrixCalculator.Expression.Evaluate
import MatrixCalculator.Proofs.Ends
set_option autoImplicit false

/-!
Runs seen from outside: the error that stopped a run, without the operands it left behind.
-/

namespace MatrixCalculator

variable {β : Type} [ElementaryFunctions β]

theorem mapError_bind {ε δ α γ : Type} (g : ε → δ) (x : Except ε α) (f : α → Except ε γ) :
    (x >>= f).mapError g = (x.mapError g).bind fun a => (f a).mapError g := by
  cases x <;> rfl

namespace Slot

def outcome {α : Type} : List α → Except Error α
  | [] => .error .emptyExpression
  | [x] => .ok x
  | stack => .error (.tooManyOperands stack.length)

theorem mapError_push {β : Type} (x : Operand β) (stack : List (Operand β)) :
    (push x stack).mapError Halt.error =
      if stack.length < maxStackDepth then .ok (x :: stack) else .error .operandStackFull := by
  unfold push
  split <;> rfl

theorem mapError_deliver {β : Type} (rest : List (Operand β)) (result : Except Error (Operand β)) :
    (deliver rest result).mapError Halt.error = result.map (· :: rest) := by
  cases result <;> rfl

theorem mem_of_input_eq_ok {β : Type} {inputs : List (Operand β)} {v : Variable} {position : Nat}
    {x : Operand β} (h : input inputs v position = .ok x) : x ∈ inputs := by
  unfold input Variable.bind at h
  split at h
  · next y hy =>
    obtain ⟨-, -, hxy⟩ := bind_eq_ok_iff.1 h
    cases hxy
    exact List.mem_of_getElem? hy
  · cases h

/-- Inputs that are accepted have an operand of the right kind for every registered variable. -/
theorem input_eq_ok {β : Type} {registered : List Variable} {inputs : List (Operand β)}
    (bound : inputs.map Operand.kind = registered.map Variable.kind) {v : Variable} {position : Nat}
    (h : registered[position]? = some v) :
    ∃ x, inputs[position]? = some x ∧ input inputs v position = .ok x := by
  have hk := congrArg (·[position]?) bound
  simp only [List.getElem?_map, h, Option.map_some, Option.map_eq_some_iff] at hk
  obtain ⟨x, hx, hk⟩ := hk
  refine ⟨x, hx, ?_⟩
  simp [input, hx, Variable.bind, Variable.accepts, hk, bind, Except.bind, pure, Except.pure]

end Slot

theorem Program.eval_eq (p : Program β) (inputs : List (Operand β)) :
    p.eval inputs =
      (p.checkInputs inputs).bind fun _ =>
        ((Slot.executeAll inputs p.slots).mapError Halt.error).bind Slot.outcome := by
  unfold Program.eval Evaluator.run
  cases p.checkInputs inputs with
  | error e => rfl
  | ok _ =>
    simp only [Except.bind]
    cases Slot.executeAll inputs p.slots with
    | error halt => rfl
    | ok stack =>
      match stack with
      | [] => rfl
      | [x] => rfl
      | x :: y :: rest => rfl

end MatrixCalculator
