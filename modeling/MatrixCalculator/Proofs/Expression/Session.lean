import MatrixCalculator.Proofs.Expression.Running
set_option autoImplicit false

/-!
One evaluator for many calls. A failed run may leave operands on the stack, and a call that is
refused at the door leaves there what it found, so between calls the stack may hold anything. No
later call sees it: the results of a session are those of fresh evaluators, and what the evaluator
holds at the end goes back to the last call that was let in.
-/

namespace MatrixCalculator.Evaluator

variable {β : Type}

def cleared (_ : Evaluator β) : Evaluator β := ⟨[]⟩

/-- What the stack amounts to at the end of a run; a single operand is taken off as the result. -/
def conclude (ev : Evaluator β) : Except Error (Operand β) × Evaluator β :=
  match ev.stack with
  | [] => (.error .emptyExpression, ev)
  | [x] => (.ok x, ⟨[]⟩)
  | stack => (.error (.tooManyOperands stack.length), ev)

variable [ElementaryFunctions β]

/-- Executes a slot on the evaluator's own stack. A slot that fails leaves its residue there. -/
def perform (inputs : List (Operand β)) (ev : Evaluator β) (slot : Slot β) : Update (Evaluator β) :=
  match slot.execute inputs ev.stack with
  | .ok stack => .done ⟨stack⟩
  | .error halt => .refused halt.error ⟨halt.residue⟩

def performAll (inputs : List (Operand β)) : Evaluator β → List (Slot β) → Update (Evaluator β)
  | ev, [] => .done ev
  | ev, slot :: slots =>
    let u := ev.perform inputs slot
    match u.refusal with
    | none => performAll inputs u.state slots
    | some e => .refused e u.state

/-- A run in place. The stack still holds what earlier runs have left, until it is cleared. -/
def runInPlace (ev : Evaluator β) (p : Program β) (inputs : List (Operand β)) :
    Except Error (Operand β) × Evaluator β :=
  match p.checkInputs inputs with
  | .error e => (.error e, ev)
  | .ok () =>
    let u := performAll inputs ev.cleared p.slots
    match u.refusal with
    | none => u.state.conclude
    | some e => (.error e, u.state)

theorem performAll_eq (inputs : List (Operand β)) (ev : Evaluator β) (slots : List (Slot β)) :
    performAll inputs ev slots =
      match slots.foldlM (Slot.execute inputs) ev.stack with
      | .ok stack => .done ⟨stack⟩
      | .error halt => .refused halt.error ⟨halt.residue⟩ := by
  induction slots generalizing ev with
  | nil => rfl
  | cons slot slots ih =>
    rw [performAll, perform, List.foldlM_cons]
    cases slot.execute inputs ev.stack with
    | ok stack => exact ih ⟨stack⟩
    | error halt => rfl

theorem runInPlace_eq_run (ev : Evaluator β) (p : Program β) (inputs : List (Operand β)) :
    ev.runInPlace p inputs = ev.run p inputs := by
  unfold runInPlace run
  cases p.checkInputs inputs with
  | error e => rfl
  | ok accepted =>
    have hslots : performAll inputs ev.cleared p.slots =
        match Slot.executeAll inputs p.slots with
        | .ok stack => .done ⟨stack⟩
        | .error halt => .refused halt.error ⟨halt.residue⟩ := performAll_eq inputs ev.cleared p.slots
    dsimp only
    rw [hslots]
    cases Slot.executeAll inputs p.slots with
    | error halt => rfl
    | ok stack =>
      match stack with
      | [] => rfl
      | [x] => rfl
      | x :: y :: rest => rfl

/-- Makes the calls one after another in place, on an evaluator that each call hands on to the next. -/
def runAll (ev : Evaluator β) :
    List (Program β × List (Operand β)) → List (Except Error (Operand β)) × Evaluator β
  | [] => ([], ev)
  | (p, inputs) :: calls =>
    let (result, next) := ev.runInPlace p inputs
    let (results, last) := next.runAll calls
    (result :: results, last)

theorem runAll_cons (ev : Evaluator β) (call : Program β × List (Operand β))
    (calls : List (Program β × List (Operand β))) :
    ev.runAll (call :: calls) = ((ev.run call.1 call.2).1 ::
      ((ev.run call.1 call.2).2.runAll calls).1, ((ev.run call.1 call.2).2.runAll calls).2) := by
  rw [runAll, runInPlace_eq_run]

def letsIn (call : Program β × List (Operand β)) : Bool := (call.1.checkInputs call.2).isOk

theorem run_of_letsIn (ev : Evaluator β) {call : Program β × List (Operand β)}
    (h : letsIn call = true) : ev.run call.1 call.2 = fresh.run call.1 call.2 := by
  unfold run
  cases hc : call.1.checkInputs call.2 with
  | error e => simp [letsIn, hc, Except.isOk, Except.toBool] at h
  | ok accepted => rfl

theorem run_of_not_letsIn (ev : Evaluator β) {call : Program β × List (Operand β)}
    (h : ¬ letsIn call = true) : ev.run call.1 call.2 = ((fresh.run call.1 call.2).1, ev) := by
  unfold run
  cases hc : call.1.checkInputs call.2 with
  | error e => rfl
  | ok accepted => simp [letsIn, hc, Except.isOk, Except.toBool] at h

/-- Each call of a session ends as it does on a fresh evaluator, whatever the evaluator held at the
start and whatever earlier calls have left on its stack. What is on the stack at the end was left by
the last call that was let in, and a run in place is a run, with its result and its residue. -/
theorem runAll_eq_fresh (ev : Evaluator β) (calls : List (Program β × List (Operand β))) :
    (ev.runAll calls).1 = calls.map (fun call => (fresh.run call.1 call.2).1) ∧
    (ev.runAll calls).2 =
      (calls.filter letsIn).getLast?.elim ev (fun call => (fresh.run call.1 call.2).2) ∧
    ∀ p inputs, ev.runInPlace p inputs = ev.run p inputs := by
  refine ⟨?_, ?_, ev.runInPlace_eq_run⟩
  · induction calls generalizing ev with
    | nil => rfl
    | cons call calls ih =>
      rw [runAll_cons, List.map_cons]
      by_cases h : letsIn call = true
      · rw [run_of_letsIn ev h, ih]
      · rw [run_of_not_letsIn ev h, ih]
  · induction calls generalizing ev with
    | nil => rfl
    | cons call calls ih =>
      rw [runAll_cons]
      by_cases h : letsIn call = true
      · rw [run_of_letsIn ev h, ih, List.filter_cons_of_pos h, List.getLast?_cons]
        cases (calls.filter letsIn).getLast? <;> rfl
      · rw [run_of_not_letsIn ev h, ih, List.filter_cons_of_neg h]

/-- The first call leaves two operands on the stack, and the second does not see them. -/
example (a b c : Scalar β) :
    (fresh.runAll [(⟨[], [.constant (.scalar a), .constant (.scalar b)]⟩, []),
      (⟨[], [.constant (.scalar c)]⟩, [])]).1 = [.error (.tooManyOperands 2), .ok (.scalar c)] :=
  rfl

end MatrixCalculator.Evaluator
