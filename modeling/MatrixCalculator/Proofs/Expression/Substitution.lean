import MatrixCalculator.Proofs.Expression.Binding
import MatrixCalculator.Proofs.Expression.Registration
set_option autoImplicit false

/-!
Binding a variable and writing its value down come to the same. Tokens are closed by putting for each
variable the input at the place where it is registered, slots by putting for each variable the input
at its position. Compiling closed tokens gives the closed program, and a closed program runs without
inputs as the open one runs with them.
-/

namespace MatrixCalculator

variable {β : Type}

def Token.closed (registered : List Variable) (inputs : List (Operand β)) : Token β → Token β
  | .constant x => .constant x
  | .variable v =>
    match inputs[registered.idxOf v]? with
    | some x => .constant x
    | none => .variable v
  | .symbol name => .symbol name

def Slot.closed (inputs : List (Operand β)) : Slot β → Slot β
  | .constant x => .constant x
  | .variable v position =>
    match inputs[position]? with
    | some x => .constant x
    | none => .variable v position
  | .operation op => .operation op

@[simp] theorem Slot.closed_operations (inputs : List (Operand β)) (ops : List Operator) :
    (ops.map .operation).map (closed inputs) = ops.map .operation := by
  simp [closed]

variable [ElementaryFunctions β] {registered : List Variable} {inputs : List (Operand β)}
  {tokens : List (Token β)}

namespace Pending

theorem map_closed_of_step_symbol {index : Nat} {stack next : List Pending} {name : String}
    {slots : List (Slot β)} (h : step registered index stack (.symbol name) = .ok (slots, next)) :
    slots.map (Slot.closed inputs) = slots := by
  cases step_eq_ok_iff.1 h with
  | opening => rfl
  | closing released => exact Slot.closed_operations inputs released
  | @operator _ _ released => exact Slot.closed_operations inputs released

theorem step_closed (distinct : (registered.map Variable.id).Nodup)
    (length : inputs.length = registered.length) (finite : ∀ x ∈ inputs, x.isFinite = true)
    {t : Token β} (known : ∀ v, t = .variable v → v ∈ registered) (index : Nat)
    (stack : List Pending) :
    step [] index stack (t.closed registered inputs) =
      (step registered index stack t).map fun r => (r.1.map (Slot.closed inputs), r.2) := by
  cases t with
  | constant x =>
    by_cases hx : x.isFinite = true <;> simp [Token.closed, step, hx, Except.map, Slot.closed]
  | «variable» v =>
    have hv := known v rfl
    have hi : registered.idxOf v < inputs.length := length ▸ List.idxOf_lt_length_of_mem hv
    have hx := finite _ (List.getElem_mem hi)
    simp [Token.closed, step, findIdx?_id_eq_idxOf distinct hv, List.getElem?_eq_getElem hi, hx,
      Except.map, Slot.closed]
  | symbol name =>
    -- parentheses and operators are read without a look at the variables
    have hsame : step [] index stack (Token.symbol (β := β) name) =
        step registered index stack (.symbol name) := rfl
    rw [Token.closed, hsame]
    cases hs : step registered index stack (Token.symbol (β := β) name) with
    | error e => rfl
    | ok r => rw [Except.map, map_closed_of_step_symbol hs]

theorem scan_closed (distinct : (registered.map Variable.id).Nodup)
    (length : inputs.length = registered.length) (finite : ∀ x ∈ inputs, x.isFinite = true)
    (known : ∀ v, .variable v ∈ tokens → v ∈ registered) (index : Nat) (stack : List Pending) :
    scan [] index stack (tokens.map (Token.closed registered inputs)) =
      (scan registered index stack tokens).map fun r => (r.1.map (Slot.closed inputs), r.2) := by
  induction tokens generalizing index stack with
  | nil => rfl
  | cons t ts ih =>
    have hstep := step_closed distinct length finite
      (fun v hv => known v (hv ▸ List.mem_cons_self)) index stack
    rw [List.map_cons, scan_cons, scan_cons, hstep]
    cases step registered index stack t with
    | error e => rfl
    | ok r =>
      have hrest := ih (fun v hv => known v (List.mem_cons_of_mem t hv)) (index + 1) r.2
      simp only [Except.map, Except.bind, hrest]
      cases scan registered (index + 1) r.2 ts with
      | error e => rfl
      | ok r' => simp

end Pending

theorem compile_closed (distinct : (registered.map Variable.id).Nodup)
    (length : inputs.length = registered.length) (finite : ∀ x ∈ inputs, x.isFinite = true)
    (known : ∀ v, .variable v ∈ tokens → v ∈ registered) :
    compile [] (tokens.map (Token.closed registered inputs)) =
      (compile registered tokens).map fun p => ⟨[], p.slots.map (Slot.closed inputs)⟩ := by
  have hd := duplicateIndex?_eq_none.2 (not_repeats_of_nodup distinct)
  have hscan := Pending.scan_closed distinct length finite known 0 []
  rw [compile_of_distinct rfl, compile_of_distinct hd, hscan]
  cases Pending.scan registered 0 [] tokens with
  | error e => rfl
  | ok r =>
    simp only [Except.map, Except.bind]
    cases Pending.flush r.2 with
    | error e => rfl
    | ok waiting => simp [Slot.closed]

namespace Slot

theorem execute_closed {slot : Slot β} (h : slot.Bound inputs) (stack : List (Operand β)) :
    execute [] stack (slot.closed inputs) = execute inputs stack slot := by
  cases slot with
  | constant x => rfl
  | «variable» v position =>
    obtain ⟨x, hx, hinput⟩ := h
    simp only [closed, hx, execute, hinput]
  | operation op => cases op <;> rfl

theorem run_closed {slots : List (Slot β)} (h : ∀ slot ∈ slots, slot.Bound inputs)
    (stack : List (Operand β)) :
    (slots.map (closed inputs)).foldlM (execute []) stack = slots.foldlM (execute inputs) stack := by
  induction slots generalizing stack with
  | nil => rfl
  | cons slot slots ih =>
    obtain ⟨hslot, hrest⟩ := List.forall_mem_cons.1 h
    rw [List.map_cons, List.foldlM_cons, List.foldlM_cons, execute_closed hslot]
    exact bind_congr fun next => ih hrest next

end Slot

theorem Program.eval_closed {p : Program β} (accepted : p.checkInputs inputs = .ok ())
    (h : ∀ slot ∈ p.slots, slot.Bound inputs) :
    (⟨[], p.slots.map (Slot.closed inputs)⟩ : Program β).eval [] = p.eval inputs := by
  rw [eval_eq, eval_eq, accepted, Slot.executeAll, Slot.executeAll, Slot.run_closed h]
  rfl

/-- Registered variables bound to finite inputs of their kinds can be written as literals: compiling
and running ends in the same way, with the same operand or the same error, raised when it is compiled
or when it is run. -/
theorem evaluateImmediate_closed (distinct : (registered.map Variable.id).Nodup)
    (known : ∀ v, .variable v ∈ tokens → v ∈ registered)
    (kinds : inputs.map Operand.kind = registered.map Variable.kind)
    (finite : ∀ x ∈ inputs, x.isFinite = true) :
    evaluateImmediate (tokens.map (Token.closed registered inputs)) =
      (compile registered tokens).bind fun p => p.eval inputs := by
  have length : inputs.length = registered.length := by simpa using congrArg List.length kinds
  have hcompile := compile_closed distinct length finite known
  rw [evaluateImmediate, hcompile]
  cases hp : compile registered tokens with
  | error e => rfl
  | ok p =>
    have hbound := bound_of_compile (consistent_of_mem distinct known) kinds hp
    obtain ⟨-, emitted, waiting, -, rfl⟩ := compile_eq_ok_iff.1 hp
    exact Program.eval_closed (Program.checkInputs_eq_ok.2 kinds) hbound

theorem evaluateImmediate_closed_leftover :
    ([⟨7, .scalar⟩, ⟨3, .matrix⟩].map Variable.id).Nodup ∧
      evaluateImmediate (β := Float) [.constant (.matrix (.zeros 2 1)), .symbol "*",
          .constant (.scalar ⟨2, 0⟩), .constant (.scalar ⟨2, 0⟩)] =
        (compile [⟨7, .scalar⟩, ⟨3, .matrix⟩] [.variable ⟨3, .matrix⟩, .symbol "*",
          .variable ⟨7, .scalar⟩, .variable ⟨7, .scalar⟩]).bind fun p =>
            p.eval [.scalar ⟨2, 0⟩, .matrix (.zeros 2 1)] :=
  have distinct : ([⟨7, .scalar⟩, ⟨3, .matrix⟩].map Variable.id).Nodup := by decide
  have known : ∀ v, Token.variable (β := Float) v ∈ [.variable ⟨3, .matrix⟩, .symbol "*",
      .variable ⟨7, .scalar⟩, .variable ⟨7, .scalar⟩] → v ∈ [⟨7, .scalar⟩, ⟨3, .matrix⟩] := by
    simp [or_comm]
  have finite : ∀ x ∈ [Operand.scalar (β := Float) ⟨2, 0⟩, .matrix (.zeros 2 1)],
      x.isFinite = true :=
    List.forall_mem_cons.2 ⟨rfl, List.forall_mem_singleton.2 rfl⟩
  ⟨distinct, evaluateImmediate_closed distinct known rfl finite⟩

end MatrixCalculator
