import MatrixCalculator.Proofs.Expression.Accounting
set_option autoImplicit false

/-!
Inputs are checked once, at the door. A program is run only on one input of the right kind for each
registered variable, and the position of a variable slot is the place where its variable is
registered; so no slot reads past the inputs, and none finds an input of another kind. Whether the
inputs are refused, and why, does not depend on what the program would do with them.
-/

namespace MatrixCalculator

variable {β : Type}

structure FirstMismatch (registered : List Variable) (inputs : List (Operand β)) (i : Nat)
    (expected found : Kind) : Prop where
  expected_eq : registered[i]?.map Variable.kind = some expected
  found_eq : inputs[i]?.map Operand.kind = some found
  differ : found ≠ expected
  before : ∀ j < i, inputs[j]?.map Operand.kind = registered[j]?.map Variable.kind

theorem firstMismatch_zero_iff {v : Variable} {registered : List Variable} {x : Operand β}
    {inputs : List (Operand β)} {expected found : Kind} :
    FirstMismatch (v :: registered) (x :: inputs) 0 expected found ↔
      v.kind = expected ∧ x.kind = found ∧ x.kind ≠ v.kind := by
  constructor
  · rintro ⟨hexpected, hfound, hdiffer, -⟩
    simp only [List.getElem?_cons_zero, Option.map_some, Option.some.injEq] at hexpected hfound
    exact ⟨hexpected, hfound, by rwa [hexpected, hfound]⟩
  · rintro ⟨rfl, rfl, hdiffer⟩
    exact ⟨rfl, rfl, hdiffer, fun j hj => absurd hj (Nat.not_lt_zero j)⟩

theorem firstMismatch_succ_iff {v : Variable} {registered : List Variable} {x : Operand β}
    {inputs : List (Operand β)} {i : Nat} {expected found : Kind} :
    FirstMismatch (v :: registered) (x :: inputs) (i + 1) expected found ↔
      x.kind = v.kind ∧ FirstMismatch registered inputs i expected found := by
  constructor
  · rintro ⟨hexpected, hfound, hdiffer, hbefore⟩
    refine ⟨by simpa using hbefore 0 (Nat.succ_pos i), hexpected, hfound, hdiffer, fun j hj => ?_⟩
    simpa using hbefore (j + 1) (Nat.succ_lt_succ hj)
  · rintro ⟨hkind, hexpected, hfound, hdiffer, hbefore⟩
    refine ⟨hexpected, hfound, hdiffer, fun j hj => ?_⟩
    cases j with
    | zero => simp [hkind]
    | succ j => simpa using hbefore j (Nat.lt_of_succ_lt_succ hj)

namespace Program

theorem checkKinds_eq_error {registered : List Variable} {inputs : List (Operand β)} {e : Error} :
    checkKinds registered inputs = .error e ↔
      ∃ i expected found, FirstMismatch registered inputs i expected found ∧
        e = .kindMismatch expected found := by
  induction registered generalizing inputs with
  | nil =>
    refine iff_of_false (by simp [checkKinds]) ?_
    rintro ⟨i, expected, found, h, -⟩
    simpa using h.expected_eq
  | cons v registered ih =>
    cases inputs with
    | nil =>
      refine iff_of_false (by simp [checkKinds]) ?_
      rintro ⟨i, expected, found, h, -⟩
      simpa using h.found_eq
    | cons x inputs =>
      rw [checkKinds, Variable.accepts]
      by_cases hk : x.kind = v.kind
      · rw [if_pos hk]
        refine ih.trans ⟨?_, ?_⟩
        · rintro ⟨i, expected, found, h, he⟩
          exact ⟨i + 1, expected, found, firstMismatch_succ_iff.2 ⟨hk, h⟩, he⟩
        · rintro ⟨i, expected, found, h, he⟩
          cases i with
          | zero => exact absurd hk (firstMismatch_zero_iff.1 h).2.2
          | succ i => exact ⟨i, expected, found, (firstMismatch_succ_iff.1 h).2, he⟩
      · rw [if_neg hk]
        constructor
        · rintro ⟨⟩
          exact ⟨0, v.kind, x.kind, firstMismatch_zero_iff.2 ⟨rfl, rfl, hk⟩, rfl⟩
        · rintro ⟨i, expected, found, h, rfl⟩
          cases i with
          | zero =>
            obtain ⟨rfl, rfl, -⟩ := firstMismatch_zero_iff.1 h
            rfl
          | succ i => exact absurd (firstMismatch_succ_iff.1 h).1 hk

theorem checkInputs_eq_error {p : Program β} {inputs : List (Operand β)} {e : Error} :
    p.checkInputs inputs = .error e ↔
      (inputs.length ≠ p.variableCount ∧ e = .arityMismatch p.variableCount inputs.length) ∨
      (inputs.length = p.variableCount ∧ ∃ i expected found,
        FirstMismatch p.registered inputs i expected found ∧ e = .kindMismatch expected found) := by
  unfold checkInputs
  split
  · next h => simp [h, checkKinds_eq_error]
  · next h => simp [h, eq_comm]

end Program

/-- The errors that refuse inputs before a program is run. -/
def Error.RefusesInputs : Error → Prop
  | .arityMismatch .. | .kindMismatch .. => True
  | _ => False

theorem Error.IsAlgebraic.not_refusesInputs {e : Error} (algebraic : e.IsAlgebraic) :
    ¬ e.RefusesInputs := by
  intro h
  unfold RefusesInputs at h
  split at h
  · exact algebraic
  · exact algebraic
  · exact h

theorem Slot.Stops.not_refusesInputs {depth : Nat} {slot : Slot β} {e : Error}
    (h : Slot.Stops depth slot e) : ¬ e.RefusesInputs := by
  cases h with
  | full => exact id
  | insufficient => exact id
  | refused arity h algebraic => exact algebraic.not_refusesInputs
  | unknown => exact id

variable [ElementaryFunctions β]

namespace Program

variable {p : Program β} {inputs : List (Operand β)} {e : Error}

theorem eval_of_refused (h : p.checkInputs inputs = .error e) : p.eval inputs = .error e := by
  rw [eval_eq, h]
  rfl

theorem not_refusesInputs_of_eval (accepted : p.checkInputs inputs = .ok ())
    (hslots : ∀ slot ∈ p.slots, slot.Bound inputs) (h : p.eval inputs = .error e) :
    ¬ e.RefusesInputs := by
  obtain ⟨stack, -, hend⟩ | ⟨i, slot, depth, -, -, -, hstops⟩ :=
    cases_of_eval_eq_error accepted hslots h
  · obtain rfl | rfl := Slot.outcome_eq_error hend <;> exact id
  · exact hstops.not_refusesInputs

/-- The errors about inputs are those of the check, and the check has them all. -/
theorem eval_eq_error_iff_of_refusesInputs (he : e.RefusesInputs)
    (hslots : p.checkInputs inputs = .ok () → ∀ slot ∈ p.slots, slot.Bound inputs) :
    p.eval inputs = .error e ↔ p.checkInputs inputs = .error e := by
  refine ⟨fun h => ?_, eval_of_refused⟩
  cases hc : p.checkInputs inputs with
  | error refusal =>
    rw [eval_of_refused hc] at h
    cases h
    rfl
  | ok accepted => exact absurd he (not_refusesInputs_of_eval hc (hslots hc) h)

end Program

/-- What holds of all inputs, whatever the slots of the program would do with them. -/
structure ChecksInputs (p : Program β) (inputs : List (Operand β)) : Prop where
  /-- Once the inputs are let in, each variable slot finds one, and of its own kind. -/
  bound : p.checkInputs inputs = .ok () → ∀ v position, .variable v position ∈ p.slots →
    ∃ x, inputs[position]? = some x ∧ v.bind x = .ok x
  /-- Inputs that are too few or too many are refused first. -/
  arity (expected found : Nat) : p.eval inputs = .error (.arityMismatch expected found) ↔
    inputs.length ≠ p.variableCount ∧ expected = p.variableCount ∧ found = inputs.length
  /-- Then the first input of a wrong kind is reported, whether or not a slot would read it. -/
  kinds (expected found : Kind) : p.eval inputs = .error (.kindMismatch expected found) ↔
    inputs.length = p.variableCount ∧ ∃ i, FirstMismatch p.registered inputs i expected found

variable {registered : List Variable} {tokens : List (Token β)} {p : Program β}

/-- In a compiled program every variable slot holds the place where its variable is registered, so
that it is enough to check the inputs once, before the run. -/
theorem compile_checksInputs (consistent : Consistent registered tokens)
    (compiled : compile registered tokens = .ok p) :
    (∀ v position, .variable v position ∈ p.slots →
      position < p.variableCount ∧ p.registered[position]? = some v) ∧
    ∀ inputs, ChecksInputs p inputs := by
  have hregistered := registered_of_compile compiled
  have hposition : ∀ v position, .variable v position ∈ p.slots →
      p.registered[position]? = some v := fun v position hslot =>
    hregistered ▸ registered_of_mem_compile consistent compiled hslot
  refine ⟨fun v position hslot => ?_, fun inputs => ?_⟩
  · have hfound := hposition v position hslot
    exact ⟨(List.getElem?_eq_some_iff.1 hfound).1, hfound⟩
  · have hbound (accepted : p.checkInputs inputs = .ok ()) : ∀ slot ∈ p.slots, slot.Bound inputs :=
      bound_of_compile consistent (hregistered ▸ Program.checkInputs_eq_ok.1 accepted) compiled
    refine ⟨fun accepted v position hslot => ?_, fun expected found => ?_, fun expected found => ?_⟩
    · obtain ⟨x, hx, hinput⟩ := hbound accepted _ hslot
      exact ⟨x, hx, by simpa [Slot.input, hx] using hinput⟩
    · rw [Program.eval_eq_error_iff_of_refusesInputs (e := .arityMismatch expected found) trivial hbound,
        Program.checkInputs_eq_error]
      simp
    · rw [Program.eval_eq_error_iff_of_refusesInputs (e := .kindMismatch expected found) trivial hbound,
        Program.checkInputs_eq_error]
      simp

/-- The tokens `* x` over x and y, a scalar and a matrix: the second input is of the wrong kind,
though nothing would read it, and though the product lacks an operand. -/
theorem compile_checksInputs_unread :
    Consistent (β := Float) [⟨7, .scalar⟩, ⟨3, .matrix⟩] [.symbol "*", .variable ⟨7, .scalar⟩] ∧
    compile (β := Float) [⟨7, .scalar⟩, ⟨3, .matrix⟩] [.symbol "*", .variable ⟨7, .scalar⟩] =
      .ok ⟨[⟨7, .scalar⟩, ⟨3, .matrix⟩],
        [.variable ⟨7, .scalar⟩ 0, .operation (.binary .multiply)]⟩ ∧
    Program.eval (β := Float) ⟨[⟨7, .scalar⟩, ⟨3, .matrix⟩],
        [.variable ⟨7, .scalar⟩ 0, .operation (.binary .multiply)]⟩
        [.scalar ⟨2, 0⟩, .scalar ⟨5, 1⟩] =
      .error (.kindMismatch .matrix .scalar) := by
  have consistent : Consistent (β := Float) [⟨7, .scalar⟩, ⟨3, .matrix⟩]
      [.symbol "*", .variable ⟨7, .scalar⟩] := consistent_of_mem (by decide) (by simp)
  have compiled : compile (β := Float) [⟨7, .scalar⟩, ⟨3, .matrix⟩]
      [.symbol "*", .variable ⟨7, .scalar⟩] = .ok ⟨[⟨7, .scalar⟩, ⟨3, .matrix⟩],
        [.variable ⟨7, .scalar⟩ 0, .operation (.binary .multiply)]⟩ := rfl
  have checks := (compile_checksInputs consistent compiled).2 [.scalar ⟨2, 0⟩, .scalar ⟨5, 1⟩]
  refine ⟨consistent, compiled, (checks.kinds .matrix .scalar).2 ⟨rfl, 1, ?_⟩⟩
  exact firstMismatch_succ_iff.2 ⟨rfl, firstMismatch_zero_iff.2 ⟨rfl, rfl, by decide⟩⟩

end MatrixCalculator
