import MatrixCalculator.Proofs.Expression.Binding
import MatrixCalculator.Proofs.Expression.Popping
import MatrixCalculator.Proofs.Operator.Algebraic
set_option autoImplicit false

/-!
How many operands wait. Each operand adds one, each binary operator takes two and gives one, so
before any slot as many wait as there are operands less binary operators among the slots before it.
From this follows which of its errors the operand stack raises, and what the tokens tell of it.
-/

namespace MatrixCalculator

variable {β : Type}

/-- How many operands an operator takes; an unknown one is never applied. -/
def Operator.arity? : Operator → Option Nat
  | .unary _ => some 1
  | .binary _ => some 2
  | .unknown _ => none

def Operator.isBinary : Operator → Bool
  | .binary _ => true
  | .unary _ | .unknown _ => false

theorem Operator.one_le_of_arity? {op : Operator} {needed : Nat} (h : op.arity? = some needed) :
    1 ≤ needed := by
  cases op <;> cases h <;> decide

def Token.height (tokens : List (Token β)) : Int :=
  (operands tokens).length - (operators tokens).countP Operator.isBinary

namespace Slot

def height (slots : List (Slot β)) : Int :=
  (operands slots).length - (operators slots).countP Operator.isBinary

@[simp] theorem height_nil : height ([] : List (Slot β)) = 0 := rfl

theorem height_append (xs ys : List (Slot β)) : height (xs ++ ys) = height xs + height ys := by
  simp only [height, operands_append, operators_append, List.length_append, List.countP_append]
  omega

inductive Stops (depth : Nat) : Slot β → Error → Prop where
  | full {slot : Slot β} (operand : slot.isOperand = true) (h : maxStackDepth ≤ depth) :
      Stops depth slot .operandStackFull
  | insufficient {op : Operator} {needed : Nat} (arity : op.arity? = some needed)
      (h : depth < needed) :
      Stops depth (.operation op) (.insufficientOperands op needed depth)
  | refused {op : Operator} {needed : Nat} {e : Error} (arity : op.arity? = some needed)
      (h : needed ≤ depth) (algebraic : e.IsAlgebraic) : Stops depth (.operation op) e
  | unknown (name : String) :
      Stops depth (.operation (.unknown name)) (.unsupportedOperation name)

theorem Stops.insufficientOperands_iff {depth : Nat} {slot : Slot β} {e : Error}
    (h : Stops depth slot e) {op : Operator} {needed available : Nat} :
    e = .insufficientOperands op needed available ↔
      slot = .operation op ∧ op.arity? = some needed ∧ depth = available ∧ available < needed := by
  cases h with
  | full operand => cases slot <;> simp_all [isOperand]
  | insufficient arity h =>
    constructor
    · rintro ⟨⟩
      exact ⟨rfl, arity, rfl, h⟩
    · rintro ⟨⟨⟩, arity', rfl, -⟩
      cases arity.symm.trans arity'
      rfl
  | refused arity h algebraic =>
    constructor
    · rintro rfl
      exact algebraic.elim
    · rintro ⟨⟨⟩, arity', rfl, hlt⟩
      cases arity.symm.trans arity'
      omega
  | unknown name =>
    constructor
    · rintro ⟨⟩
    · rintro ⟨⟨⟩, arity, -⟩
      cases arity

theorem Stops.operandStackFull_iff {depth : Nat} {slot : Slot β} {e : Error}
    (h : Stops depth slot e) :
    e = .operandStackFull ↔ slot.isOperand = true ∧ maxStackDepth ≤ depth := by
  cases h with
  | full operand h => exact iff_of_true rfl ⟨operand, h⟩
  | insufficient => simp [isOperand]
  | refused arity h algebraic =>
    refine iff_of_false ?_ (by simp [isOperand])
    rintro rfl
    exact algebraic
  | unknown => simp [isOperand]

/-- Executing slots changes how many operands wait by the height of the slots; the stack is never
too high and, once a slot was executed, never empty. -/
structure Balanced (stack next : List (Operand β)) (slots : List (Slot β)) : Prop where
  length_eq : (next.length : Int) = stack.length + height slots
  length_le : stack.length ≤ maxStackDepth → next.length ≤ maxStackDepth
  nonempty : slots ≠ [] → 0 < next.length

variable {inputs stack middle next : List (Operand β)} {slot : Slot β} {xs ys slots : List (Slot β)}

theorem Balanced.append (hxs : Balanced stack middle xs) (hys : Balanced middle next ys) :
    Balanced stack next (xs ++ ys) := by
  refine ⟨?_, fun h => hys.length_le (hxs.length_le h), fun hne => ?_⟩
  · rw [hys.length_eq, hxs.length_eq, height_append, Int.add_assoc]
  · cases ys with
    | nil =>
      have hmiddle := hxs.nonempty (by simpa using hne)
      have hnext := hys.length_eq
      rw [height_nil] at hnext
      omega
    | cons => exact hys.nonempty (List.cons_ne_nil _ _)

theorem push_ends (x : Operand β) (operand : slot.isOperand = true) (hheight : height [slot] = 1) :
    Ends (Balanced stack · [slot]) (Stops stack.length slot ·.error) (push x stack) := by
  unfold push
  split
  · next h => exact ⟨by simp [hheight], fun _ => Nat.succ_le_of_lt h, fun _ => Nat.succ_pos _⟩
  · next h => exact .full operand (Nat.not_lt.1 h)

/-- The result of an operator takes the place of its operands, so it needs no room. -/
theorem deliver_ends (op : Operator) (taken rest : List (Operand β))
    (arity : op.arity? = some taken.length)
    (hheight : height [(.operation op : Slot β)] = 1 - taken.length)
    {result : Except Error (Operand β)} (h : Algebraic result) :
    Ends (Balanced (taken ++ rest) · [.operation op])
      (Stops (β := β) (taken ++ rest).length (.operation op) ·.error) (deliver rest result) := by
  have hpos := Operator.one_le_of_arity? arity
  cases result with
  | ok x =>
    refine ⟨?_, fun hle => ?_, fun _ => Nat.succ_pos _⟩
    · rw [hheight, List.length_cons, List.length_append]
      omega
    · rw [List.length_append] at hle
      rw [List.length_cons]
      omega
  | error e => exact .refused arity (by simp) h

variable [ElementaryFunctions β]

theorem execute_ends (hslot : slot.Bound inputs) (stack : List (Operand β)) :
    Ends (Balanced stack · [slot]) (Stops stack.length slot ·.error)
      (execute inputs stack slot) := by
  cases slot with
  | constant x => exact push_ends x rfl rfl
  | «variable» v position =>
    obtain ⟨x, -, hinput⟩ := hslot
    rw [execute, hinput]
    exact push_ends x rfl rfl
  | operation op =>
    cases op with
    | unary op =>
      match stack with
      | [] => exact .insufficient rfl Nat.one_pos
      | x :: rest => exact deliver_ends _ [x] rest rfl rfl (op.apply_algebraic x)
    | binary op =>
      match stack with
      | [] => exact .insufficient rfl Nat.two_pos
      | [x] => exact .insufficient rfl Nat.one_lt_two
      | y :: x :: rest => exact deliver_ends _ [y, x] rest rfl rfl (op.apply_algebraic x y)
    | unknown name => exact .unknown name

theorem foldlM_execute_balanced (hslots : ∀ slot ∈ slots, slot.Bound inputs)
    (h : slots.foldlM (execute inputs) stack = .ok next) : Balanced stack next slots := by
  induction slots generalizing stack with
  | nil =>
    cases h
    exact ⟨by simp, id, fun hne => absurd rfl hne⟩
  | cons slot slots ih =>
    obtain ⟨hslot, hrest⟩ := List.forall_mem_cons.1 hslots
    rw [List.foldlM_cons] at h
    obtain ⟨middle, hstep, hrun⟩ := bind_eq_ok_iff.1 h
    have hends := execute_ends hslot stack
    rw [hstep] at hends
    exact hends.append (ih hrest hrun)

theorem outcome_eq_error {α : Type} {stack : List α} {e : Error} (h : outcome stack = .error e) :
    e = .emptyExpression ∨ e = .tooManyOperands stack.length := by
  match stack with
  | [] => exact .inl (Except.error.inj h).symm
  | [_] => cases h
  | _ :: _ :: _ => exact .inr (Except.error.inj h).symm

end Slot

namespace Program

def height (p : Program β) (i : Nat) : Int := Slot.height (p.slots.take i)

variable [ElementaryFunctions β]

def StopsAt (p : Program β) (inputs : List (Operand β)) (i : Nat) (slot : Slot β) : Prop :=
  p.slots[i]? = some slot ∧ ∃ stack halt,
    Slot.executeAll inputs (p.slots.take i) = .ok stack ∧ slot.execute inputs stack = .error halt

variable {p : Program β} {inputs : List (Operand β)} {i : Nat} {slot : Slot β} {e : Error}

theorem eval_of_executeAll (accepted : p.checkInputs inputs = .ok ()) :
    p.eval inputs = ((Slot.executeAll inputs p.slots).mapError Halt.error).bind Slot.outcome := by
  rw [eval_eq, accepted]
  rfl

theorem eval_cases (accepted : p.checkInputs inputs = .ok ()) :
    (∃ stack, Slot.executeAll inputs p.slots = .ok stack ∧ p.eval inputs = Slot.outcome stack) ∨
      ∃ i slot, p.StopsAt inputs i slot := by
  rw [eval_of_executeAll accepted]
  cases hrun : Slot.executeAll inputs p.slots with
  | ok stack => exact .inl ⟨stack, rfl, rfl⟩
  | error halt =>
    obtain ⟨before, slot, after, stack, hslots, hbefore, hslot⟩ := foldlM_eq_error_iff.1 hrun
    refine .inr ⟨before.length, slot, ?_, stack, halt, ?_, hslot⟩
    · simp [hslots]
    · rw [hslots, List.take_left]
      exact hbefore

theorem eval_of_stopsAt (accepted : p.checkInputs inputs = .ok ())
    (hslots : ∀ slot ∈ p.slots, slot.Bound inputs) (h : p.StopsAt inputs i slot) :
    ∃ (depth : Nat) (e : Error), (depth : Int) = p.height i ∧ depth ≤ maxStackDepth ∧
      slot.Stops depth e ∧ p.eval inputs = .error e := by
  obtain ⟨hslot, stack, halt, hbefore, hhalt⟩ := h
  -- the slots before have run, so what waits is what they count
  have hbalanced := Slot.foldlM_execute_balanced
    (fun slot h => hslots slot (List.mem_of_mem_take h)) hbefore
  refine ⟨stack.length, halt.error, ?_, hbalanced.length_le (Nat.zero_le _), ?_, ?_⟩
  · simpa [height] using hbalanced.length_eq
  · have hends := Slot.execute_ends (hslots slot (List.mem_of_getElem? hslot)) stack
    rwa [hhalt] at hends
  · obtain ⟨hlt, rfl⟩ := List.getElem?_eq_some_iff.1 hslot
    have hrun : Slot.executeAll inputs p.slots = .error halt :=
      foldlM_eq_error_iff.2 ⟨_, _, p.slots.drop (i + 1), stack,
        by rw [List.getElem_cons_drop, List.take_append_drop], hbefore, hhalt⟩
    rw [eval_of_executeAll accepted, hrun]
    rfl

theorem cases_of_eval_eq_error (accepted : p.checkInputs inputs = .ok ())
    (hslots : ∀ slot ∈ p.slots, slot.Bound inputs) (h : p.eval inputs = .error e) :
    (∃ stack, Slot.executeAll inputs p.slots = .ok stack ∧ Slot.outcome stack = .error e) ∨
      ∃ (i : Nat) (slot : Slot β) (depth : Nat), p.StopsAt inputs i slot ∧
        (depth : Int) = p.height i ∧ depth ≤ maxStackDepth ∧ slot.Stops depth e := by
  obtain ⟨stack, hrun, heval⟩ | ⟨i, slot, hstops⟩ := eval_cases accepted
  · exact .inl ⟨stack, hrun, heval.symm.trans h⟩
  · obtain ⟨depth, e', hdepth, hle, hreason, heval⟩ := eval_of_stopsAt accepted hslots hstops
    cases heval.symm.trans h
    exact .inr ⟨i, slot, depth, hstops, hdepth, hle, hreason⟩

theorem eval_eq_insufficientOperands_iff (accepted : p.checkInputs inputs = .ok ())
    (hslots : ∀ slot ∈ p.slots, slot.Bound inputs) {op : Operator} {needed available : Nat} :
    p.eval inputs = .error (.insufficientOperands op needed available) ↔
      ∃ i, p.StopsAt inputs i (.operation op) ∧ op.arity? = some needed ∧
        p.height i = available ∧ available < needed := by
  constructor
  · intro h
    obtain ⟨stack, -, hend⟩ | ⟨i, slot, depth, hstops, hdepth, -, hreason⟩ :=
      cases_of_eval_eq_error accepted hslots h
    · obtain h | h := Slot.outcome_eq_error hend <;> cases h
    · obtain ⟨rfl, arity, rfl, hlt⟩ := hreason.insufficientOperands_iff.1 rfl
      exact ⟨i, hstops, arity, hdepth.symm, hlt⟩
  · rintro ⟨i, hstops, arity, hheight, hlt⟩
    obtain ⟨depth, e, hdepth, -, hreason, heval⟩ := eval_of_stopsAt accepted hslots hstops
    have hdepth : depth = available := Int.ofNat.inj (hdepth.trans hheight)
    rw [heval, hreason.insufficientOperands_iff.2 ⟨rfl, arity, hdepth, hlt⟩]

theorem eval_eq_operandStackFull_iff (accepted : p.checkInputs inputs = .ok ())
    (hslots : ∀ slot ∈ p.slots, slot.Bound inputs) :
    p.eval inputs = .error .operandStackFull ↔
      ∃ i slot, p.StopsAt inputs i slot ∧ slot.isOperand = true ∧ p.height i = maxStackDepth := by
  constructor
  · intro h
    obtain ⟨stack, -, hend⟩ | ⟨i, slot, depth, hstops, hdepth, hle, hreason⟩ :=
      cases_of_eval_eq_error accepted hslots h
    · obtain h | h := Slot.outcome_eq_error hend <;> cases h
    · obtain ⟨operand, hge⟩ := hreason.operandStackFull_iff.1 rfl
      exact ⟨i, slot, hstops, operand, by rw [← hdepth, Nat.le_antisymm hle hge]⟩
  · rintro ⟨i, slot, hstops, operand, hheight⟩
    obtain ⟨depth, e, hdepth, -, hreason, heval⟩ := eval_of_stopsAt accepted hslots hstops
    have hdepth : depth = maxStackDepth := Int.ofNat.inj (hdepth.trans hheight)
    rw [heval, hreason.operandStackFull_iff.2 ⟨operand, Nat.le_of_eq hdepth.symm⟩]

theorem eval_eq_emptyExpression_iff (accepted : p.checkInputs inputs = .ok ())
    (hslots : ∀ slot ∈ p.slots, slot.Bound inputs) :
    p.eval inputs = .error .emptyExpression ↔ p.slots = [] := by
  constructor
  · intro h
    obtain ⟨stack, hrun, hend⟩ | ⟨i, slot, depth, -, -, -, hreason⟩ :=
      cases_of_eval_eq_error accepted hslots h
    · match stack with
      | [] =>
        by_contra hne
        exact absurd ((Slot.foldlM_execute_balanced hslots hrun).nonempty hne) (Nat.lt_irrefl 0)
      | [x] => cases hend
      | x :: y :: rest => cases hend
    · cases hreason with
      | refused arity h algebraic => exact algebraic.elim
  · intro h
    rw [eval_of_executeAll accepted, h]
    rfl

theorem height_of_eval_eq_tooManyOperands (accepted : p.checkInputs inputs = .ok ())
    (hslots : ∀ slot ∈ p.slots, slot.Bound inputs) {remaining : Nat}
    (h : p.eval inputs = .error (.tooManyOperands remaining)) :
    (remaining : Int) = Slot.height p.slots ∧ 2 ≤ remaining := by
  obtain ⟨stack, hrun, hend⟩ | ⟨i, slot, depth, -, -, -, hreason⟩ :=
    cases_of_eval_eq_error accepted hslots h
  · have hlength := (Slot.foldlM_execute_balanced hslots hrun).length_eq
    match stack with
    | x :: y :: rest =>
      cases hend
      exact ⟨by simpa using hlength, by simp⟩
  · cases hreason with
    | refused arity h algebraic => exact algebraic.elim

theorem height_of_eval_eq_ok (accepted : p.checkInputs inputs = .ok ())
    (hslots : ∀ slot ∈ p.slots, slot.Bound inputs) {x : Operand β} (h : p.eval inputs = .ok x) :
    Slot.height p.slots = 1 := by
  obtain ⟨stack, hrun, heval⟩ | ⟨i, slot, hstops⟩ := eval_cases accepted
  · have hlength := (Slot.foldlM_execute_balanced hslots hrun).length_eq
    match stack with
    | [] => cases heval.symm.trans h
    | [y] => simpa using hlength.symm
    | y :: z :: rest => cases heval.symm.trans h
  · obtain ⟨depth, e, -, -, -, heval⟩ := eval_of_stopsAt accepted hslots hstops
    cases heval.symm.trans h

end Program

variable [ElementaryFunctions β] {registered : List Variable} {tokens : List (Token β)}
  {p : Program β} {inputs : List (Operand β)}

theorem height_of_compile (compiled : compile registered tokens = .ok p) :
    Slot.height p.slots = Token.height tokens := by
  rw [Slot.height, Token.height, (compile_operands compiled).length_eq,
    (compile_operators_perm compiled).countP_eq]

theorem slots_eq_nil_iff_of_compile (compiled : compile registered tokens = .ok p) :
    p.slots = [] ↔
      ∀ t ∈ tokens, t.isParenthesis .opening = true ∨ t.isParenthesis .closing = true := by
  have hlength := length_of_compile compiled
  rw [← List.length_eq_zero_iff, ← Program.length, hlength, List.countP_eq_zero]
  simp [or_iff_not_imp_left]

/-- How operands are counted in a run of a program, slot by slot, and what each error of the operand
stack tells about the tokens that the program was compiled from. -/
structure Accounts (tokens : List (Token β)) (p : Program β) (inputs : List (Operand β)) :
    Prop where
  /-- After `i` slots as many operands wait as the slots before tell, and never too many. -/
  waiting (i : Nat) (stack : List (Operand β)) :
    Slot.executeAll inputs (p.slots.take i) = .ok stack →
      (stack.length : Int) = p.height i ∧ stack.length ≤ maxStackDepth
  /-- The first slot that cannot be executed is an operator with too few operands. -/
  insufficient (op : Operator) (needed available : Nat) :
    p.eval inputs = .error (.insufficientOperands op needed available) ↔
      ∃ i, p.StopsAt inputs i (.operation op) ∧ op.arity? = some needed ∧
        p.height i = available ∧ available < needed
  /-- The first slot that cannot be executed is an operand without room. -/
  full : p.eval inputs = .error .operandStackFull ↔
    ∃ i slot, p.StopsAt inputs i slot ∧ slot.isOperand = true ∧ p.height i = maxStackDepth
  empty : p.eval inputs = .error .emptyExpression ↔
    ∀ t ∈ tokens, t.isParenthesis .opening = true ∨ t.isParenthesis .closing = true
  tooMany (remaining : Nat) : p.eval inputs = .error (.tooManyOperands remaining) →
    (remaining : Int) = Token.height tokens ∧ 2 ≤ remaining
  single (x : Operand β) : p.eval inputs = .ok x → Token.height tokens = 1
  /-- No operand that is taken from the stack is ever missing. -/
  popping (missing : Error) : p.evalPopping missing inputs = p.eval inputs

/-- Whatever tokens a program was compiled from, an infix expression or not, its runs account for
their operands. -/
theorem compile_accounts (consistent : Consistent registered tokens)
    (compiled : compile registered tokens = .ok p) (accepted : p.checkInputs inputs = .ok ()) :
    Accounts tokens p inputs := by
  -- every variable finds its input, so only the stack and the algebra can stop a slot
  have hslots := bound_of_compile consistent
    (registered_of_compile compiled ▸ Program.checkInputs_eq_ok.1 accepted) compiled
  exact
    { waiting i stack hrun := by
        have hbalanced := Slot.foldlM_execute_balanced
          (fun slot h => hslots slot (List.mem_of_mem_take h)) hrun
        exact ⟨by simpa [Program.height] using hbalanced.length_eq,
          hbalanced.length_le (Nat.zero_le _)⟩
      insufficient _ _ _ := Program.eval_eq_insufficientOperands_iff accepted hslots
      full := Program.eval_eq_operandStackFull_iff accepted hslots
      empty := (Program.eval_eq_emptyExpression_iff accepted hslots).trans
        (slots_eq_nil_iff_of_compile compiled)
      tooMany _ h := height_of_compile compiled ▸
        Program.height_of_eval_eq_tooManyOperands accepted hslots h
      single _ h := height_of_compile compiled ▸
        Program.height_of_eval_eq_ok accepted hslots h
      popping missing := p.evalPopping_eq missing inputs }

theorem compile_accounts_malformed :
    compile (β := Float) [⟨7, .scalar⟩]
        [.variable ⟨7, .scalar⟩, .variable ⟨7, .scalar⟩, .symbol "*", .symbol "*"] =
      .ok ⟨[⟨7, .scalar⟩],
        [.variable ⟨7, .scalar⟩ 0, .variable ⟨7, .scalar⟩ 0, .operation (.binary .multiply),
          .operation (.binary .multiply)]⟩ ∧
    Program.eval (β := Float) ⟨[⟨7, .scalar⟩],
        [.variable ⟨7, .scalar⟩ 0, .variable ⟨7, .scalar⟩ 0, .operation (.binary .multiply),
          .operation (.binary .multiply)]⟩ [.scalar ⟨3, 0⟩] =
      .error (.insufficientOperands (.binary .multiply) 2 1) :=
  have compiled : compile (β := Float) [⟨7, .scalar⟩]
        [.variable ⟨7, .scalar⟩, .variable ⟨7, .scalar⟩, .symbol "*", .symbol "*"] =
      .ok ⟨[⟨7, .scalar⟩],
        [.variable ⟨7, .scalar⟩ 0, .variable ⟨7, .scalar⟩ 0, .operation (.binary .multiply),
          .operation (.binary .multiply)]⟩ := by
    rfl
  have accounts : Accounts (β := Float) _ _ [.scalar ⟨3, 0⟩] :=
    compile_accounts (consistent_of_mem (by decide) (by simp)) compiled rfl
  ⟨compiled, (accounts.insufficient _ _ _).2
    ⟨3, ⟨rfl, _, _, rfl, rfl⟩, rfl, by decide, by decide⟩⟩

end MatrixCalculator
