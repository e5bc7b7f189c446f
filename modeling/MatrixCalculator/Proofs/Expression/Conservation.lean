import Mathlib.Data.List.Forall2
import MatrixCalculator.Binary64
import MatrixCalculator.Proofs.Expression.Advance
import MatrixCalculator.Proofs.Expression.Grouping
set_option autoImplicit false

/-!
What compiling keeps, of any tokens that compile. Operands come out one for one and in order.
Operators take turns on the stack, so their order may change, but at all times those emitted and
those waiting together are the ones read.
-/

namespace MatrixCalculator

variable {β : Type}

namespace Token

def isOperand : Token β → Bool
  | .constant _ | .variable _ => true
  | .symbol _ => false

def operatorName? : Token β → Option String
  | .constant _ | .variable _ => none
  | .symbol name =>
    if name = Parenthesis.opening.symbol ∨ name = Parenthesis.closing.symbol then none else some name

def operator? (t : Token β) : Option Operator := t.operatorName?.bind Operator.ofName?

def operands (tokens : List (Token β)) : List (Token β) := tokens.filter isOperand

def operatorNames (tokens : List (Token β)) : List String := tokens.filterMap operatorName?

def operators (tokens : List (Token β)) : List Operator := tokens.filterMap operator?

theorem operands_append (xs ys : List (Token β)) :
    operands (xs ++ ys) = operands xs ++ operands ys := List.filter_append ..

theorem operators_cons (t : Token β) (ts : List (Token β)) :
    operators (t :: ts) = t.operator?.toList ++ operators ts := by
  cases h : t.operator? <;> simp [operators, h]

theorem not_parenthesis_eq (t : Token β) :
    (!t.isParenthesis .opening && !t.isParenthesis .closing).toNat =
      t.isOperand.toNat + t.operatorName?.isSome.toNat := by
  cases t with
  | constant | «variable» => rfl
  | symbol name =>
    by_cases ho : name = Parenthesis.opening.symbol <;>
      by_cases hc : name = Parenthesis.closing.symbol <;>
        simp [isParenthesis, isOperand, operatorName?, ho, hc]

theorem countP_not_parenthesis (tokens : List (Token β)) :
    tokens.countP (fun t => !t.isParenthesis .opening && !t.isParenthesis .closing) =
      (operands tokens).length + (operatorNames tokens).length := by
  rw [operands, operatorNames, ← List.countP_eq_length_filter, List.length_filterMap_eq_countP]
  induction tokens with
  | nil => rfl
  | cons t ts ih =>
    have ht := t.not_parenthesis_eq
    simp only [List.countP_cons, ih]
    cases hp : (!t.isParenthesis .opening && !t.isParenthesis .closing) <;>
      cases ho : t.isOperand <;> cases hn : t.operatorName?.isSome <;>
        simp [hp, ho, hn] at ht ⊢ <;> omega

end Token

namespace Slot

def isOperand : Slot β → Bool
  | .constant _ | .variable _ _ => true
  | .operation _ => false

def operator? : Slot β → Option Operator
  | .constant _ | .variable _ _ => none
  | .operation op => some op

def operands (slots : List (Slot β)) : List (Slot β) := slots.filter isOperand

def operators (slots : List (Slot β)) : List Operator := slots.filterMap operator?

/-- A slot holds what a token stands for: the constant itself, or the variable with the place where
it is registered. -/
inductive Holds (registered : List Variable) : Token β → Slot β → Prop where
  | constant (x : Operand β) : Holds registered (.constant x) (.constant x)
  | variable {v w : Variable} {position : Nat} (found : registered[position]? = some w)
      (same : w.id = v.id) : Holds registered (.variable v) (.variable v position)

theorem operands_append (xs ys : List (Slot β)) :
    operands (xs ++ ys) = operands xs ++ operands ys := List.filter_append ..

theorem operators_append (xs ys : List (Slot β)) :
    operators (xs ++ ys) = operators xs ++ operators ys := List.filterMap_append

@[simp] theorem operands_operations (ops : List Operator) :
    operands (ops.map (Slot.operation (β := β))) = [] := by
  simp [operands, isOperand]

@[simp] theorem operators_operations (ops : List Operator) :
    operators (ops.map (Slot.operation (β := β))) = ops := by
  simp [operators, List.filterMap_map, Function.comp_def, operator?]

theorem isSome_operator? (slot : Slot β) : slot.operator?.isSome = !slot.isOperand := by
  cases slot <;> rfl

theorem length_eq_operands_add_operators (slots : List (Slot β)) :
    slots.length = (operands slots).length + (operators slots).length := by
  rw [operands, operators, ← List.countP_eq_length_filter, List.length_filterMap_eq_countP,
    List.length_eq_countP_add_countP isOperand]
  simp [isSome_operator?]

end Slot

namespace Pending

def operator? : Pending → Option Operator
  | .group _ => none
  | .operator op => some op

def operators (stack : List Pending) : List Operator := stack.filterMap operator?

@[simp] theorem operators_nil : operators [] = [] := rfl

@[simp] theorem operators_group (position : Nat) (stack : List Pending) :
    operators (.group position :: stack) = operators stack := rfl

@[simp] theorem operators_operator (op : Operator) (stack : List Pending) :
    operators (.operator op :: stack) = op :: operators stack := rfl

@[simp] theorem operators_append (ops : List Operator) (stack : List Pending) :
    operators (ops.map .operator ++ stack) = ops ++ operators stack := by
  simp [operators, List.filterMap_append, List.filterMap_map, Function.comp_def, operator?]

@[simp] theorem operators_waiting (ops : List Operator) : operators (ops.map .operator) = ops := by
  simpa [operators] using operators_append ops []

variable [ElementaryFunctions β] {registered : List Variable} {index : Nat}
  {stack next last : List Pending} {t : Token β} {slots : List (Slot β)}

/-- Only operands are emitted at once, each into the slot that holds it. -/
theorem Advance.operands (h : Advance registered index stack t slots next) :
    List.Forall₂ (Slot.Holds registered) (Token.operands [t]) (Slot.operands slots) := by
  cases h with
  | constant finite => exact .cons (.constant _) .nil
  | «variable» found =>
    obtain ⟨hlt, hid, -⟩ := List.findIdx?_eq_some_iff_getElem.1 found
    exact .cons (.variable (List.getElem?_eq_getElem hlt) (beq_iff_eq.1 hid)) .nil
  | opening => exact .nil
  | closing => rw [Slot.operands_operations]; exact .nil
  | operator => rw [Slot.operands_operations]; exact .nil

theorem Advance.operatorName?_eq (h : Advance registered index stack t slots next) :
    t.operatorName? = t.operator?.map Operator.name := by
  cases h with
  | constant | «variable» => rfl
  | opening | closing => simp [Token.operator?, Token.operatorName?]
  | @operator name op _ _ notParenthesis named pushed =>
    simp [Token.operator?, Token.operatorName?, notParenthesis, named,
      Operator.name_of_ofName? named]

/-- A token adds its operator, if it has one, to those emitted and those waiting. -/
theorem Advance.operators_perm (h : Advance registered index stack t slots next) :
    (Slot.operators slots ++ operators next).Perm (t.operator?.toList ++ operators stack) := by
  cases h with
  | constant | «variable» => exact .refl _
  | opening => simp [Token.operator?, Token.operatorName?, Slot.operators]
  | closing released => simp [Token.operator?, Token.operatorName?]
  | @operator name op released rest notParenthesis named pushed =>
    have hop : (Token.symbol (β := β) name).operator? = some op := by
      simp [Token.operator?, Token.operatorName?, notParenthesis, named]
    rw [hop, Slot.operators_operations, operators_operator, operators_append]
    exact List.perm_middle

theorem scan_operands {tokens : List (Token β)}
    (h : scan registered index stack tokens = .ok (slots, last)) :
    List.Forall₂ (Slot.Holds registered) (Token.operands tokens) (Slot.operands slots) := by
  induction tokens generalizing index stack slots with
  | nil =>
    obtain ⟨rfl, -⟩ := scan_nil_eq_ok_iff.1 h
    exact .nil
  | cons t ts ih =>
    obtain ⟨before, middle, after, hstep, hscan, rfl⟩ := scan_cons_eq_ok_iff.1 h
    rw [← List.singleton_append, Token.operands_append, Slot.operands_append]
    exact List.rel_append hstep.operands (ih hscan)

theorem scan_operatorName?_eq {tokens : List (Token β)}
    (h : scan registered index stack tokens = .ok (slots, last)) :
    ∀ t ∈ tokens, t.operatorName? = t.operator?.map Operator.name := by
  induction tokens generalizing index stack slots with
  | nil => simp
  | cons t ts ih =>
    obtain ⟨before, middle, after, hstep, hscan, rfl⟩ := scan_cons_eq_ok_iff.1 h
    exact List.forall_mem_cons.2 ⟨hstep.operatorName?_eq, ih hscan⟩

theorem scan_operators_perm {tokens : List (Token β)}
    (h : scan registered index stack tokens = .ok (slots, last)) :
    (Slot.operators slots ++ operators last).Perm (Token.operators tokens ++ operators stack) := by
  induction tokens generalizing index stack slots with
  | nil =>
    obtain ⟨rfl, rfl⟩ := scan_nil_eq_ok_iff.1 h
    exact .refl _
  | cons t ts ih =>
    obtain ⟨before, middle, after, hstep, hscan, rfl⟩ := scan_cons_eq_ok_iff.1 h
    rw [Token.operators_cons, Slot.operators_append, List.append_assoc, List.append_assoc]
    calc Slot.operators before ++ (Slot.operators after ++ operators last)
        |>.Perm (Slot.operators before ++ (Token.operators ts ++ operators middle)) :=
          (ih hscan).append_left _
      _ |>.Perm (Token.operators ts ++ (Slot.operators before ++ operators middle)) :=
          List.perm_append_comm_assoc ..
      _ |>.Perm (Token.operators ts ++ (t.operator?.toList ++ operators stack)) :=
          hstep.operators_perm.append_left _
      _ |>.Perm (t.operator?.toList ++ (Token.operators ts ++ operators stack)) :=
          List.perm_append_comm_assoc ..

end Pending

variable [ElementaryFunctions β] {registered : List Variable} {tokens : List (Token β)}
  {p : Program β}

theorem compile_operands (compiled : compile registered tokens = .ok p) :
    List.Forall₂ (Slot.Holds registered) (Token.operands tokens) (Slot.operands p.slots) := by
  obtain ⟨-, emitted, waiting, hscan, rfl⟩ := compile_eq_ok_iff.1 compiled
  rw [Slot.operands_append, Slot.operands_operations, List.append_nil]
  exact Pending.scan_operands hscan

theorem holds_of_mem_compile (compiled : compile registered tokens = .ok p) {slot : Slot β}
    (hslot : slot ∈ p.slots) (operand : slot.isOperand = true) :
    ∃ t ∈ tokens, Slot.Holds registered t slot := by
  have hoperands := compile_operands compiled
  obtain ⟨i, hi, rfl⟩ := List.mem_iff_getElem.1 (List.mem_filter.2 ⟨hslot, operand⟩)
  have hi' : i < (Token.operands tokens).length := hoperands.length_eq ▸ hi
  exact ⟨(Token.operands tokens)[i], (List.mem_filter.1 (List.getElem_mem hi')).1,
    hoperands.get hi' hi⟩

theorem compile_operators_perm (compiled : compile registered tokens = .ok p) :
    (Slot.operators p.slots).Perm (Token.operators tokens) := by
  obtain ⟨-, emitted, waiting, hscan, rfl⟩ := compile_eq_ok_iff.1 compiled
  have hperm := Pending.scan_operators_perm hscan
  rw [Slot.operators_append, Slot.operators_operations]
  simpa using hperm

theorem operatorNames_of_compile (compiled : compile registered tokens = .ok p) :
    Token.operatorNames tokens = (Token.operators tokens).map Operator.name := by
  obtain ⟨-, emitted, waiting, hscan, -⟩ := compile_eq_ok_iff.1 compiled
  rw [Token.operatorNames, Token.operators, List.map_filterMap]
  exact List.filterMap_congr (Pending.scan_operatorName?_eq hscan)

theorem name_ofName?_of_compile (compiled : compile registered tokens = .ok p) {name : String}
    (h : name ∈ Token.operatorNames tokens) :
    (Operator.ofName? name).map Operator.name = some name := by
  obtain ⟨-, emitted, waiting, hscan, -⟩ := compile_eq_ok_iff.1 compiled
  obtain ⟨t, ht, hname⟩ := List.mem_filterMap.1 h
  have hoperator : t.operator? = Operator.ofName? name := by
    rw [Token.operator?, hname, Option.bind_some]
  rw [← hoperator, ← Pending.scan_operatorName?_eq hscan t ht, hname]

theorem length_of_compile (compiled : compile registered tokens = .ok p) :
    p.length = tokens.countP (fun t => !t.isParenthesis .opening && !t.isParenthesis .closing) := by
  have hnames := congrArg List.length (operatorNames_of_compile compiled)
  calc p.length
      = (Slot.operands p.slots).length + (Slot.operators p.slots).length :=
        Slot.length_eq_operands_add_operators p.slots
    _ = (Token.operands tokens).length + (Token.operatorNames tokens).length := by
        rw [(compile_operands compiled).length_eq, (compile_operators_perm compiled).length_eq,
          hnames, List.length_map]
    _ = _ := (Token.countP_not_parenthesis tokens).symm

/-- Compiling loses, doubles and reorders nothing, whether or not the tokens are an infix expression:
there is one slot for each token that is no parenthesis; the operands stand in the order of the
tokens, each variable with the place where it is registered; the names of the operators are the
names read, in some order; and looking up a name that is read gives an operator of that name. -/
theorem compile_conserves (compiled : compile registered tokens = .ok p) :
    p.length = tokens.countP (fun t => !t.isParenthesis .opening && !t.isParenthesis .closing) ∧
    List.Forall₂ (Slot.Holds registered) (Token.operands tokens) (Slot.operands p.slots) ∧
    ((Slot.operators p.slots).map Operator.name).Perm (Token.operatorNames tokens) ∧
    ∀ name ∈ Token.operatorNames tokens, (Operator.ofName? name).map Operator.name = some name := by
  refine ⟨length_of_compile compiled, compile_operands compiled, ?_,
    fun name => name_ofName?_of_compile compiled⟩
  rw [operatorNames_of_compile compiled]
  exact (compile_operators_perm compiled).map Operator.name

/-- The tokens `+ ( x * Cos ) ^ 2`, which no tree is written as. -/
theorem compile_conserves_malformed :
    compile (β := Float) [⟨7, .scalar⟩]
        [.symbol "+", .symbol "(", .variable ⟨7, .scalar⟩, .symbol "*", .symbol "Cos", .symbol ")",
          .symbol "^", .constant (.scalar ⟨2, 0⟩)] =
      .ok ⟨[⟨7, .scalar⟩],
        [.variable ⟨7, .scalar⟩ 0, .operation (.unary .cos), .operation (.binary .multiply),
          .constant (.scalar ⟨2, 0⟩), .operation (.binary .power), .operation (.binary .add)]⟩ ∧
      ["Cos", "*", "^", "+"].Perm ["+", "*", "Cos", "^"] :=
  have compiled : compile (β := Float) [⟨7, .scalar⟩]
      [.symbol "+", .symbol "(", .variable ⟨7, .scalar⟩, .symbol "*", .symbol "Cos", .symbol ")",
        .symbol "^", .constant (.scalar ⟨2, 0⟩)] =
      .ok ⟨[⟨7, .scalar⟩],
        [.variable ⟨7, .scalar⟩ 0, .operation (.unary .cos), .operation (.binary .multiply),
          .constant (.scalar ⟨2, 0⟩), .operation (.binary .power), .operation (.binary .add)]⟩ := by
    rfl
  ⟨compiled, (compile_conserves compiled).2.2.1⟩

end MatrixCalculator
