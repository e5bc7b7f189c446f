import MatrixCalculator.Expression.Program
set_option autoImplicit false

/-!
From infix tokens to a postfix program. Operands are emitted as they come; operators wait on a stack
until one that binds less tightly, a closing parenthesis or the end of the input releases them.
`Pending.step` says what one token does to the stack, `compile` runs it over all of them.
-/

namespace MatrixCalculator

/-- What waits on the operator stack: an operator, or an open group and where it was opened. -/
inductive Pending where
  | group (position : Nat)
  | operator (op : Operator)
  deriving DecidableEq, Repr

namespace Pending

def yieldsTo (waiting op : Operator) : Bool :=
  waiting.isUnary || decide (op.precedence < waiting.precedence)
    || (waiting.precedence == op.precedence && !op.isRightAssociative)

/-- Releases, from the top of the stack, every operator that `op` has to wait for. -/
def release (op : Operator) : List Pending → List Operator × List Pending
  | .operator waiting :: stack =>
    if yieldsTo waiting op then
      let (released, rest) := release op stack
      (waiting :: released, rest)
    else ([], .operator waiting :: stack)
  | stack => ([], stack)

/-- Puts an operator on the stack. A unary one releases nothing, so that functions chain from
right to left. -/
def push (op : Operator) (stack : List Pending) : List Operator × List Pending :=
  if op.isUnary then ([], .operator op :: stack)
  else
    let (released, rest) := release op stack
    (released, .operator op :: rest)

/-- Releases the operators of the innermost open group and closes it; `none` if no group is open. -/
def close : List Pending → Option (List Operator × List Pending)
  | [] => none
  | .group _ :: stack => some ([], stack)
  | .operator op :: stack => do
    let (released, rest) ← close stack
    return (op :: released, rest)

/-- Releases all operators; a group that is still open is an error, the innermost one first. -/
def flush : List Pending → Except Error (List Operator)
  | [] => .ok []
  | .group position :: _ => .error (.unmatchedParenthesis position .opening)
  | .operator op :: stack => do return op :: (← flush stack)

theorem release_append (op : Operator) (stack : List Pending) :
    (release op stack).1.map .operator ++ (release op stack).2 = stack := by
  fun_induction release op stack with
  | case1 waiting stack _ released rest hr ih => simpa [hr] using ih
  | case2 => rfl
  | case3 => rfl

theorem close_eq_some {stack rest : List Pending} {released : List Operator}
    (h : close stack = some (released, rest)) :
    ∃ position, stack = released.map .operator ++ .group position :: rest := by
  fun_induction close stack generalizing released with
  | case1 => cases h
  | case2 position stack => cases h; exact ⟨position, rfl⟩
  | case3 op stack ih =>
    obtain ⟨⟨ops, tail⟩, hc, hr⟩ := Option.bind_eq_some_iff.1 h
    cases hr
    obtain ⟨position, hs⟩ := ih hc
    exact ⟨position, by simp [hs]⟩

theorem close_eq_none {stack : List Pending} :
    close stack = none ↔ ∀ position, .group position ∉ stack := by
  fun_induction close stack with
  | case1 => simp
  | case2 position stack =>
    exact iff_of_false (by simp) fun h => h position List.mem_cons_self
  | case3 op stack ih =>
    cases hc : close stack with
    | none => simpa [hc] using ih
    | some r => simpa [hc] using ih

theorem flush_eq_ok {stack : List Pending} {ops : List Operator} :
    flush stack = .ok ops ↔ stack = ops.map .operator := by
  fun_induction flush stack generalizing ops with
  | case1 => cases ops <;> simp
  | case2 position stack => cases ops <;> simp
  | case3 op stack ih =>
    cases hf : flush stack with
    | error e =>
      simp only [hf, bind, Except.bind, reduceCtorEq, false_iff] at ih ⊢
      rintro h
      cases ops with
      | nil => cases h
      | cons o ops => exact ih (List.cons.inj h).2
    | ok released =>
      have hs := ih.1 hf
      cases ops <;> simp [bind, Except.bind, pure, Except.pure, hs, List.map_inj_right]

variable {β : Type} [ElementaryFunctions β]

def step (registered : List Variable) (index : Nat) (stack : List Pending) :
    Token β → Except Error (List (Slot β) × List Pending)
  | .constant x =>
    if x.isFinite then .ok ([.constant x], stack) else .error (.unsupportedLiteral index)
  | .variable v =>
    match registered.findIdx? (·.id == v.id) with
    | some position => .ok ([.variable v position], stack)
    | none => .error (.unregisteredVariable index)
  | .symbol name =>
    if name = Parenthesis.opening.symbol then .ok ([], .group index :: stack)
    else if name = Parenthesis.closing.symbol then
      match close stack with
      | some (released, rest) => .ok (released.map .operation, rest)
      | none => .error (.unmatchedParenthesis index .closing)
    else
      match Operator.ofName? name with
      | some op =>
        let (released, rest) := push op stack
        .ok (released.map .operation, rest)
      | none => .error .nameTooLong

end Pending

structure Compilation (β : Type) where
  index : Nat
  emitted : Array (Slot β)
  stack : List Pending

namespace Compilation

variable {β : Type} [ElementaryFunctions β]

def start {β : Type} : Compilation β := ⟨0, #[], []⟩

def read (registered : List Variable) (c : Compilation β) (t : Token β) :
    Except Error (Compilation β) := do
  let (slots, stack) ← Pending.step registered c.index c.stack t
  return ⟨c.index + 1, c.emitted ++ slots, stack⟩

def readAll (registered : List Variable) (tokens : List (Token β)) : Except Error (Compilation β) :=
  tokens.foldlM (read registered) start

def finish {β : Type} (c : Compilation β) : Except Error (List (Slot β)) := do
  let released ← Pending.flush c.stack
  return c.emitted.toList ++ released.map .operation

end Compilation

def duplicateIndex? (registered : List Variable) : Option Nat :=
  (List.range registered.length).find? fun i =>
    (registered.take i).any fun v => (registered[i]?.map (·.id)) == some v.id

/-- Compiles tokens against a list of variables; the place of a variable in the list is the place
of its operand among the inputs. -/
def compile {β : Type} [ElementaryFunctions β] (registered : List Variable)
    (tokens : List (Token β)) : Except Error (Program β) :=
  match duplicateIndex? registered with
  | some i => .error (.duplicateVariable i)
  | none => do
    let c ← Compilation.readAll registered tokens
    return ⟨registered, ← c.finish⟩

end MatrixCalculator
