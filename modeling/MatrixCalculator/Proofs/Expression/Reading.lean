import MatrixCalculator.Expression.Compile
set_option autoImplicit false

/-!
Reading tokens in one piece. `Pending.scan` takes the stack from before the first token to after
the last and collects what is emitted on the way; compiling is scanning from the empty stack.
Pieces that stand side by side are scanned one after the other.
-/

namespace MatrixCalculator

variable {β : Type} [ElementaryFunctions β]

namespace Pending

def scan (registered : List Variable) :
    Nat → List Pending → List (Token β) → Except Error (List (Slot β) × List Pending)
  | _, stack, [] => .ok ([], stack)
  | index, stack, t :: ts => do
    let (slots, next) ← step registered index stack t
    let (more, last) ← scan registered (index + 1) next ts
    return (slots ++ more, last)

variable {registered : List Variable} {index : Nat} {stack next last : List Pending}
  {t : Token β} {xs ys : List (Token β)} {slots more : List (Slot β)}

theorem scan_cons (index : Nat) (stack : List Pending) (t : Token β) (ts : List (Token β)) :
    scan registered index stack (t :: ts) =
      (step registered index stack t).bind fun r =>
        (scan registered (index + 1) r.2 ts).map fun r' => (r.1 ++ r'.1, r'.2) := by
  simp only [scan, bind]
  cases step registered index stack t with
  | error e => rfl
  | ok r => cases hr : scan registered (index + 1) r.2 ts <;> simp [Except.bind, Except.map, hr, pure, Except.pure]

theorem scan_append (index : Nat) (stack : List Pending) (xs ys : List (Token β)) :
    scan registered index stack (xs ++ ys) =
      (scan registered index stack xs).bind fun r =>
        (scan registered (index + xs.length) r.2 ys).map fun r' => (r.1 ++ r'.1, r'.2) := by
  induction xs generalizing index stack with
  | nil =>
    simp only [scan, List.nil_append, List.length_nil, Nat.add_zero, Except.bind]
    cases scan registered index stack ys <;> rfl
  | cons t xs ih =>
    have hi : index + 1 + xs.length = index + (t :: xs).length := by
      simp only [List.length_cons]; omega
    rw [List.cons_append, scan_cons, scan_cons]
    cases step registered index stack t with
    | error e => rfl
    | ok r =>
      simp only [Except.bind, ih, hi]
      cases scan registered (index + 1) r.2 xs with
      | error e => rfl
      | ok r' =>
        simp only [Except.map]
        cases scan registered (index + (t :: xs).length) r'.2 ys <;> simp

theorem scan_singleton (h : step registered index stack t = .ok (slots, next)) :
    scan registered index stack [t] = .ok (slots, next) := by
  simp only [scan_cons, h, Except.bind]
  simp [scan, Except.map]

theorem scan_append_of_ok (hx : scan registered index stack xs = .ok (slots, next))
    (hy : scan registered (index + xs.length) next ys = .ok (more, last)) :
    scan registered index stack (xs ++ ys) = .ok (slots ++ more, last) := by
  simp only [scan_append, hx, hy, Except.bind, Except.map]

theorem step_opening (registered : List Variable) (index : Nat) (stack : List Pending) :
    step (β := β) registered index stack (.symbol Parenthesis.opening.symbol) =
      .ok ([], .group index :: stack) := by
  simp [step]

theorem step_closing {released : List Operator} {rest : List Pending}
    (h : close stack = some (released, rest)) (registered : List Variable) (index : Nat) :
    step (β := β) registered index stack (.symbol Parenthesis.closing.symbol) =
      .ok (released.map .operation, rest) := by
  have hne : Parenthesis.closing.symbol ≠ Parenthesis.opening.symbol := by decide
  simp [step, hne, h]

theorem step_closing_of_none (h : close stack = none) (registered : List Variable) (index : Nat) :
    step (β := β) registered index stack (.symbol Parenthesis.closing.symbol) =
      .error (.unmatchedParenthesis index .closing) := by
  have hne : Parenthesis.closing.symbol ≠ Parenthesis.opening.symbol := by decide
  simp [step, hne, h]

theorem step_operator {name : String} {op : Operator} (hname : ∀ p : Parenthesis, name ≠ p.symbol)
    (h : Operator.ofName? name = some op) (registered : List Variable) (index : Nat)
    (stack : List Pending) :
    step (β := β) registered index stack (.symbol name) =
      .ok ((push op stack).1.map .operation, (push op stack).2) := by
  simp [step, hname, h]

theorem yieldsTo_iff {waiting op : Operator} :
    yieldsTo waiting op = true ↔ waiting.isUnary = true ∨ op.precedence < waiting.precedence ∨
      waiting.precedence = op.precedence ∧ op.isRightAssociative = false := by
  simp [yieldsTo, or_assoc]

/-- Operators that all have to go leave together with those that follow them. -/
theorem release_append_of_yieldsTo {op : Operator} {waiting : List Operator}
    (h : ∀ w ∈ waiting, yieldsTo w op = true) (stack : List Pending) :
    release op (waiting.map .operator ++ stack) =
      (waiting ++ (release op stack).1, (release op stack).2) := by
  induction waiting with
  | nil => rfl
  | cons w waiting ih =>
    have hw := h w List.mem_cons_self
    have hrest := ih fun v hv => h v (List.mem_cons_of_mem w hv)
    simp only [List.map_cons, List.cons_append, release, hw, if_true, hrest]

theorem close_append (waiting : List Operator) (position : Nat) (stack : List Pending) :
    close (waiting.map .operator ++ .group position :: stack) = some (waiting, stack) := by
  induction waiting with
  | nil => rfl
  | cons w waiting ih => simp [close, ih]

end Pending

theorem Compilation.foldlM_read (registered : List Variable) (c : Compilation β)
    (tokens : List (Token β)) :
    tokens.foldlM (read registered) c =
      (Pending.scan registered c.index c.stack tokens).map fun r =>
        ⟨c.index + tokens.length, c.emitted ++ r.1, r.2⟩ := by
  induction tokens generalizing c with
  | nil => simp [Pending.scan, Except.map, pure, Except.pure]
  | cons t ts ih =>
    rw [List.foldlM_cons]
    rw [Pending.scan_cons]
    cases hs : Pending.step registered c.index c.stack t with
    | error e => simp [read, hs, bind, Except.bind, Except.map]
    | ok r =>
      have hr : read registered c t = .ok ⟨c.index + 1, c.emitted ++ r.1, r.2⟩ := by
        simp [read, hs, bind, Except.bind, pure, Except.pure]
      rw [hr]
      simp only [bind, Except.bind, ih]
      cases Pending.scan registered (c.index + 1) r.2 ts with
      | error e => rfl
      | ok r' =>
        have hi : c.index + 1 + ts.length = c.index + (t :: ts).length := by
          simp only [List.length_cons]; omega
        have he : c.emitted ++ r.1 ++ r'.1 = c.emitted ++ (r.1 ++ r'.1) :=
          Array.toList_inj.1 (by simp)
        simp only [Except.map, hi, he]

theorem compile_of_distinct {registered : List Variable} (h : duplicateIndex? registered = none)
    (tokens : List (Token β)) :
    compile registered tokens =
      (Pending.scan registered 0 [] tokens).bind fun r =>
        (Pending.flush r.2).map fun released =>
          ⟨registered, r.1 ++ released.map .operation⟩ := by
  simp only [compile, h, Compilation.readAll, Compilation.foldlM_read, Compilation.start]
  cases Pending.scan registered 0 [] tokens with
  | error e => rfl
  | ok r =>
    simp only [Except.map, Compilation.finish, bind, Except.bind, pure, Except.pure]
    cases Pending.flush r.2 <;> simp

end MatrixCalculator
