import MatrixCalculator.Proofs.Ends
import MatrixCalculator.Proofs.Expression.Reading
set_option autoImplicit false

/-!
All that a token can do when it is not refused. `Pending.Advance` has one constructor for each way,
with what is emitted and what the stack becomes; whatever is said of compilations that succeed is
shown for these five and carried over all tokens.
-/

namespace MatrixCalculator

variable {β : Type} [ElementaryFunctions β]

namespace Pending

/-- A token takes the stack to the next one and emits slots. -/
inductive Advance (registered : List Variable) (index : Nat) :
    List Pending → Token β → List (Slot β) → List Pending → Prop where
  | constant {stack : List Pending} {x : Operand β} (finite : x.isFinite = true) :
      Advance registered index stack (.constant x) [.constant x] stack
  | variable {stack : List Pending} {v : Variable} {position : Nat}
      (found : registered.findIdx? (·.id == v.id) = some position) :
      Advance registered index stack (.variable v) [.variable v position] stack
  | opening (stack : List Pending) :
      Advance registered index stack (.symbol Parenthesis.opening.symbol) []
        (.group index :: stack)
  | closing (released : List Operator) (position : Nat) (rest : List Pending) :
      Advance registered index (released.map .operator ++ .group position :: rest)
        (.symbol Parenthesis.closing.symbol) (released.map .operation) rest
  | operator {name : String} {op : Operator} {released : List Operator} {rest : List Pending}
      (notParenthesis : ∀ p : Parenthesis, name ≠ p.symbol)
      (named : Operator.ofName? name = some op)
      (pushed : push op (released.map .operator ++ rest) = (released, .operator op :: rest)) :
      Advance registered index (released.map .operator ++ rest) (.symbol name)
        (released.map .operation) (.operator op :: rest)

variable {registered : List Variable} {index : Nat} {stack next last : List Pending}
  {t : Token β} {slots : List (Slot β)}

theorem exists_push_eq (op : Operator) (stack : List Pending) :
    ∃ released rest, push op stack = (released, .operator op :: rest) ∧
      released.map .operator ++ rest = stack := by
  unfold push
  split
  · exact ⟨[], stack, rfl, rfl⟩
  · exact ⟨(release op stack).1, (release op stack).2, rfl, release_append op stack⟩

theorem Advance.step_eq (h : Advance registered index stack t slots next) :
    step registered index stack t = .ok (slots, next) := by
  cases h with
  | constant finite => simp [step, finite]
  | «variable» found => simp only [step, found]
  | opening => exact step_opening ..
  | closing released position => exact step_closing (close_append released position next) ..
  | operator notParenthesis named pushed => rw [step_operator notParenthesis named, pushed]

theorem advance_of_step (h : step registered index stack t = .ok (slots, next)) :
    Advance registered index stack t slots next := by
  rcases t with x | v | name
  · by_cases finite : x.isFinite = true
    · simp only [step, finite, if_true, Except.ok.injEq, Prod.mk.injEq] at h
      obtain ⟨rfl, rfl⟩ := h
      exact .constant finite
    · simp [step, finite] at h
  · cases found : registered.findIdx? (·.id == v.id) with
    | none => simp only [step, found, reduceCtorEq] at h
    | some position =>
      simp only [step, found, Except.ok.injEq, Prod.mk.injEq] at h
      obtain ⟨rfl, rfl⟩ := h
      exact .variable found
  · by_cases hopen : name = Parenthesis.opening.symbol
    · subst hopen
      rw [step_opening] at h
      cases h
      exact .opening stack
    · by_cases hclose : name = Parenthesis.closing.symbol
      · subst hclose
        cases hc : close stack with
        | none => simp [step_closing_of_none hc] at h
        | some r =>
          rw [step_closing hc] at h
          cases h
          obtain ⟨position, rfl⟩ := close_eq_some hc
          exact .closing r.1 position r.2
      · have notParenthesis : ∀ p : Parenthesis, name ≠ p.symbol := fun p => by cases p <;> assumption
        cases named : Operator.ofName? name with
        | none => simp [step, hopen, hclose, named] at h
        | some op =>
          obtain ⟨released, rest, hpush, rfl⟩ := exists_push_eq op stack
          rw [step_operator notParenthesis named, hpush] at h
          cases h
          exact .operator notParenthesis named hpush

theorem step_eq_ok_iff :
    step registered index stack t = .ok (slots, next) ↔ Advance registered index stack t slots next :=
  ⟨advance_of_step, Advance.step_eq⟩

theorem scan_nil_eq_ok_iff :
    scan (β := β) registered index stack [] = .ok (slots, last) ↔ slots = [] ∧ last = stack := by
  simp [scan, eq_comm]

theorem scan_append_eq_ok_iff {xs ys : List (Token β)} :
    scan registered index stack (xs ++ ys) = .ok (slots, last) ↔
      ∃ before middle after, scan registered index stack xs = .ok (before, middle) ∧
        scan registered (index + xs.length) middle ys = .ok (after, last) ∧
        before ++ after = slots := by
  simp only [scan_append, bind_eq_ok_iff, map_eq_ok_iff, Prod.exists, Prod.mk.injEq]
  constructor
  · rintro ⟨before, middle, hx, after, _, hy, hslots, rfl⟩
    exact ⟨before, middle, after, hx, hy, hslots⟩
  · rintro ⟨before, middle, after, hx, hy, hslots⟩
    exact ⟨before, middle, hx, after, last, hy, hslots, rfl⟩

theorem scan_cons_eq_ok_iff {ts : List (Token β)} :
    scan registered index stack (t :: ts) = .ok (slots, last) ↔
      ∃ before middle after, Advance registered index stack t before middle ∧
        scan registered (index + 1) middle ts = .ok (after, last) ∧ before ++ after = slots := by
  simp only [scan_cons, bind_eq_ok_iff, map_eq_ok_iff, step_eq_ok_iff, Prod.exists, Prod.mk.injEq]
  constructor
  · rintro ⟨before, middle, hstep, after, _, hscan, hslots, rfl⟩
    exact ⟨before, middle, after, hstep, hscan, hslots⟩
  · rintro ⟨before, middle, after, hstep, hscan, hslots⟩
    exact ⟨before, middle, hstep, after, last, hscan, hslots, rfl⟩

end Pending

/-- A compilation succeeds when no variable repeats, every token is read, and only operators wait
at the end. -/
theorem compile_eq_ok_iff {registered : List Variable} {tokens : List (Token β)} {p : Program β} :
    compile registered tokens = .ok p ↔ duplicateIndex? registered = none ∧
      ∃ (emitted : List (Slot β)) (waiting : List Operator),
        Pending.scan registered 0 [] tokens = .ok (emitted, waiting.map .operator) ∧
        ⟨registered, emitted ++ waiting.map .operation⟩ = p := by
  cases hd : duplicateIndex? registered with
  | some i => simp [compile, hd]
  | none =>
    simp only [compile_of_distinct hd, bind_eq_ok_iff, map_eq_ok_iff, Pending.flush_eq_ok,
      Prod.exists, true_and]
    constructor
    · rintro ⟨emitted, _, hscan, waiting, rfl, rfl⟩
      exact ⟨emitted, waiting, hscan, rfl⟩
    · rintro ⟨emitted, waiting, hscan, rfl⟩
      exact ⟨emitted, _, hscan, waiting, rfl, rfl⟩

end MatrixCalculator
