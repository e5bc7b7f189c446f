import Mathlib.Data.List.Chain
import Mathlib.Data.List.TakeWhile
import MatrixCalculator.Binary64
import MatrixCalculator.Proofs.Expression.Advance
set_option autoImplicit false

/-!
The order in which operators wait. Between two open groups they bind tighter and tighter from the
bottom of the stack to its top, and neighbours bind equally tightly only as two powers or as two
functions; so functions stand together on top. Releasing may stop at the first operator that stays:
none below it in its group has to go.
-/

namespace MatrixCalculator

/-- What may wait right below an operator of the same group. -/
inductive Operator.Under : Operator → Operator → Prop where
  | looser {lower upper : Operator} (h : lower.precedence < upper.precedence) : Under lower upper
  | powers : Under (.binary .power) (.binary .power)
  | functions (f g : UnaryOp) : Under (.unary f) (.unary g)

structure Ascends (run : List Operator) : Prop where
  sorted : run.Pairwise fun lower upper => lower.precedence ≤ upper.precedence
  level {below above : List Operator} {lower upper : Operator}
    (neighbours : run = below ++ lower :: upper :: above) (equal : lower.precedence = upper.precedence) :
    (lower = .binary .power ∧ upper = .binary .power) ∨ (lower.isUnary = true ∧ upper.isUnary = true)
  functionsOnTop : ∃ known functions, run = known ++ functions ∧
    (∀ op ∈ known, op.isUnary = false) ∧ ∀ op ∈ functions, op.isUnary = true

namespace Operator

theorem isUnary_iff_precedence (op : Operator) : op.isUnary = true ↔ 255 ≤ op.precedence := by
  rcases op with f | b | name
  · simp [isUnary, precedence]
  · cases b <;> simp [isUnary, precedence, BinaryOp.precedence]
  · simp [isUnary, precedence]

theorem eq_power_of_isRightAssociative {op : Operator} (h : op.isRightAssociative = true) :
    op = .binary .power := by
  unfold isRightAssociative at h
  split at h
  · rfl
  · cases h

theorem eq_power_of_precedence {op : Operator} (h : op.precedence = (binary .power).precedence) :
    op = .binary .power := by
  rcases op with f | b | name
  · cases h
  · cases b <;> simp_all [precedence, BinaryOp.precedence]
  · cases h

variable {lower upper : Operator}

theorem Under.precedence_le (h : Under lower upper) : lower.precedence ≤ upper.precedence := by
  cases h with
  | looser h => exact h.le
  | powers => exact Nat.le_refl _
  | functions => exact Nat.le_refl _

theorem Under.level (h : Under lower upper) (equal : lower.precedence = upper.precedence) :
    (lower = .binary .power ∧ upper = .binary .power) ∨ (lower.isUnary = true ∧ upper.isUnary = true) := by
  cases h with
  | looser h => exact absurd equal h.ne
  | powers => exact .inl ⟨rfl, rfl⟩
  | functions => exact .inr ⟨rfl, rfl⟩

theorem under_unary (lower : Operator) (f : UnaryOp) : Under lower (.unary f) := by
  cases hu : lower.isUnary with
  | true =>
    cases lower with
    | unary g => exact .functions g f
    | binary b => cases hu
    | unknown name => cases hu
  | false =>
    have hlow : ¬ 255 ≤ lower.precedence := by rw [← isUnary_iff_precedence, hu]; decide
    exact .looser (Nat.lt_of_not_le hlow)

theorem under_of_not_yieldsTo (h : Pending.yieldsTo lower upper = false) : Under lower upper := by
  rw [← Bool.not_eq_true, Pending.yieldsTo_iff, not_or, not_or, not_and, Bool.not_eq_false] at h
  obtain ⟨-, hle, hequal⟩ := h
  rcases Nat.lt_or_eq_of_le (Nat.le_of_not_lt hle) with hlt | heq
  · exact .looser hlt
  · obtain rfl := eq_power_of_isRightAssociative (hequal heq)
    rw [eq_power_of_precedence heq]
    exact .powers

end Operator

theorem ascends_of_isChain {run : List Operator} (h : run.IsChain Operator.Under) : Ascends run := by
  have hsorted : run.Pairwise fun lower upper => lower.precedence ≤ upper.precedence := by
    rw [← List.pairwise_map, ← List.isChain_iff_pairwise, List.isChain_map]
    exact h.imp fun _ _ hu => hu.precedence_le
  refine ⟨hsorted, fun neighbours equal => ?_, ?_⟩
  · rw [neighbours, List.isChain_append_cons_cons] at h
    exact h.2.1.level equal
  · refine ⟨run.takeWhile (!·.isUnary), run.dropWhile (!·.isUnary), List.takeWhile_append_dropWhile.symm,
      fun op hop => by simpa using List.mem_takeWhile_imp hop, fun op hop => ?_⟩
    -- The first function of the run binds as tightly as can be, and all that follows no less.
    have hrest : (run.dropWhile (!·.isUnary)).Pairwise fun lower upper => lower.precedence ≤ upper.precedence :=
      hsorted.sublist (List.dropWhile_sublist _)
    cases hd : run.dropWhile (!·.isUnary) with
    | nil => rw [hd] at hop; cases hop
    | cons first rest =>
      have hfirst : first.isUnary = true := by
        have := List.head?_dropWhile_not (!·.isUnary) run
        simpa [hd] using this
      rw [hd] at hop hrest
      rcases List.mem_cons.1 hop with rfl | hmem
      · exact hfirst
      · rw [Operator.isUnary_iff_precedence] at hfirst ⊢
        exact hfirst.trans ((List.pairwise_cons.1 hrest).1 op hmem)

namespace Pending

/-- What may wait right below an entry of the stack; a group cuts it in two. -/
inductive Rests : Pending → Pending → Prop where
  | operators {lower upper : Operator} (h : lower.Under upper) : Rests (.operator upper) (.operator lower)
  | onGroup (op : Operator) (position : Nat) : Rests (.operator op) (.group position)
  | group (position : Nat) (waiting : Pending) : Rests (.group position) waiting

variable {stack : List Pending}

theorem ascends_of_infix (h : stack.IsChain Rests) {run : List Operator}
    (hrun : run.reverse.map .operator <:+: stack) : Ascends run := by
  refine ascends_of_isChain ?_
  have hchain := h.infix hrun
  rw [List.isChain_map, List.isChain_reverse] at hchain
  refine hchain.imp fun lower upper hrests => ?_
  cases hrests with
  | operators h => exact h

/-- Releasing stops at a group or at an operator that does not yield. -/
theorem not_yieldsTo_of_head?_release {op waiting : Operator}
    (h : (release op stack).2.head? = some (.operator waiting)) : yieldsTo waiting op = false := by
  fun_induction release op stack with
  | case1 top stack _ released rest hr ih => exact ih (by simpa [hr] using h)
  | case2 top stack hstays =>
    cases h
    exact Bool.eq_false_iff.2 hstays
  | case3 stack hno =>
    cases stack with
    | nil => cases h
    | cons top stack =>
      cases h
      exact absurd rfl (hno waiting stack)

theorem release_suffix (op : Operator) (stack : List Pending) : (release op stack).2 <:+ stack :=
  ⟨_, release_append op stack⟩

theorem isChain_push (h : stack.IsChain Rests) (op : Operator) : (push op stack).2.IsChain Rests := by
  unfold push
  split
  · next hu =>
    cases op with
    | unary f =>
      refine h.cons fun waiting _ => ?_
      cases waiting with
      | group position => exact .onGroup _ position
      | operator lower => exact .operators (lower.under_unary f)
    | binary b => cases hu
    | unknown name => cases hu
  · refine (h.suffix (release_suffix op stack)).cons fun waiting hwaiting => ?_
    cases waiting with
    | group position => exact .onGroup op position
    | operator lower =>
      exact .operators (Operator.under_of_not_yieldsTo (not_yieldsTo_of_head?_release hwaiting))

variable {β : Type} [ElementaryFunctions β] {registered : List Variable} {index : Nat}
  {next last : List Pending} {t : Token β} {tokens : List (Token β)} {slots : List (Slot β)}

theorem Advance.isChain (h : Advance registered index stack t slots next) (hs : stack.IsChain Rests) :
    next.IsChain Rests := by
  cases h with
  | constant finite => exact hs
  | «variable» found => exact hs
  | opening => exact hs.cons fun waiting _ => .group index waiting
  | closing released position =>
    exact hs.suffix ⟨released.map .operator ++ [.group position], by simp⟩
  | operator notParenthesis named pushed =>
    have hpush := isChain_push hs ‹Operator›
    rwa [pushed] at hpush

theorem isChain_scan (h : scan registered index stack tokens = .ok (slots, last))
    (hs : stack.IsChain Rests) : last.IsChain Rests := by
  induction tokens generalizing index stack slots with
  | nil =>
    obtain ⟨-, rfl⟩ := scan_nil_eq_ok_iff.1 h
    exact hs
  | cons t tokens ih =>
    obtain ⟨before, middle, after, hadvance, hscan, -⟩ := scan_cons_eq_ok_iff.1 h
    exact ih hscan (hadvance.isChain hs)

end Pending

/-- Whatever tokens have been read so far, the operators that stand side by side on the stack, with
no open group between them, ascend. -/
theorem Compilation.waiting_ascend {β : Type} [ElementaryFunctions β] {registered : List Variable}
    {tokens : List (Token β)} {c : Compilation β} (h : readAll registered tokens = .ok c)
    {run : List Operator} (hrun : run.reverse.map .operator <:+: c.stack) : Ascends run := by
  rw [readAll, foldlM_read, map_eq_ok_iff] at h
  obtain ⟨⟨slots, last⟩, hscan, rfl⟩ := h
  exact Pending.ascends_of_infix (Pending.isChain_scan hscan List.isChain_nil) hrun

theorem Compilation.waiting_ascend_malformed :
    readAll (β := Float) [] (["and", "+", "(", "-", "Cos", "*", "^", "^", "Sin", "Sqrt"].map .symbol) =
      .ok ⟨10, #[.operation (.unary .cos)],
        [.operator (.unary .sqrt), .operator (.unary .sin), .operator (.binary .power),
          .operator (.binary .power), .operator (.binary .multiply), .operator (.binary .subtract), .group 2,
          .operator (.binary .add), .operator (.unknown "and")]⟩ ∧
      Ascends [.binary .subtract, .binary .multiply, .binary .power, .binary .power, .unary .sin, .unary .sqrt] :=
  have read : readAll (β := Float) []
      (["and", "+", "(", "-", "Cos", "*", "^", "^", "Sin", "Sqrt"].map .symbol) =
      .ok ⟨10, #[.operation (.unary .cos)],
        [.operator (.unary .sqrt), .operator (.unary .sin), .operator (.binary .power),
          .operator (.binary .power), .operator (.binary .multiply), .operator (.binary .subtract), .group 2,
          .operator (.binary .add), .operator (.unknown "and")]⟩ := by
    rfl
  ⟨read, waiting_ascend read ⟨[], [.group 2, .operator (.binary .add), .operator (.unknown "and")], rfl⟩⟩

end MatrixCalculator
