import Mathlib.Data.List.Basic
import MatrixCalculator.Binary64
import MatrixCalculator.Proofs.Expression.Running
import MatrixCalculator.Proofs.Expression.Tree
set_option autoImplicit false

/-!
What a tree means, and that running its postfix form computes just that as long as the operand stack
has room. `need` is the greatest number of operands that wait at once. Where it exceeds the room,
the run ends at the first leaf that finds none, unless an operator fails before.
-/

namespace MatrixCalculator

variable {β : Type} [ElementaryFunctions β] {registered : List Variable}

def DyadicOp.apply : DyadicOp → Operand β → Operand β → Except Error (Operand β)
  | .known op, x, y => op.apply x y
  | .unknown name, _, _ => .error (.unsupportedOperation name)

namespace Tree

/-- The left operand first, then the right one, then the operator; the first error ends it. Inputs
that are accepted have an operand at every position. -/
def meaning (inputs : List (Operand β)) : Tree β registered → Except Error (Operand β)
  | .constant x => .ok x
  | .input i =>
    match inputs[i.val]? with
    | some x => .ok x
    | none => .error (.indexOutOfBounds i inputs.length)
  | .unary op child => do op.apply (← child.meaning inputs)
  | .dyadic op left right => do
    let x ← left.meaning inputs
    let y ← right.meaning inputs
    op.apply x y

def need {β : Type} : Tree β registered → Nat
  | .constant _ | .input _ => 1
  | .unary _ child => child.need
  | .dyadic _ left right => max left.need (1 + right.need)

/-- The place in the postfix form of the first leaf that finds no room, when there is room for so
many operands at the start. -/
def overflow {β : Type} : Tree β registered → Nat → Option Nat
  | .constant _, room | .input _, room => if room = 0 then some 0 else none
  | .unary _ child, room => child.overflow room
  | .dyadic _ left right, room =>
    match left.overflow room with
    | some k => some k
    | none => (right.overflow (room - 1)).map (left.size + ·)

/-- How many nodes are evaluated before the first error; all of them if there is none. Node for node
this follows the postfix form, so it is also the place of the node that fails. -/
def completed (inputs : List (Operand β)) : Tree β registered → Nat
  | .constant _ => 1
  | .input i => ((Tree.input i : Tree β registered).meaning inputs).isOk.toNat
  | .unary op child =>
    child.completed inputs + ((Tree.unary op child).meaning inputs).isOk.toNat
  | .dyadic op left right =>
    left.completed inputs + (if (left.meaning inputs).isOk then right.completed inputs else 0)
      + ((Tree.dyadic op left right).meaning inputs).isOk.toNat

def meaningWithin (inputs : List (Operand β)) : Tree β registered → Nat → Except Error (Operand β)
  | .constant x, room => if room = 0 then .error .operandStackFull else .ok x
  | .input i, room =>
    if room = 0 then .error .operandStackFull else (Tree.input i : Tree β registered).meaning inputs
  | .unary op child, room => do op.apply (← child.meaningWithin inputs room)
  | .dyadic op left right, room => do
    let x ← left.meaningWithin inputs room
    let y ← right.meaningWithin inputs (room - 1)
    op.apply x y

theorem need_pos {β : Type} (t : Tree β registered) : 0 < t.need := by
  induction t with
  | constant x => exact Nat.one_pos
  | input i => exact Nat.one_pos
  | unary op child ih => exact ih
  | dyadic op left right hl hr => exact Nat.lt_of_lt_of_le hl (Nat.le_max_left ..)

theorem overflow_eq_none {β : Type} (t : Tree β registered) (room : Nat) :
    t.overflow room = none ↔ t.need ≤ room := by
  induction t generalizing room with
  | constant x => simp [overflow, need]; omega
  | input i => simp [overflow, need]; omega
  | unary op child ih => exact ih room
  | dyadic op left right hl hr =>
    have hp := right.need_pos
    have hl := hl room
    have hr := hr (room - 1)
    simp only [overflow, need]
    cases ho : left.overflow room with
    | some k =>
      simp only [ho, reduceCtorEq, false_iff] at hl ⊢
      omega
    | none =>
      simp only [ho, true_iff, Option.map_eq_none_iff, hr] at hl ⊢
      omega

theorem completed_le (inputs : List (Operand β)) (t : Tree β registered) :
    t.completed inputs ≤ t.size := by
  induction t with
  | constant x => exact Nat.le_refl 1
  | input i => exact Bool.toNat_le _
  | unary op child ih =>
    have hb := ((Tree.unary op child).meaning inputs).isOk.toNat_le
    simp only [completed, size]
    omega
  | dyadic op left right hl hr =>
    have hb := ((Tree.dyadic op left right).meaning inputs).isOk.toNat_le
    simp only [completed, size]
    split <;> omega

theorem completed_of_meaning_eq_ok {inputs : List (Operand β)} {t : Tree β registered}
    {x : Operand β} (h : t.meaning inputs = .ok x) : t.completed inputs = t.size := by
  induction t generalizing x with
  | constant y => rfl
  | input i => simp [completed, size, h, Except.isOk, Except.toBool]
  | unary op child ih =>
    cases hc : child.meaning inputs with
    | error e => simp [meaning, hc, bind, Except.bind] at h
    | ok y => simp [completed, size, ih hc, h, Except.isOk, Except.toBool]
  | dyadic op left right hl hr =>
    cases hx : left.meaning inputs with
    | error e => simp [meaning, hx, bind, Except.bind] at h
    | ok y =>
      cases hy : right.meaning inputs with
      | error e => simp [meaning, hx, hy, bind, Except.bind] at h
      | ok z => simp [completed, size, hl hx, hr hy, hx, h, Except.isOk, Except.toBool]

theorem completed_lt_of_meaning_eq_error {inputs : List (Operand β)} {t : Tree β registered}
    {e : Error} (h : t.meaning inputs = .error e) : t.completed inputs < t.size := by
  have hf : (t.meaning inputs).isOk.toNat = 0 := by rw [h]; rfl
  cases t with
  | constant x => cases h
  | input i => simp [completed, size, hf]
  | unary op child =>
    have hc := child.completed_le inputs
    simp only [completed, size, hf]
    omega
  | dyadic op left right =>
    have hl := left.completed_le inputs
    have hr := right.completed_le inputs
    simp only [completed, size, hf]
    split <;> omega

theorem exists_error_of_completed_lt {inputs : List (Operand β)} {t : Tree β registered}
    (h : t.completed inputs < t.size) : ∃ e, t.meaning inputs = .error e := by
  cases hm : t.meaning inputs with
  | error e => exact ⟨e, rfl⟩
  | ok x =>
    have hc := completed_of_meaning_eq_ok hm
    omega

theorem overflow_lt {β : Type} {t : Tree β registered} {room k : Nat}
    (h : t.overflow room = some k) : k < t.size := by
  induction t generalizing room k with
  | constant x =>
    obtain ⟨-, hk⟩ : room = 0 ∧ 0 = k := by simpa [overflow] using h
    exact hk ▸ Nat.one_pos
  | input i =>
    obtain ⟨-, hk⟩ : room = 0 ∧ 0 = k := by simpa [overflow] using h
    exact hk ▸ Nat.one_pos
  | unary op child ih => exact Nat.lt_succ_of_lt (ih h)
  | dyadic op left right hl hr =>
    simp only [overflow] at h
    cases ho : left.overflow room with
    | some k' =>
      have hk : k' = k := by simpa [ho] using h
      have := hl ho
      simp only [size]
      omega
    | none =>
      obtain ⟨k', hk', rfl⟩ : ∃ k', right.overflow (room - 1) = some k' ∧ left.size + k' = k := by
        simpa [ho] using h
      have := hr hk'
      simp only [size]
      omega

theorem meaningWithin_of_none {inputs : List (Operand β)} {t : Tree β registered} {room : Nat}
    (h : t.overflow room = none) : t.meaningWithin inputs room = t.meaning inputs := by
  induction t generalizing room with
  | constant x =>
    have hr : room ≠ 0 := by simpa [overflow] using h
    simp [meaningWithin, meaning, hr]
  | input i =>
    have hr : room ≠ 0 := by simpa [overflow] using h
    simp [meaningWithin, hr]
  | unary op child ih => simp only [meaningWithin, meaning, ih h]
  | dyadic op left right hl hr =>
    cases ho : left.overflow room with
    | some k => simp [overflow, ho] at h
    | none =>
      have hro : right.overflow (room - 1) = none := by simpa [overflow, ho] using h
      simp only [meaningWithin, meaning, hl ho, hr hro]

section

variable {inputs : List (Operand β)} {left right child : Tree β registered} {e : Error}

theorem unary_of_error (op : UnaryOp) (h : child.meaning inputs = .error e) :
    (Tree.unary op child).meaning inputs = .error e ∧
      (Tree.unary op child).completed inputs = child.completed inputs := by
  have hm : (Tree.unary op child).meaning inputs = .error e := by
    simp [meaning, h, bind, Except.bind]
  exact ⟨hm, by simp [completed, hm, Except.isOk, Except.toBool]⟩

theorem dyadic_of_left_error (right : Tree β registered) (op : DyadicOp)
    (h : left.meaning inputs = .error e) :
    (Tree.dyadic op left right).meaning inputs = .error e ∧
      (Tree.dyadic op left right).completed inputs = left.completed inputs := by
  have hm : (Tree.dyadic op left right).meaning inputs = .error e := by
    simp [meaning, h, bind, Except.bind]
  exact ⟨hm, by simp [completed, h, hm, Except.isOk, Except.toBool]⟩

theorem dyadic_of_right_error (op : DyadicOp) {x : Operand β} (hx : left.meaning inputs = .ok x)
    (h : right.meaning inputs = .error e) :
    (Tree.dyadic op left right).meaning inputs = .error e ∧
      (Tree.dyadic op left right).completed inputs = left.size + right.completed inputs := by
  have hm : (Tree.dyadic op left right).meaning inputs = .error e := by
    simp [meaning, hx, h, bind, Except.bind]
  have hsize := completed_of_meaning_eq_ok hx
  exact ⟨hm, by simp [completed, hsize, hx, hm, Except.isOk, Except.toBool]⟩

end

/-- With limited room the first error counts, or the first leaf without room if it comes earlier. -/
theorem meaningWithin_of_some {inputs : List (Operand β)} {t : Tree β registered} {room k : Nat}
    (h : t.overflow room = some k) :
    t.meaningWithin inputs room =
      if t.completed inputs < k then t.meaning inputs else .error .operandStackFull := by
  induction t generalizing room k with
  | constant x =>
    obtain ⟨rfl, rfl⟩ : room = 0 ∧ 0 = k := by simpa [overflow] using h
    simp [meaningWithin]
  | input i =>
    obtain ⟨rfl, rfl⟩ : room = 0 ∧ 0 = k := by simpa [overflow] using h
    simp [meaningWithin]
  | unary op child ih =>
    have ho : child.overflow room = some k := h
    rw [meaningWithin, ih ho]
    by_cases hc : child.completed inputs < k
    · obtain ⟨e, he⟩ := exists_error_of_completed_lt (Nat.lt_trans hc (overflow_lt ho))
      obtain ⟨hm, hcompleted⟩ := unary_of_error op he
      rw [hcompleted, if_pos hc, if_pos hc, he, hm]
      rfl
    · have hcompleted : ¬ (Tree.unary op child).completed inputs < k := by
        simp only [completed]
        omega
      rw [if_neg hc, if_neg hcompleted]
      rfl
  | dyadic op left right hl hr =>
    rw [meaningWithin]
    cases ho : left.overflow room with
    | some k' =>
      obtain rfl : k' = k := by simpa [overflow, ho] using h
      rw [hl ho]
      by_cases hc : left.completed inputs < k'
      · obtain ⟨e, he⟩ := exists_error_of_completed_lt (Nat.lt_trans hc (overflow_lt ho))
        obtain ⟨hm, hcompleted⟩ := dyadic_of_left_error right op he
        rw [hcompleted, if_pos hc, if_pos hc, he, hm]
        rfl
      · have hcompleted : ¬ (Tree.dyadic op left right).completed inputs < k' := by
          simp only [completed]
          omega
        rw [if_neg hc, if_neg hcompleted]
        rfl
    | none =>
      obtain ⟨k', hk', rfl⟩ : ∃ k', right.overflow (room - 1) = some k' ∧ left.size + k' = k := by
        simpa [overflow, ho] using h
      rw [meaningWithin_of_none ho, hr hk']
      cases hx : left.meaning inputs with
      | error e =>
        obtain ⟨hm, hcompleted⟩ := dyadic_of_left_error right op hx
        have hlt := completed_lt_of_meaning_eq_error hx
        rw [hcompleted, if_pos (Nat.lt_add_right k' hlt), hm]
        rfl
      | ok x =>
        by_cases hc : right.completed inputs < k'
        · obtain ⟨e, he⟩ := exists_error_of_completed_lt (Nat.lt_trans hc (overflow_lt hk'))
          obtain ⟨hm, hcompleted⟩ := dyadic_of_right_error op hx he
          rw [hcompleted, if_pos hc, if_pos (Nat.add_lt_add_left hc _), he, hm]
          rfl
        · have hsize := completed_of_meaning_eq_ok hx
          have hcompleted : ¬ (Tree.dyadic op left right).completed inputs < left.size + k' := by
            simp only [completed, hsize, hx, Except.isOk, Except.toBool, if_true]
            omega
          rw [if_neg hc, if_neg hcompleted]
          rfl

/-- The postfix form of a tree leaves the meaning on top of what the stack already holds. -/
theorem run_postorder {inputs : List (Operand β)}
    (bound : inputs.map Operand.kind = registered.map Variable.kind) (t : Tree β registered)
    (stack : List (Operand β)) :
    (t.postorder.foldlM (Slot.execute inputs) stack).mapError Halt.error =
      (t.meaningWithin inputs (maxStackDepth - stack.length)).map (· :: stack) := by
  induction t generalizing stack with
  | constant x =>
    simp only [postorder, List.foldlM_cons, List.foldlM_nil, bind_pure, Slot.execute,
      Slot.mapError_push, meaningWithin]
    split <;> split <;> first | rfl | omega
  | input i =>
    obtain ⟨x, hx, hinput⟩ : ∃ x, inputs[i.val]? = some x ∧
        Slot.input inputs registered[i] i = .ok x :=
      Slot.input_eq_ok bound (List.getElem?_eq_getElem i.isLt)
    simp only [postorder, List.foldlM_cons, List.foldlM_nil, bind_pure, Slot.execute, hinput,
      Slot.mapError_push, meaningWithin, meaning, hx]
    split <;> split <;> first | rfl | omega
  | unary op child ih =>
    simp only [postorder, List.foldlM_append, List.foldlM_cons, List.foldlM_nil, bind_pure,
      mapError_bind, ih, meaningWithin]
    cases child.meaningWithin inputs (maxStackDepth - stack.length) with
    | error e => rfl
    | ok x => exact Slot.mapError_deliver stack (op.apply x)
  | dyadic op left right hl hr =>
    simp only [postorder, List.foldlM_append, List.foldlM_cons, List.foldlM_nil, bind_pure,
      mapError_bind, hl, meaningWithin]
    cases left.meaningWithin inputs (maxStackDepth - stack.length) with
    | error e => rfl
    | ok x =>
      have hroom : maxStackDepth - (x :: stack).length = maxStackDepth - stack.length - 1 := by
        simp only [List.length_cons]; omega
      simp only [Except.map, Except.bind, hr, hroom, bind]
      cases right.meaningWithin inputs (maxStackDepth - stack.length - 1) with
      | error e => rfl
      | ok y =>
        cases op with
        | known op => exact Slot.mapError_deliver stack (op.apply x y)
        | unknown name => rfl

theorem eval_eq_meaningWithin {p : Program β} {t : Tree β p.registered} (h : p.slots = t.postorder)
    {inputs : List (Operand β)} (accepted : p.checkInputs inputs = .ok ()) :
    p.eval inputs = t.meaningWithin inputs maxStackDepth := by
  have hrun := t.run_postorder (Program.checkInputs_eq_ok.1 accepted) []
  rw [Program.eval_eq, accepted, Except.bind, Slot.executeAll, h, hrun]
  simp only [List.length_nil, Nat.sub_zero]
  cases t.meaningWithin inputs maxStackDepth <;> rfl

/-- A program in the postfix form of a tree computes the meaning of the tree, value or error, when
the tree needs no more operands at once than the stack may hold. Otherwise there is a leaf, number
`k` in postfix order, that finds the stack full, and the run ends with an error: that of the tree if
fewer than `k` nodes are evaluated before it, and the full stack if not. -/
theorem eval_postorder (p : Program β) (t : Tree β p.registered) (h : p.slots = t.postorder)
    (inputs : List (Operand β)) (accepted : p.checkInputs inputs = .ok ()) :
    (t.need ≤ maxStackDepth → p.eval inputs = t.meaning inputs) ∧
    (maxStackDepth < t.need → ∃ k, t.overflow maxStackDepth = some k ∧
      ((t.completed inputs < k ∧ ∃ e, t.meaning inputs = .error e ∧ p.eval inputs = .error e) ∨
        (k ≤ t.completed inputs ∧ p.eval inputs = .error .operandStackFull))) := by
  rw [eval_eq_meaningWithin h accepted]
  constructor
  · intro hneed
    exact meaningWithin_of_none ((t.overflow_eq_none _).2 hneed)
  · intro hneed
    obtain ⟨k, hk⟩ := Option.ne_none_iff_exists'.1 (mt (t.overflow_eq_none _).1 (Nat.not_le.2 hneed))
    refine ⟨k, hk, ?_⟩
    rw [meaningWithin_of_some hk]
    by_cases hc : t.completed inputs < k
    · obtain ⟨e, he⟩ := exists_error_of_completed_lt (Nat.lt_trans hc (overflow_lt hk))
      exact .inl ⟨hc, e, he, by rw [if_pos hc, he]⟩
    · exact .inr ⟨Nat.not_lt.1 hc, if_neg hc⟩

theorem eval_postorder_difference :
    (⟨[⟨7, .scalar⟩], [.variable ⟨7, .scalar⟩ 0, .constant (.scalar ⟨2, 0⟩),
        .variable ⟨7, .scalar⟩ 0, .operation (.binary .multiply),
        .operation (.binary .subtract)]⟩ : Program Float).eval [.scalar ⟨3, 0⟩] =
      (Tree.dyadic (.known .subtract) (.input 0)
        (.dyadic (.known .multiply) (.constant (.scalar ⟨2, 0⟩)) (.input 0)) :
          Tree Float [⟨7, .scalar⟩]).meaning [.scalar ⟨3, 0⟩] :=
  (eval_postorder ⟨[⟨7, .scalar⟩], _⟩
    (.dyadic (.known .subtract) (.input 0)
      (.dyadic (.known .multiply) (.constant (.scalar ⟨2, 0⟩)) (.input 0)))
    rfl [.scalar ⟨3, 0⟩] rfl).1 (by decide)

end Tree

end MatrixCalculator
