import MatrixCalculator.Proofs.Container.Reachable
import MatrixCalculator.Proofs.Expression.Running
set_option autoImplicit false

/-!
Evaluating expressions makes no containers but those that operations make. Operators hand their
operands to the operations, so that what a program leaves on its stack could have been made without
it from its literals and its inputs.
-/

namespace MatrixCalculator

variable {β : Type} [ElementaryFunctions β]

def Operand.IsReachable : Operand β → Prop
  | .scalar _ => True
  | .vector v => Reachable (.vector v)
  | .matrix m => Reachable (.matrix m)

theorem UnaryOp.apply_reachable (op : UnaryOp) {x : Operand β} (hx : x.IsReachable) :
    Ends Operand.IsReachable (fun _ => True) (op.apply x) := by
  unfold apply
  split
  · trivial
  · exact .make (.vectorConjugated _) (List.forall_mem_singleton.2 hx)
  · exact .make (.matrixConjugated _) (List.forall_mem_singleton.2 hx)
  · trivial

theorem OrientedVector.product_reachable {v w : OrientedVector (Scalar β)}
    (held : ∀ c ∈ [Container.vector v, .vector w], Reachable c) :
    Ends Operand.IsReachable (fun _ => True) (v.product w) := by
  unfold product
  split
  · exact (ends_eq_ok _).map fun _ _ => trivial
  · exact (ends_eq_ok _).map fun _ h => .make (.outer h) held
  · trivial

theorem BinaryOp.apply_reachable (op : BinaryOp) {x y : Operand β} (hx : x.IsReachable)
    (hy : y.IsReachable) : Ends Operand.IsReachable (fun _ => True) (op.apply x y) := by
  have one {c : Container β} (hc : Reachable c) : ∀ d ∈ [c], Reachable d :=
    List.forall_mem_singleton.2 hc
  have two {c d : Container β} (hc : Reachable c) (hd : Reachable d) : ∀ e ∈ [c, d], Reachable e :=
    List.forall_mem_cons.2 ⟨hc, one hd⟩
  cases op with
  | add =>
    cases x <;> cases y
    case vector.vector => exact (ends_eq_ok _).map fun _ h => .make (.vectorAdd h) (two hx hy)
    case matrix.matrix => exact (ends_eq_ok _).map fun _ h => .make (.matrixAdd h) (two hx hy)
    all_goals trivial
  | subtract =>
    cases x <;> cases y
    case vector.vector => exact (ends_eq_ok _).map fun _ h => .make (.vectorSub h) (two hx hy)
    case matrix.matrix => exact (ends_eq_ok _).map fun _ h => .make (.matrixSub h) (two hx hy)
    all_goals trivial
  | multiply =>
    cases x <;> cases y
    case vector.scalar => exact .make (.vectorScale _ _) (one hx)
    case scalar.vector => exact .make (.vectorScale _ _) (one hy)
    case matrix.scalar => exact .make (.matrixScale _ _) (one hx)
    case scalar.matrix => exact .make (.matrixScale _ _) (one hy)
    case vector.vector => exact OrientedVector.product_reachable (two hx hy)
    case vector.matrix => exact (ends_eq_ok _).map fun _ h => .make (.rowMul h) (two hx hy)
    case matrix.vector => exact (ends_eq_ok _).map fun _ h => .make (.mulColumn h) (two hx hy)
    case matrix.matrix => exact (ends_eq_ok _).map fun _ h => .make (.mul h) (two hx hy)
    all_goals trivial
  | divide =>
    cases x <;> cases y
    case vector.scalar => exact .make (.vectorDivide _ _) (one hx)
    case matrix.scalar => exact .make (.matrixDivide _ _) (one hx)
    all_goals trivial
  | power =>
    cases x <;> cases y
    case matrix.scalar => exact (ends_eq_ok _).map fun _ h => .make (.power h) (one hx)
    all_goals trivial

namespace Slot

variable {inputs stack : List (Operand β)}

theorem push_reachable {x : Operand β} (hx : x.IsReachable) (hstack : ∀ y ∈ stack, y.IsReachable) :
    Ends (∀ y ∈ ·, y.IsReachable) (fun _ => True) (push x stack) := by
  unfold push
  split
  · exact List.forall_mem_cons.2 ⟨hx, hstack⟩
  · trivial

theorem deliver_reachable {result : Except Error (Operand β)}
    (h : Ends Operand.IsReachable (fun _ => True) result) (hstack : ∀ y ∈ stack, y.IsReachable) :
    Ends (∀ y ∈ ·, y.IsReachable) (fun _ => True) (deliver stack result) := by
  cases result with
  | ok x => exact List.forall_mem_cons.2 ⟨h, hstack⟩
  | error e => trivial

theorem execute_reachable (hinputs : ∀ x ∈ inputs, x.IsReachable) {slot : Slot β}
    (hslot : ∀ x, slot = .constant x → x.IsReachable) (hstack : ∀ x ∈ stack, x.IsReachable) :
    Ends (∀ x ∈ ·, x.IsReachable) (fun _ => True) (execute inputs stack slot) := by
  cases slot with
  | constant x => exact push_reachable (hslot x rfl) hstack
  | «variable» v position =>
    rw [execute]
    split
    · next x hx => exact push_reachable (hinputs x (mem_of_input_eq_ok hx)) hstack
    · trivial
  | operation op =>
    cases op with
    | unary op =>
      match stack, hstack with
      | [], _ => trivial
      | x :: rest, hstack =>
        obtain ⟨hx, hrest⟩ := List.forall_mem_cons.1 hstack
        exact deliver_reachable (op.apply_reachable hx) hrest
    | binary op =>
      match stack, hstack with
      | [], _ => trivial
      | [_], _ => trivial
      | y :: x :: rest, hstack =>
        obtain ⟨hy, hx, hrest⟩ := by simpa only [List.forall_mem_cons] using hstack
        exact deliver_reachable (op.apply_reachable hx hy) hrest
    | unknown name => trivial

end Slot

/-- What an expression evaluates to could have been made without it. -/
theorem Program.eval_reachable {p : Program β} {inputs : List (Operand β)}
    (hconstants : ∀ x, .constant x ∈ p.slots → x.IsReachable)
    (hinputs : ∀ x ∈ inputs, x.IsReachable) :
    Ends Operand.IsReachable (fun _ => True) (p.eval inputs) := by
  have hrun : Ends (∀ x ∈ ·, x.IsReachable) (fun _ => True)
      (Slot.executeAll inputs p.slots) := by
    refine Ends.foldlM (fun stack slot hslot hstack => ?_) (by simp)
    exact Slot.execute_reachable hinputs (fun x hx => hconstants x (hx ▸ hslot)) hstack
  unfold Program.eval Evaluator.run
  cases p.checkInputs inputs with
  | error e => trivial
  | ok _ =>
    cases hstack : Slot.executeAll inputs p.slots with
    | error halt => trivial
    | ok stack =>
      match stack, hrun.of_eq_ok hstack with
      | [], _ => trivial
      | [x], hx => exact hx x List.mem_cons_self
      | _ :: _ :: _, _ => trivial

end MatrixCalculator
