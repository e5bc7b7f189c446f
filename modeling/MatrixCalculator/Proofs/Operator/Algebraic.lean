import MatrixCalculator.Operator.Apply
import MatrixCalculator.Proofs.DenseMatrix.Power
import MatrixCalculator.Proofs.Ends
set_option autoImplicit false

/-!
What operators can refuse with. Of all errors only those about shapes, kinds, indices and singular
matrices come from the algebra, for whatever operands, well formed or not; none of them is one that
the operand stack of a running program gives rise to.
-/

namespace MatrixCalculator

def Error.IsAlgebraic : Error → Prop
  | .dimensionMismatch .. | .unsupportedOperands .. | .notSquare .. | .singularMatrix
  | .indexOutOfBounds .. => True
  | _ => False

/-- A computation that only the algebra can refuse. -/
def Algebraic {α : Type} (x : Except Error α) : Prop := Ends (fun _ => True) Error.IsAlgebraic x

namespace Algebraic

variable {α γ σ : Type}

theorem pure (a : α) : Algebraic (Pure.pure a) := trivial

theorem bind {x : Except Error α} {f : α → Except Error γ} (hx : Algebraic x)
    (hf : ∀ a, Algebraic (f a)) : Algebraic (x >>= f) := Ends.bind hx fun a _ => hf a

theorem bind₂ {x : Except Error α} {y : Except Error γ} (hx : Algebraic x) (hy : Algebraic y)
    (f : α → γ → σ) : Algebraic (do return f (← x) (← y)) :=
  hx.bind fun _ => hy.bind fun _ => pure _

theorem map {x : Except Error α} (hx : Algebraic x) (f : α → γ) : Algebraic (f <$> x) :=
  Ends.map hx fun _ => id

theorem foldlM {f : σ → α → Except Error σ} (hf : ∀ s x, Algebraic (f s x)) (xs : List α) (s : σ) :
    Algebraic (xs.foldlM f s) := Ends.foldlM (fun t x _ _ => hf t x) trivial

theorem mapM {f : α → Except Error γ} (hf : ∀ x, Algebraic (f x)) (xs : List α) :
    Algebraic (xs.mapM f) :=
  (Ends.mapM fun x _ => hf x).mono (fun _ _ => trivial) fun _ => id

end Algebraic

theorem Update.result_algebraic {σ : Type} {u : Update σ}
    (h : ∀ e, u.refusal = some e → e.IsAlgebraic) : Algebraic u.result := by
  unfold result
  split
  · trivial
  · exact h _ ‹_›

namespace OrientedVector

variable {α : Type}

theorem entry_algebraic (v : OrientedVector α) (i : Nat) : Algebraic (v.entry i) := by
  unfold entry
  split <;> trivial

variable [Entry α]

theorem zipItems_algebraic (v : OrientedVector α) (operation : Operation) (f : α → α → α)
    (w : OrientedVector α) :
    Algebraic (zipItems operation f v w) := by
  unfold zipItems
  split <;> trivial

theorem inner_algebraic (v w : OrientedVector α) : Algebraic (v.inner w) := by
  unfold inner
  split <;> trivial

end OrientedVector

theorem VectorFamily.set_algebraic {α : Type} (f : VectorFamily α) (i : Nat) (v : OrientedVector α) :
    ∀ e, (f.set i v).refusal = some e → e.IsAlgebraic := by
  intro e he
  rw [refusal_set] at he
  split at he <;> cases he
  trivial

theorem VectorFamily.swap_algebraic {α : Type} (f : VectorFamily α) (i j : Nat) :
    ∀ e, (f.swap i j).refusal = some e → e.IsAlgebraic := by
  intro e he
  unfold swap at he
  split at he <;> cases he <;> trivial

namespace DenseMatrix

variable {α : Type}

theorem row_algebraic (m : DenseMatrix α) (i : Nat) : Algebraic (m.row i) := by
  unfold row
  split <;> trivial

theorem entry_algebraic (m : DenseMatrix α) (i j : Nat) : Algebraic (m.entry i j) :=
  (m.row_algebraic i).bind fun r => r.entry_algebraic j

theorem requireSquare_algebraic (m : DenseMatrix α) (operation : Operation) :
    Algebraic (m.requireSquare operation) := by
  unfold requireSquare
  split <;> trivial

theorem replaceRow_algebraic (m : DenseMatrix α) (i : Nat) (v : OrientedVector α) :
    Algebraic ((m.family.set i v).map DenseMatrix.mk).result :=
  Update.result_algebraic (m.family.set_algebraic i v)

theorem swapRows_algebraic (m : DenseMatrix α) (i j : Nat) : Algebraic (m.swapRows i j).result :=
  Update.result_algebraic (m.family.swap_algebraic i j)

theorem ofFamily_algebraic (f : VectorFamily α) : Algebraic (ofFamily f) := by
  unfold ofFamily
  dsimp only
  split <;> trivial

variable [Entry α]

theorem ofFnM_algebraic {f : Nat → Nat → Except Error α} (hf : ∀ i j, Algebraic (f i j))
    (rows cols : Nat) : Algebraic (ofFnM rows cols f) :=
  (Algebraic.mapM (fun i => Algebraic.mapM (hf i) _) _).bind fun _ => .pure _

theorem sumM_algebraic {term : Nat → Except Error α} (h : ∀ k, Algebraic (term k)) (n : Nat) :
    Algebraic (sumM n term) :=
  Algebraic.foldlM (fun _ k => (h k).bind fun _ => .pure _) _ _

theorem zipEntries_algebraic (a : DenseMatrix α) (operation : Operation) (f : α → α → α)
    (b : DenseMatrix α) :
    Algebraic (zipEntries operation f a b) := by
  unfold zipEntries
  split
  · exact ofFnM_algebraic (fun i j =>
      (a.entry_algebraic i j).bind₂ (b.entry_algebraic i j) f) _ _
  · trivial

theorem mulColumn_algebraic (m : DenseMatrix α) (v : OrientedVector α) :
    Algebraic (m.mulColumn v) := by
  unfold mulColumn
  split
  · refine (Algebraic.mapM (fun i => sumM_algebraic (fun j => ?_) _) _).bind fun _ => trivial
    exact (m.entry_algebraic i j).bind₂ (v.entry_algebraic j) (· * ·)
  · trivial

theorem rowMul_algebraic (v : OrientedVector α) (m : DenseMatrix α) : Algebraic (rowMul v m) := by
  unfold rowMul
  split
  · refine (Algebraic.mapM (fun j => sumM_algebraic (fun i => ?_) _) _).bind fun _ => trivial
    exact (v.entry_algebraic i).bind₂ (m.entry_algebraic i j) (· * ·)
  · trivial

theorem mul_algebraic (a b : DenseMatrix α) : Algebraic (a.mul b) := by
  unfold mul
  split
  · exact ofFnM_algebraic (fun i j => sumM_algebraic (fun k =>
      (a.entry_algebraic i k).bind₂ (b.entry_algebraic k j) (· * ·)) _) _ _
  · trivial

theorem outer_algebraic (v w : OrientedVector α) : Algebraic (outer v w) := by
  unfold outer
  split
  · exact ofFnM_algebraic (fun i j =>
      (v.entry_algebraic i).bind₂ (w.entry_algebraic j) (· * ·)) _ _
  · trivial

theorem augment_algebraic (a b : DenseMatrix α) : Algebraic (a.augment b) := by
  unfold augment
  split
  · exact ofFamily_algebraic _
  · trivial

theorem trim_algebraic (m : DenseMatrix α) (top bottom left right : Nat) :
    Algebraic (m.trim top bottom left right) := by
  unfold trim
  split
  · exact ofFnM_algebraic (fun i j => m.entry_algebraic _ _) _ _
  · trivial

theorem pivotRow_algebraic (work : DenseMatrix α) (degree col : Nat) :
    Algebraic (work.pivotRow degree col) :=
  Algebraic.foldlM (fun _ _ => (work.entry_algebraic _ _).bind₂ (work.entry_algebraic _ _) _) _ _

theorem clearEntry_algebraic (col : Nat) (work : DenseMatrix α) (row : Nat) :
    Algebraic (clearEntry col work row) := by
  unfold clearEntry
  split
  · trivial
  · refine (work.entry_algebraic row col).bind fun factor => ?_
    split
    · trivial
    · exact (work.row_algebraic row).bind fun target => (work.row_algebraic col).bind fun source =>
        work.replaceRow_algebraic row _

theorem clearColumn_algebraic (degree : Nat) (work : DenseMatrix α) (col : Nat) :
    Algebraic (clearColumn degree work col) := by
  refine (work.pivotRow_algebraic degree col).bind fun best => ?_
  refine (work.entry_algebraic best col).bind fun pivot => ?_
  split
  · trivial
  · refine (work.swapRows_algebraic col best).bind fun swapped => ?_
    refine (swapped.entry_algebraic col col).bind fun pivot => ?_
    refine (swapped.row_algebraic col).bind fun source => ?_
    refine (swapped.replaceRow_algebraic col _).bind fun scaled => ?_
    exact Algebraic.foldlM (clearEntry_algebraic col) _ _

theorem inverse_algebraic (m : DenseMatrix α) : Algebraic m.inverse := by
  refine (m.requireSquare_algebraic .inverse).bind fun _ => ?_
  dsimp only
  split
  · trivial
  · refine (m.augment_algebraic (identity m.rowCount)).bind fun work => ?_
    refine (Algebraic.foldlM (clearColumn_algebraic m.rowCount) _ _).bind fun work => ?_
    exact work.trim_algebraic 0 0 m.rowCount 0

theorem powerFrom_algebraic (result base : DenseMatrix α) (k : Nat) :
    Algebraic (powerFrom result base k) :=
  powerFrom_keeps (fun a b _ _ => a.mul_algebraic b) trivial trivial k

theorem power_algebraic (m : DenseMatrix α) (k : Int) : Algebraic (m.power k) := by
  refine (m.requireSquare_algebraic .matrixPower).bind fun _ => ?_
  dsimp only
  split
  · exact m.inverse_algebraic.bind fun base => powerFrom_algebraic _ base k.natAbs
  · exact powerFrom_algebraic _ m k.natAbs

end DenseMatrix

variable {β : Type} [ElementaryFunctions β]

theorem OrientedVector.product_algebraic (v w : OrientedVector (Scalar β)) :
    Algebraic (v.product w) := by
  unfold product
  split
  · exact (v.inner_algebraic w).map _
  · exact (DenseMatrix.outer_algebraic v w).map _
  · trivial

theorem UnaryOp.apply_algebraic (op : UnaryOp) (x : Operand β) : Algebraic (op.apply x) := by
  unfold apply
  split <;> trivial

theorem BinaryOp.apply_algebraic (op : BinaryOp) (x y : Operand β) : Algebraic (op.apply x y) := by
  cases op with
  | add =>
    cases x <;> cases y
    case vector.vector v w => exact (v.zipItems_algebraic _ _ w).map _
    case matrix.matrix m n => exact (m.zipEntries_algebraic _ _ n).map _
    all_goals trivial
  | subtract =>
    cases x <;> cases y
    case vector.vector v w => exact (v.zipItems_algebraic _ _ w).map _
    case matrix.matrix m n => exact (m.zipEntries_algebraic _ _ n).map _
    all_goals trivial
  | multiply =>
    cases x <;> cases y
    case vector.vector v w => exact v.product_algebraic w
    case vector.matrix v m => exact (DenseMatrix.rowMul_algebraic v m).map _
    case matrix.vector m v => exact (m.mulColumn_algebraic v).map _
    case matrix.matrix m n => exact (m.mul_algebraic n).map _
    all_goals trivial
  | divide => cases x <;> cases y <;> trivial
  | power =>
    cases x <;> cases y
    case matrix.scalar m s => exact (m.power_algebraic _).map _
    all_goals trivial

end MatrixCalculator
