import MatrixCalculator.DenseMatrix.Arithmetic
import MatrixCalculator.Proofs.DenseMatrix.Cells
set_option autoImplicit false

/-!
Sums and products of regular matrices as plain functions of the entries. None of them is refused
once the shapes agree.
-/

namespace MatrixCalculator

theorem OrientedVector.entry_eq_getD {α : Type} [Zero α] {v : OrientedVector α} {i : Nat}
    (hi : i < v.length) : v.entry i = .ok (v.items.getD i 0) := by
  have hl : i < v.items.length := hi
  have hg : v.items[i]? = some (v.items.getD i 0) := by simp [List.getElem?_eq_getElem hl]
  rw [entry_eq_ok]
  exact hg

namespace DenseMatrix

variable {α : Type} [Entry α]

def sum (n : Nat) (term : Nat → α) : α := (List.range n).foldl (fun acc k => acc + term k) 0

theorem sumM_of_ok {n : Nat} {term : Nat → Except Error α} {g : Nat → α}
    (h : ∀ k < n, term k = .ok (g k)) : sumM n term = .ok (sum n g) := by
  refine foldlM_of_ok (fun acc k hk => ?_) 0
  rw [h k (List.mem_range.1 hk)]
  rfl

/-- What holds of zeros and of the sums of what it holds of, holds of sums term by term. -/
theorem sum_rel {R : α → α → Prop} (zero : R 0 0)
    (add : ∀ {x x' y y' : α}, R x x' → R y y' → R (x + y) (x' + y')) {n : Nat} {f g : Nat → α}
    (h : ∀ k < n, R (f k) (g k)) : R (sum n f) (sum n g) := by
  induction n with
  | zero => exact zero
  | succ n ih =>
    have hlast := add (ih fun k hk => h k (Nat.lt_succ_of_lt hk)) (h n (Nat.lt_succ_self n))
    simpa only [sum, List.range_succ, List.foldl_append, List.foldl_cons, List.foldl_nil] using hlast

theorem sum_congr {n : Nat} {f g : Nat → α} (h : ∀ k < n, f k = g k) : sum n f = sum n g :=
  sum_rel rfl (fun hx hy => by rw [hx, hy]) h

section

variable {a b : DenseMatrix α} {s t : Shape}

theorem zipEntries_of_shape_eq (ha : a.HasShape s) (hb : b.HasShape s) (operation : Operation)
    (f : α → α → α) :
    zipEntries operation f a b = .ok (ofFn s.rows s.cols fun i j => f (a.cell i j) (b.cell i j)) := by
  have hs : a.shape = b.shape := ha.shape_eq.trans hb.shape_eq.symm
  rw [zipEntries, if_pos hs, ha.rowCount_eq, ha.colCount_eq]
  refine ofFnM_of_ok fun i hi j hj => ?_
  rw [ha.entry_eq_cell hi hj, hb.entry_eq_cell hi hj]
  rfl

theorem mul_of_shape_eq (ha : a.HasShape s) (hb : b.HasShape t) (h : s.cols = t.rows) :
    a.mul b = .ok (ofFn s.rows t.cols fun i j => sum s.cols fun k => a.cell i k * b.cell k j) := by
  have hab : a.colCount = b.rowCount := by rw [ha.colCount_eq, hb.rowCount_eq, h]
  rw [mul, if_pos hab, ha.rowCount_eq, hb.colCount_eq, ha.colCount_eq]
  refine ofFnM_of_ok fun i hi j hj => sumM_of_ok fun k hk => ?_
  rw [ha.entry_eq_cell hi hk, hb.entry_eq_cell (h ▸ hk) hj]
  rfl

theorem mul_of_cells {rows inner cols : Nat} {f g : Nat → Nat → α} (ha : a.HasShape ⟨rows, inner⟩)
    (hb : b.HasShape ⟨inner, cols⟩) (hf : ∀ i < rows, ∀ k < inner, a.cell i k = f i k)
    (hg : ∀ k < inner, ∀ j < cols, b.cell k j = g k j) :
    a.mul b = .ok (ofFn rows cols fun i j => sum inner fun k => f i k * g k j) := by
  rw [mul_of_shape_eq ha hb rfl]
  refine congrArg _ (ofFn_congr fun i hi j hj => sum_congr fun k hk => ?_)
  rw [hf i hi k hk, hg k hk j hj]

theorem HasShape.mul (ha : a.HasShape s) (hb : b.HasShape t) (h : s.cols = t.rows) :
    ∃ m, a.mul b = .ok m ∧ m.HasShape ⟨s.rows, t.cols⟩ :=
  ⟨_, mul_of_shape_eq ha hb h, hasShape_ofFn ..⟩

theorem mulColumn_of_length_eq {v : OrientedVector α} (ha : a.HasShape s) (hv : v.space = .column)
    (hl : v.length = s.cols) :
    a.mulColumn v = .ok (.ofList .column ((List.range s.rows).map fun i =>
      sum s.cols fun j => a.cell i j * v.items.getD j 0)) := by
  rw [mulColumn, if_pos ⟨hv, hl.trans ha.colCount_eq.symm⟩, ha.rowCount_eq, ha.colCount_eq]
  have hitems : (List.range s.rows).mapM (fun i =>
      sumM s.cols fun j => do return (← a.entry i j) * (← v.entry j)) =
      .ok ((List.range s.rows).map fun i => sum s.cols fun j => a.cell i j * v.items.getD j 0) := by
    refine mapM_of_ok fun i hi => sumM_of_ok fun j hj => ?_
    rw [ha.entry_eq_cell (List.mem_range.1 hi) hj, OrientedVector.entry_eq_getD (hl ▸ hj)]
    rfl
  rw [hitems]
  rfl

theorem rowMul_of_length_eq {v : OrientedVector α} (ha : a.HasShape s) (hv : v.space = .row)
    (hl : v.length = s.rows) :
    rowMul v a = .ok (.ofList .row ((List.range s.cols).map fun j =>
      sum s.rows fun i => v.items.getD i 0 * a.cell i j)) := by
  rw [rowMul, if_pos ⟨hv, hl.trans ha.rowCount_eq.symm⟩, ha.rowCount_eq, ha.colCount_eq]
  have hitems : (List.range s.cols).mapM (fun j =>
      sumM s.rows fun i => do return (← v.entry i) * (← a.entry i j)) =
      .ok ((List.range s.cols).map fun j => sum s.rows fun i => v.items.getD i 0 * a.cell i j) := by
    refine mapM_of_ok fun j hj => sumM_of_ok fun i hi => ?_
    rw [OrientedVector.entry_eq_getD (hl ▸ hi), ha.entry_eq_cell hi (List.mem_range.1 hj)]
    rfl
  rw [hitems]
  rfl

end

theorem outer_eq {v w : OrientedVector α} (hv : v.space = .column) (hw : w.space = .row) :
    outer v w = .ok (ofFn v.length w.length fun i j => v.items.getD i 0 * w.items.getD j 0) := by
  rw [outer, if_pos ⟨hv, hw⟩]
  refine ofFnM_of_ok fun i hi j hj => ?_
  rw [OrientedVector.entry_eq_getD hi, OrientedVector.entry_eq_getD hj]
  rfl

end DenseMatrix

end MatrixCalculator
