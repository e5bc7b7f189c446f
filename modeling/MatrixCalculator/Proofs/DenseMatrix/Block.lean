import MatrixCalculator.DenseMatrix.Block
import MatrixCalculator.Proofs.DenseMatrix.Cells
set_option autoImplicit false

/-!
Matrices side by side and blocks of regular matrices, as plain functions of the cells.
-/

namespace MatrixCalculator.DenseMatrix

variable {α : Type} [Entry α]

theorem ofRows_ofList {cols : Nat} {rows : List (List α)} (hne : rows ≠ [])
    (hl : ∀ row ∈ rows, row.length = cols) :
    ofRows (rows.map (OrientedVector.ofList .row)) = .ok (ofLists cols rows) := by
  have hvectors : ∀ v ∈ rows.map (OrientedVector.ofList .row), v.length = cols :=
    List.forall_mem_map.2 hl
  have hmax : VectorFamily.maxLength (rows.map (OrientedVector.ofList .row)) = cols :=
    VectorFamily.maxLength_eq (mt List.map_eq_nil_iff.1 hne) hvectors
  have hnone : ((rows.map (OrientedVector.ofList .row)).map (·.inSpace .row)).find? (·.length != cols) =
      none := by
    simpa using hl
  simp only [ofRows, ofFamily, ofLists, VectorFamily.widened, VectorFamily.ofVectors, if_true, hmax,
    hnone, Nat.max_self]

theorem augment_eq {a b : DenseMatrix α} {n c d : Nat} (ha : a.HasShape ⟨n, c⟩)
    (hb : b.HasShape ⟨n, d⟩) (hn : 0 < n) :
    a.augment b =
      .ok (ofFn n (c + d) fun i j => if j < c then a.cell i j else b.cell i (j - c)) := by
  have hcount : a.rowCount = b.rowCount := by rw [ha.rowCount_eq, hb.rowCount_eq]
  have hrow (i : Nat) : (List.range c).map (a.cell i) ++ (List.range d).map (b.cell i) =
      (List.range (c + d)).map fun j => if j < c then a.cell i j else b.cell i (j - c) := by
    have hleft : (List.range c).map (fun j => if j < c then a.cell i j else b.cell i (j - c)) =
        (List.range c).map (a.cell i) :=
      List.map_congr_left fun j hj => if_pos (List.mem_range.1 hj)
    rw [List.range_add, List.map_append, hleft, List.map_map]
    refine congrArg _ (List.map_congr_left fun j _ => ?_)
    simp [Nat.not_lt.2 (Nat.le_add_right c j)]
  have hrows : a.lists.zipWith (· ++ ·) b.lists = (List.range n).map fun i =>
      (List.range (c + d)).map fun j => if j < c then a.cell i j else b.cell i (j - c) := by
    rw [ha.lists_eq, hb.lists_eq, List.zipWith_map, List.zipWith_self]
    exact List.map_congr_left fun i _ => hrow i
  rw [augment, if_pos hcount, hrows, ofFn]
  refine ofRows_ofList ?_ ?_
  · simpa using Nat.ne_of_gt hn
  · intro row hmem
    obtain ⟨i, -, rfl⟩ := List.mem_map.1 hmem
    simp

theorem trim_of_lt {m : DenseMatrix α} {s : Shape} (h : m.HasShape s) {top bottom left right : Nat}
    (hrows : top + bottom < s.rows) (hcols : left + right < s.cols) :
    m.trim top bottom left right =
      .ok (ofFn (s.rows - (top + bottom)) (s.cols - (left + right)) fun i j =>
        m.cell (i + top) (j + left)) := by
  rw [trim, if_pos ⟨h.rowCount_eq ▸ hrows, h.colCount_eq ▸ hcols⟩, h.rowCount_eq, h.colCount_eq]
  refine ofFnM_of_ok fun i hi j hj => h.entry_eq_cell ?_ ?_
  · omega
  · omega

end MatrixCalculator.DenseMatrix
