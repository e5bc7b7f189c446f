import Mathlib.Data.List.Basic
import MatrixCalculator.Proofs.DenseMatrix.WellFormed
set_option autoImplicit false

/-!
Reading and storing without asking. Columns, the transpose and the image of every entry take what
they find and pass over what is missing, and the identity stores its ones without looking whether
the places exist. In well-formed matrices nothing is missing: each of these agrees with a version
of itself that refuses every index outside the grid and is never refused.
-/

namespace MatrixCalculator.DenseMatrix

variable {α : Type} [Entry α]

/-- Every entry that an operation on the matrix asks for lies inside the grid. -/
structure Enclosed (m : DenseMatrix α) : Prop where
  get? (i j : Nat) : (m.get? i j).isSome = true ↔ i < m.rowCount ∧ j < m.colCount
  column (j : Nat) (hj : j < m.colCount) :
    m.family.vectors.mapM (·.entry j) = .ok (m.columnItems j)
  transposed : ofFnM m.colCount m.rowCount (fun i j => m.entry j i) = .ok m.transposed
  mapEntries (f : α → α) :
    ofFnM m.rowCount m.colCount (fun i j => do return f (← m.entry i j)) = .ok (m.mapEntries f)
  trace : Inside (fun _ => True) m.trace
  det : Inside (fun _ => True) m.det
  minor (k l : Nat) (hk : k < m.rowCount) (hl : l < m.colCount) : Inside WellFormed (m.minor k l)
  inverse : Inside WellFormed m.inverse
  trim (top bottom left right : Nat) : Inside WellFormed (m.trim top bottom left right)
  power (k : Int) : Inside WellFormed (m.power k)
  mulColumn (v : OrientedVector α) : Inside OrientedVector.WellFormed (m.mulColumn v)
  rowMul (v : OrientedVector α) : Inside OrientedVector.WellFormed (rowMul v m)
  add (n : DenseMatrix α) (hn : n.WellFormed) : Inside WellFormed (m.add n)
  sub (n : DenseMatrix α) (hn : n.WellFormed) : Inside WellFormed (m.sub n)
  mul (n : DenseMatrix α) (hn : n.WellFormed) : Inside WellFormed (m.mul n)

namespace HasShape

variable {m : DenseMatrix α} {s : Shape} {i j : Nat}

theorem mapM_entry_eq (h : m.HasShape s) (hj : j < s.cols) :
    m.family.vectors.mapM (·.entry j) = .ok (m.columnItems j) := by
  have hlength (v : OrientedVector α) (hv : v ∈ m.family.vectors) : j < v.length :=
    Nat.lt_of_lt_of_eq hj ((h.regular v hv).trans h.colCount_eq).symm
  have hcolumn : m.columnItems j = m.family.vectors.map (·.items.getD j 0) := by
    rw [columnItems, lists, List.filterMap_map]
    refine List.filterMap_eq_map_iff_forall_eq_some.2 fun v hv => ?_
    have hlt : j < v.items.length := hlength v hv
    simp [hlt]
  rw [hcolumn]
  exact mapM_of_ok fun v hv => OrientedVector.entry_eq_getD (hlength v hv)

theorem result_set (h : m.HasShape s) (hi : i < s.rows) (hj : j < s.cols) (x : α) :
    (m.set i j x).result = .ok (m.set i j x).state := by
  obtain ⟨v, hv⟩ := h.exists_row? hi
  have hl : j < v.length := Nat.lt_of_lt_of_eq hj (h.length_row? hv).symm
  have hrefusal : (m.set i j x).refusal = none := by
    simp only [row?] at hv
    simp [DenseMatrix.set, VectorFamily.setEntry, hv, OrientedVector.refusal_set, hl, Update.map,
      Update.done]
  exact Update.result_eq_ok.2 ⟨hrefusal, rfl⟩

end HasShape

theorem foldlM_set_diagonal (n : Nat) :
    (List.range n).foldlM (fun m i => (m.set i i 1).result) (zeros n n : DenseMatrix α) =
      .ok (identity n) := by
  refine foldlM_of_invariant (P := (HasShape · ⟨n, n⟩)) (fun m hm i hi => ?_) (hasShape_zeros n n)
  have hi : i < n := List.mem_range.1 hi
  exact ⟨hm.result_set hi hi 1, hm.set i i 1⟩

theorem WellFormed.enclosed {m : DenseMatrix α} (h : m.WellFormed) : m.Enclosed where
  get? _ _ := h.hasShape.isSome_get?_iff
  column _ hj := h.hasShape.mapM_entry_eq hj
  transposed := by
    rw [h.hasShape.transposed_eq]
    exact ofFnM_of_ok fun i hi j hj => h.hasShape.entry_eq_cell hj hi
  mapEntries f := by
    rw [h.hasShape.mapEntries_eq f]
    refine ofFnM_of_ok fun i hi j hj => ?_
    rw [h.hasShape.entry_eq_cell hi hj]
    rfl
  trace := h.trace_inside
  det := h.det_inside
  minor k l _ _ := h.minor_inside k l
  inverse := h.inverse_inside
  trim := h.trim_inside
  power := h.power_inside
  mulColumn := h.mulColumn_inside
  rowMul := h.rowMul_inside
  add _ hn := h.zipEntries_inside hn .matrixAddition (· + ·)
  sub _ hn := h.zipEntries_inside hn .matrixSubtraction (· - ·)
  mul _ hn := h.mul_inside hn

end MatrixCalculator.DenseMatrix
