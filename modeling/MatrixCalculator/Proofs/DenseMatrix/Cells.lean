import MatrixCalculator.Proofs.DenseMatrix.Regular
set_option autoImplicit false

/-!
A regular matrix is the grid of its cells. Reading its rows, a column, the transpose or the image of
every entry comes to reading cells at indices inside the grid, so that whoever reads without asking
finds what checked reading finds.
-/

namespace MatrixCalculator.DenseMatrix

variable {α : Type} [Entry α] {m : DenseMatrix α} {s : Shape}

theorem cell_eq_getD {i : Nat} {v : OrientedVector α} (h : m.row? i = some v) (j : Nat) :
    m.cell i j = v.items.getD j 0 := by
  simp only [cell, get?, h, Option.bind_some]
  exact List.getD_eq_getElem?_getD.symm

theorem length_lists {α : Type} (m : DenseMatrix α) : m.lists.length = m.rowCount := List.length_map _

theorem get?_eq_lists {α : Type} (m : DenseMatrix α) (i j : Nat) :
    m.get? i j = m.lists[i]?.bind (·[j]?) := by
  rw [lists, List.getElem?_map, Option.bind_map]
  rfl

theorem get?_ofFn (rows cols : Nat) (f : Nat → Nat → α) (i j : Nat) :
    (ofFn rows cols f).get? i j = if i < rows ∧ j < cols then some (f i j) else none := by
  rw [get?_eq_lists, ofFn, lists_ofLists]
  by_cases hi : i < rows
  · by_cases hj : j < cols <;> simp [hi, hj]
  · simp [hi]

theorem cell_ofFn {rows cols : Nat} {f : Nat → Nat → α} {i j : Nat} (hi : i < rows) (hj : j < cols) :
    (ofFn rows cols f).cell i j = f i j := by
  rw [cell, get?_ofFn, if_pos ⟨hi, hj⟩, Option.getD_some]

theorem ofFn_congr {rows cols : Nat} {f g : Nat → Nat → α}
    (h : ∀ i < rows, ∀ j < cols, f i j = g i j) : ofFn rows cols f = ofFn rows cols g := by
  refine congrArg (ofLists cols) (List.map_congr_left fun i hi => List.map_congr_left fun j hj => ?_)
  exact h i (List.mem_range.1 hi) j (List.mem_range.1 hj)

/-- Matrices of one shape with related entries in equal places. -/
structure Alike {α : Type} (R : α → α → Prop) (m n : DenseMatrix α) : Prop where
  shape_eq : m.shape = n.shape
  get?_rel (i j : Nat) : Option.Rel R (m.get? i j) (n.get? i j)

theorem alike_of_get?_eq {α : Type} {m n : DenseMatrix α} (hshape : m.shape = n.shape)
    (hget : ∀ i j, m.get? i j = n.get? i j) : m.Alike (· = ·) n := by
  refine ⟨hshape, fun i j => ?_⟩
  rw [hget]
  cases n.get? i j with
  | none => exact .none
  | some x => exact .some rfl

theorem alike_self {α : Type} (m : DenseMatrix α) : m.Alike (· = ·) m :=
  alike_of_get?_eq rfl fun _ _ => rfl

namespace HasShape

theorem lists_eq (h : m.HasShape s) :
    m.lists = (List.range s.rows).map fun i => (List.range s.cols).map (m.cell i) := by
  have hlength : m.lists.length = s.rows := m.length_lists.trans h.rowCount_eq
  refine List.ext_getElem (by simpa using hlength) fun i hi hi' => ?_
  obtain ⟨v, hv⟩ := h.exists_row? (hlength ▸ hi)
  have hitems : m.lists[i] = v.items := by
    obtain ⟨hlt, rfl⟩ := List.getElem?_eq_some_iff.1 hv
    exact List.getElem_map _
  have hl : v.items.length = s.cols := h.length_row? hv
  rw [hitems, List.getElem_map, List.getElem_range]
  refine List.ext_getElem (by simpa using hl) fun j hj hj' => ?_
  rw [List.getElem_map, List.getElem_range, cell_eq_getD hv]
  simp [hj]

theorem columnItems_eq (h : m.HasShape s) {j : Nat} (hj : j < s.cols) :
    m.columnItems j = (List.range s.rows).map (m.cell · j) := by
  have hread (i : Nat) : ((List.range s.cols).map (m.cell i))[j]? = some (m.cell i j) := by
    simp [List.getElem?_range hj]
  rw [columnItems, h.lists_eq, List.filterMap_map]
  simp only [Function.comp_def, hread, List.filterMap_eq_map']

theorem transposed_eq (h : m.HasShape s) :
    m.transposed = ofFn s.cols s.rows fun i j => m.cell j i := by
  rw [transposed, ofFn, h.rowCount_eq, h.colCount_eq]
  refine congrArg _ (List.map_congr_left fun j hj => ?_)
  exact h.columnItems_eq (List.mem_range.1 hj)

theorem mapEntries_eq (h : m.HasShape s) (f : α → α) :
    m.mapEntries f = ofFn s.rows s.cols fun i j => f (m.cell i j) := by
  rw [DenseMatrix.mapEntries, ofFn, h.colCount_eq, h.lists_eq]
  simp only [List.map_map, Function.comp_def]

theorem isSome_get?_iff (h : m.HasShape s) {i j : Nat} :
    (m.get? i j).isSome = true ↔ i < s.rows ∧ j < s.cols := by
  constructor
  · intro hsome
    obtain ⟨x, hx⟩ := Option.isSome_iff_exists.1 hsome
    obtain ⟨v, hv, hj⟩ := Option.bind_eq_some_iff.1 hx
    have hi := (List.getElem?_eq_some_iff.1 hv).1
    have hj := (List.getElem?_eq_some_iff.1 hj).1
    exact ⟨h.rowCount_eq ▸ hi, h.length_row? hv ▸ hj⟩
  · rintro ⟨hi, hj⟩
    rw [entry_eq_ok.1 (h.entry_eq_cell hi hj)]
    rfl

theorem get?_eq (h : m.HasShape s) (i j : Nat) :
    m.get? i j = if i < s.rows ∧ j < s.cols then some (m.cell i j) else none := by
  have hsome := h.isSome_get?_iff (i := i) (j := j)
  unfold cell
  cases hx : m.get? i j <;> simp_all

theorem alike {R : α → α → Prop} {n : DenseMatrix α} (hm : m.HasShape s) (hn : n.HasShape s)
    (h : ∀ i < s.rows, ∀ j < s.cols, R (m.cell i j) (n.cell i j)) : m.Alike R n := by
  refine ⟨hm.shape_eq.trans hn.shape_eq.symm, fun i j => ?_⟩
  rw [hm.get?_eq, hn.get?_eq]
  split
  · next hin => exact .some (h i hin.1 j hin.2)
  · exact .none

theorem get?_transposed (h : m.HasShape s) (i j : Nat) : m.transposed.get? j i = m.get? i j := by
  rw [h.transposed_eq, get?_ofFn, h.get?_eq]
  simp only [and_comm]

theorem cell_transposed (h : m.HasShape s) (i j : Nat) : m.transposed.cell j i = m.cell i j := by
  rw [cell, h.get?_transposed, cell]

theorem transposed (h : m.HasShape s) : m.transposed.HasShape ⟨s.cols, s.rows⟩ := by
  rw [h.transposed_eq]
  exact hasShape_ofFn ..

theorem conjTransposed (h : m.HasShape s) : m.conjTransposed.HasShape ⟨s.cols, s.rows⟩ :=
  h.conjugated.transposed

end HasShape

end MatrixCalculator.DenseMatrix
