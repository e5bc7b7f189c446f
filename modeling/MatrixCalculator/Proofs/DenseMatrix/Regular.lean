import MatrixCalculator.DenseMatrix
set_option autoImplicit false

/-!
Regular matrices: every row is as long as the matrix is wide. On a regular matrix an index inside
the grid always finds an entry, so that operations are plain functions of `cell`. What the
constructors build is regular, and replacing entries or rows keeps it so.
-/

namespace MatrixCalculator.DenseMatrix

variable {α : Type}

def Regular (m : DenseMatrix α) : Prop := ∀ v ∈ m.family.vectors, v.length = m.colCount

structure HasShape (m : DenseMatrix α) (s : Shape) : Prop where
  regular : m.Regular
  shape_eq : m.shape = s

theorem regular_iff_lists {m : DenseMatrix α} :
    m.Regular ↔ ∀ row ∈ m.lists, row.length = m.colCount := by
  simp only [Regular, lists, List.forall_mem_map]
  exact Iff.rfl

theorem Regular.hasShape {m : DenseMatrix α} (h : m.Regular) : m.HasShape m.shape := ⟨h, rfl⟩

theorem regular_of_ofFamily {f : VectorFamily α} {m : DenseMatrix α} (h : ofFamily f = .ok m) :
    m.Regular := by
  simp only [ofFamily] at h
  split at h
  · cases h
  · next hg =>
    cases h
    intro v hv
    simpa [colCount] using List.find?_eq_none.1 hg v hv

namespace HasShape

variable {m : DenseMatrix α} {s : Shape} {i j : Nat} {v : OrientedVector α}

theorem rowCount_eq (h : m.HasShape s) : m.rowCount = s.rows := congrArg Shape.rows h.shape_eq

theorem colCount_eq (h : m.HasShape s) : m.colCount = s.cols := congrArg Shape.cols h.shape_eq

theorem requireSquare_eq {n : Nat} (h : m.HasShape ⟨n, n⟩) (operation : Operation) :
    m.requireSquare operation = .ok () := by
  simp [requireSquare, isSquare, h.rowCount_eq, h.colCount_eq]

theorem length_row? (h : m.HasShape s) (hv : m.row? i = some v) : v.length = s.cols :=
  (h.regular v (List.mem_of_getElem? hv)).trans h.colCount_eq

theorem exists_row? (h : m.HasShape s) (hi : i < s.rows) : ∃ v, m.row? i = some v :=
  ⟨_, List.getElem?_eq_getElem (Nat.lt_of_lt_of_eq hi h.rowCount_eq.symm)⟩

theorem exists_row (h : m.HasShape s) (hi : i < s.rows) :
    ∃ v, m.row i = .ok v ∧ v.length = s.cols := by
  obtain ⟨v, hv⟩ := h.exists_row? hi
  exact ⟨v, by simp [row, hv], h.length_row? hv⟩

theorem ofVectors (h : m.HasShape s) {vs : List (OrientedVector α)} {rank : Rank}
    (hl : vs.length = m.rowCount) (hv : ∀ v ∈ vs, v.length = s.cols) :
    (⟨{ m.family with vectors := vs, rank := rank }⟩ : DenseMatrix α).HasShape s := by
  have hc := h.colCount_eq
  refine ⟨fun v hmem => (hv v hmem).trans hc.symm, ?_⟩
  rw [← h.shape_eq]
  simp only [shape, rowCount, VectorFamily.count, colCount, hl]

theorem state_swap (h : m.HasShape s) (i j : Nat) :
    (⟨(m.family.swap i j).state⟩ : DenseMatrix α).HasShape s := by
  constructor
  · intro u hu
    rw [h.regular u (VectorFamily.mem_of_mem_swap hu), colCount, colCount, m.family.innerLength_swap i j]
  · rw [← h.shape_eq]
    simp only [shape, rowCount, colCount, m.family.count_swap i j, m.family.innerLength_swap i j]

theorem state_set (h : m.HasShape s) (i : Nat) (hv : v.length = s.cols) :
    (⟨(m.family.set i v).state⟩ : DenseMatrix α).HasShape s := by
  have hmax : max m.family.innerLength v.length = m.family.innerLength :=
    Nat.max_eq_left (Nat.le_of_eq (hv.trans h.colCount_eq.symm))
  unfold VectorFamily.set
  rw [hmax]
  split
  · refine h.ofVectors (by simp [rowCount, VectorFamily.count]) fun u hu => ?_
    rcases List.mem_or_eq_of_mem_set hu with hu | rfl
    · exact (h.regular u hu).trans h.colCount_eq
    · rw [OrientedVector.length_inSpace, hv]
  · exact h

theorem swapRows (h : m.HasShape s) (hi : i < s.rows) (hj : j < s.rows) :
    ∃ m', (m.swapRows i j).result = .ok m' ∧ m'.HasShape s := by
  obtain ⟨v, hv⟩ := h.exists_row? hi
  obtain ⟨w, hw⟩ := h.exists_row? hj
  simp only [row?] at hv hw
  have hrefusal : (m.swapRows i j).refusal = none := by
    simp [DenseMatrix.swapRows, VectorFamily.swap, hv, hw, Update.map, Update.done]
  exact ⟨_, Update.result_eq_ok.2 ⟨hrefusal, rfl⟩, h.state_swap i j⟩

theorem replaceRow (h : m.HasShape s) (hi : i < s.rows) (hv : v.length = s.cols) :
    ∃ m', ((m.family.set i v).map DenseMatrix.mk).result = .ok m' ∧ m'.HasShape s := by
  have hi' : i < m.family.count := Nat.lt_of_lt_of_eq hi h.rowCount_eq.symm
  have hrefusal : ((m.family.set i v).map DenseMatrix.mk).refusal = none := by
    rw [Update.refusal_map, VectorFamily.refusal_set, if_pos hi']
  exact ⟨_, Update.result_eq_ok.2 ⟨hrefusal, rfl⟩, h.state_set i hv⟩

end HasShape

variable [Entry α]

/-- The entry in row `i` and column `j`, zero outside the grid. -/
def cell (m : DenseMatrix α) (i j : Nat) : α := (m.get? i j).getD 0

theorem HasShape.entry_eq_cell {m : DenseMatrix α} {s : Shape} (h : m.HasShape s) {i j : Nat}
    (hi : i < s.rows) (hj : j < s.cols) : m.entry i j = .ok (m.cell i j) := by
  obtain ⟨v, hv⟩ := h.exists_row? hi
  have hl : j < v.items.length := Nat.lt_of_lt_of_eq hj (h.length_row? hv).symm
  have hg : m.get? i j = some v.items[j] := by
    simp only [get?, hv, Option.bind_some, OrientedVector.get?, RankedSeq.get?]
    exact List.getElem?_eq_getElem hl
  rw [entry_eq_ok, cell, hg, Option.getD_some]

theorem hasShape_ofLists {cols : Nat} {rows : List (List α)} (h : ∀ row ∈ rows, row.length = cols) :
    (ofLists cols rows).HasShape ⟨rows.length, cols⟩ := by
  refine ⟨?_, by rw [shape, rowCount_ofLists, colCount_ofLists h]⟩
  rw [regular_iff_lists, lists_ofLists, colCount_ofLists h]
  exact h

theorem hasShape_ofFn (rows cols : Nat) (f : Nat → Nat → α) :
    (ofFn rows cols f).HasShape ⟨rows, cols⟩ := by
  have hl : ∀ row ∈ (List.range rows).map fun i => (List.range cols).map (f i),
      row.length = cols := by
    intro row hrow
    obtain ⟨i, -, rfl⟩ := List.mem_map.1 hrow
    simp
  simpa [ofFn] using hasShape_ofLists hl

theorem hasShape_zeros (rows cols : Nat) : (zeros rows cols : DenseMatrix α).HasShape ⟨rows, cols⟩ := by
  refine ⟨fun v hv => ?_, shape_zeros rows cols⟩
  simp only [zeros, VectorFamily.vectors_zeros] at hv
  rw [List.eq_of_mem_replicate hv, OrientedVector.length_zeros]
  rfl

namespace HasShape

variable {m : DenseMatrix α} {s : Shape}

theorem mapEntries (h : m.HasShape s) (f : α → α) : (m.mapEntries f).HasShape s := by
  obtain ⟨hr, rfl⟩ := h
  have hl : ∀ row ∈ m.lists.map (·.map f), row.length = m.colCount := by
    intro row hrow
    obtain ⟨r, hmem, rfl⟩ := List.mem_map.1 hrow
    rw [List.length_map, regular_iff_lists.1 hr r hmem]
  have hrows : (m.lists.map (·.map f)).length = m.rowCount := by
    rw [List.length_map]
    exact List.length_map ..
  have hmap := hasShape_ofLists hl
  rwa [hrows] at hmap

theorem conjugated (h : m.HasShape s) : m.conjugated.HasShape s := by
  unfold DenseMatrix.conjugated
  split
  · exact h
  · exact h.mapEntries _

theorem set (h : m.HasShape s) (i j : Nat) (x : α) : (m.set i j x).state.HasShape s := by
  change (⟨(m.family.setEntry i j x).state⟩ : DenseMatrix α).HasShape s
  cases hv : m.family.get? i with
  | none =>
    rw [VectorFamily.setEntry, hv]
    exact h
  | some v =>
    rw [VectorFamily.state_setEntry hv]
    refine h.ofVectors List.length_set fun w hw => ?_
    rcases List.mem_or_eq_of_mem_set hw with hw | rfl
    · exact (h.regular w hw).trans h.colCount_eq
    · rw [OrientedVector.length_set]
      exact h.length_row? hv

end HasShape

theorem hasShape_identity (n : Nat) : (identity n : DenseMatrix α).HasShape ⟨n, n⟩ := by
  unfold identity
  refine List.foldlRecOn (motive := fun m : DenseMatrix α => m.HasShape ⟨n, n⟩) _ _ (hasShape_zeros n n) ?_
  intro m hm i _
  exact hm.set i i 1

end MatrixCalculator.DenseMatrix
