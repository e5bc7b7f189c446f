import MatrixCalculator.DenseMatrix.Inverse
import MatrixCalculator.Proofs.DenseMatrix.Block
import MatrixCalculator.Proofs.Ends
set_option autoImplicit false

/-!
Elimination never reaches outside the grid, whatever the entries are and however they compare: it
keeps the shape of the matrix it works on, and the only reason to refuse is a zero pivot.
-/

namespace MatrixCalculator.DenseMatrix

variable {α : Type} [Entry α]

section

variable {work : DenseMatrix α} {degree width col row : Nat}

theorem pivotRow_ends (h : work.HasShape ⟨degree, width⟩) (hd : col < degree) (hw : col < width) :
    Ends (· < degree) (fun _ => False) (work.pivotRow degree col) := by
  refine Ends.foldlM (fun best r hr hbest => ?_) hd
  have hr : r < degree := by
    have := List.mem_range'_1.1 hr
    omega
  simp only [h.entry_eq_cell hbest hw, h.entry_eq_cell hr hw, bind, Except.bind]
  split
  · exact hbest
  · exact hr

theorem clearEntry_ends (h : work.HasShape ⟨degree, width⟩) (hd : col < degree) (hw : col < width)
    (hr : row < degree) :
    Ends (HasShape · ⟨degree, width⟩) (fun _ => False) (clearEntry col work row) := by
  obtain ⟨target, htarget, hlt⟩ := h.exists_row hr
  obtain ⟨source, hsource, hls⟩ := h.exists_row hd
  unfold clearEntry
  simp only [h.entry_eq_cell hr hw, htarget, hsource, bind, Except.bind]
  split
  · exact h
  · split
    · exact h
    · have hl : (OrientedVector.ofList .row (target.items.zipWith
          (fun a b => a - work.cell row col * b) source.items)).length = width := by
        have hlt : target.items.length = width := hlt
        have hls : source.items.length = width := hls
        rw [OrientedVector.length_ofList, List.length_zipWith, hlt, hls, Nat.min_self]
      obtain ⟨m, hm, hshape⟩ := h.replaceRow hr hl
      rw [hm]
      exact hshape

theorem clearColumn_ends (h : work.HasShape ⟨degree, width⟩) (hd : col < degree) (hw : col < width) :
    Ends (HasShape · ⟨degree, width⟩) (· = .singularMatrix) (clearColumn degree work col) := by
  obtain ⟨best, hbest, hb⟩ := (pivotRow_ends h hd hw).exists_ok
  obtain ⟨swapped, hswap, hs⟩ := h.swapRows hd hb
  obtain ⟨source, hsource, hl⟩ := hs.exists_row hd
  have hnormalized : (OrientedVector.ofList .row
      (source.items.map (· / swapped.cell col col))).length = width := by
    rw [OrientedVector.length_ofList, List.length_map]
    exact hl
  obtain ⟨scaled, hscale, hscaled⟩ := hs.replaceRow hd hnormalized
  unfold clearColumn
  simp only [hbest, h.entry_eq_cell hb hw, hswap, hs.entry_eq_cell hd hw, hsource, hscale, bind,
    Except.bind]
  split
  · exact rfl
  · refine Ends.mono (Ends.foldlM (fun w row hrow hshape => ?_) hscaled) (fun _ => id) (fun _ => False.elim)
    exact clearEntry_ends hshape hd hw (List.mem_range.1 hrow)

end

/-- A square matrix has an inverse of its own shape, or else elimination met a zero pivot. -/
theorem inverse_ends {m : DenseMatrix α} {n : Nat} (h : m.HasShape ⟨n, n⟩) :
    Ends (HasShape · ⟨n, n⟩) (· = .singularMatrix) m.inverse := by
  unfold inverse
  simp only [h.requireSquare_eq, h.rowCount_eq, bind, Except.bind]
  by_cases hn : n = 0
  · subst hn
    exact hasShape_zeros 0 0
  · have hpos : 0 < n := Nat.pos_of_ne_zero hn
    have hrun (work : DenseMatrix α) (hwork : work.HasShape ⟨n, n + n⟩) :
        Ends (HasShape · ⟨n, n + n⟩) (· = .singularMatrix)
          ((List.range n).foldlM (clearColumn n) work) := by
      refine Ends.foldlM (fun w col hcol hshape => ?_) hwork
      have hcol := List.mem_range.1 hcol
      exact clearColumn_ends hshape hcol (by omega)
    simp only [augment_eq h (hasShape_identity n) hpos, if_neg hn]
    refine (hrun _ (hasShape_ofFn ..)).bind fun w hw => ?_
    have hshape := hasShape_ofFn n n fun i j => w.cell i (j + n)
    rw [trim_of_lt hw (by simpa using hpos) (by simpa using hpos)]
    simpa [Ends] using hshape

end MatrixCalculator.DenseMatrix
