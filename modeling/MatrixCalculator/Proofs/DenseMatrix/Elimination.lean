import Mathlib
import MatrixCalculator.Proofs.DenseMatrix.Determinant
set_option autoImplicit false

/-!
One column of elimination over a field, cell by cell. A row of greatest modulus is exchanged with the
row of the column and divided by its pivot, and its multiples are taken from all other rows; whether
a multiple of zero is taken or passed over makes no difference. Elimination stops exactly where no
row is left with a pivot.
-/

namespace MatrixCalculator.DenseMatrix

open Equiv (swap swap_apply_def swap_apply_left)

section Rows

variable {α : Type} [Entry α] {m : DenseMatrix α} {s : Shape}

theorem HasShape.swapRows_cells (h : m.HasShape s) {i j : Nat} (hi : i < s.rows) (hj : j < s.rows) :
    ∃ m', (m.swapRows i j).result = .ok m' ∧ m'.HasShape s ∧
      ∀ k l, m'.cell k l = m.cell (swap i j k) l := by
  obtain ⟨m', hm', hs⟩ := h.swapRows hi hj
  refine ⟨m', hm', hs, fun k l => ?_⟩
  have hread := (m.swapRows_assigns i j).read_eq ⟨h.rowCount_eq ▸ hi, h.rowCount_eq ▸ hj⟩
  obtain ⟨-, rfl⟩ := Update.result_eq_ok.1 hm'
  have hrow : (m.swapRows i j).state.row? k = m.row? (swap i j k) := by
    rw [hread]
    simp only [Function.update_apply, swap_apply_def]
    grind
  rw [cell, cell, get?, get?, hrow]

theorem HasShape.replaceRow_cells (h : m.HasShape s) {i : Nat} {items : List α} (hi : i < s.rows)
    (hl : items.length = s.cols) :
    ∃ m', ((m.family.set i (.ofList .row items)).map DenseMatrix.mk).result = .ok m' ∧ m'.HasShape s ∧
      ∀ k l, m'.cell k l = if k = i then items.getD l 0 else m.cell k l := by
  obtain ⟨m', hm', hs⟩ := h.replaceRow (v := .ofList .row items) hi hl
  refine ⟨m', hm', hs, fun k l => ?_⟩
  have hcount : i < m.family.count := Nat.lt_of_lt_of_eq hi h.rowCount_eq.symm
  have hread := (m.family.set_assigns i (.ofList .row items)).read_eq hcount
  obtain ⟨-, rfl⟩ := Update.result_eq_ok.1 hm'
  change ((⟨(m.family.set i (.ofList .row items)).state⟩ : DenseMatrix α)).cell k l = _
  split
  · next hk =>
    have hrow : (⟨(m.family.set i (.ofList .row items)).state⟩ : DenseMatrix α).row? k =
        some ((OrientedVector.ofList .row items).inSpace m.family.space) := by
      rw [hk, row?, hread, Function.update_self]
    rw [cell_eq_getD hrow, OrientedVector.items_inSpace]
    rfl
  · next hk =>
    have hrow : (⟨(m.family.set i (.ofList .row items)).state⟩ : DenseMatrix α).row? k = m.row? k := by
      rw [row?, hread, Function.update_of_ne hk]
      rfl
    rw [cell, cell, get?, get?, hrow]

end Rows

variable {α L : Type} [FieldEntry α] [LinearOrder L] {modulus : α → L}
variable {work : DenseMatrix α} {n width col : Nat}

section Pivot

theorem compareModulus_eq_gt_iff (hmod : ComparedBy modulus) (x y : α) :
    Entry.compareModulus x y = some .gt ↔ modulus y < modulus x := by
  rw [hmod.compareModulus_eq, Option.some.injEq, compare_gt_iff_gt]

/-- Among the rows looked at, none has a greater modulus than the one that is kept. -/
theorem foldlM_pivot (hmod : ComparedBy modulus) (h : work.HasShape ⟨n, width⟩) (hw : col < width)
    {rows : List Nat} {best : Nat} (hrows : ∀ r ∈ best :: rows, r < n) :
    ∃ r ∈ best :: rows, (∀ q ∈ best :: rows, modulus (work.cell q col) ≤ modulus (work.cell r col)) ∧
      rows.foldlM (fun best r => do
        let x ← work.entry best col
        let y ← work.entry r col
        return if Entry.compareModulus x y = some Ordering.gt then best else r) best = .ok r := by
  induction rows generalizing best with
  | nil => exact ⟨best, List.mem_cons_self, by simp, rfl⟩
  | cons next rows ih =>
    simp only [List.forall_mem_cons] at hrows ih ⊢
    obtain ⟨hbest, hnext, hrows⟩ := hrows
    rw [List.foldlM_cons, h.entry_eq_cell hbest hw, h.entry_eq_cell hnext hw]
    by_cases hgt : modulus (work.cell next col) < modulus (work.cell best col)
    · obtain ⟨r, hr, ⟨hmax, hle⟩, hrun⟩ := ih ⟨hbest, hrows⟩
      refine ⟨r, ?_, ⟨hmax, hgt.le.trans hmax, hle⟩, ?_⟩
      · exact List.mem_cons.2 ((List.mem_cons.1 hr).imp_right (List.mem_cons_of_mem next))
      · simpa [bind, Except.bind, pure, Except.pure, (compareModulus_eq_gt_iff hmod _ _).2 hgt] using hrun
    · obtain ⟨r, hr, ⟨hmax, hle⟩, hrun⟩ := ih ⟨hnext, hrows⟩
      refine ⟨r, List.mem_cons_of_mem best hr, ⟨(not_lt.1 hgt).trans hmax, hmax, hle⟩, ?_⟩
      simpa [bind, Except.bind, pure, Except.pure, mt (compareModulus_eq_gt_iff hmod _ _).1 hgt] using hrun

theorem pivotRow_spec (hmod : ComparedBy modulus) (h : work.HasShape ⟨n, width⟩) (hn : col < n)
    (hw : col < width) :
    ∃ best, work.pivotRow n col = .ok best ∧ col ≤ best ∧ best < n ∧
      ∀ r, col ≤ r → r < n → modulus (work.cell r col) ≤ modulus (work.cell best col) := by
  have hmem (r : Nat) : r ∈ col :: List.range' (col + 1) (n - (col + 1)) ↔ col ≤ r ∧ r < n := by
    simp only [List.mem_cons, List.mem_range'_1]
    omega
  obtain ⟨best, hbest, hmax, hrun⟩ := foldlM_pivot hmod h hw fun r hr => ((hmem r).1 hr).2
  obtain ⟨hle, hlt⟩ := (hmem best).1 hbest
  exact ⟨best, hrun, hle, hlt, fun r hcr hrn => hmax r ((hmem r).2 ⟨hcr, hrn⟩)⟩

end Pivot

section Clearing

theorem clearEntry_cells (h : work.HasShape ⟨n, width⟩) {row : Nat} (hrow : row < n) (hn : col < n)
    (hw : col < width) :
    ∃ w, clearEntry col work row = .ok w ∧ w.HasShape ⟨n, width⟩ ∧ ∀ i, ∀ k < width,
      w.cell i k = if i = row ∧ i ≠ col then work.cell i k - work.cell i col * work.cell col k
        else work.cell i k := by
  obtain ⟨target, htarget⟩ := h.exists_row? hrow
  obtain ⟨source, hsource⟩ := h.exists_row? hn
  have hlt : target.items.length = width := h.length_row? htarget
  have hls : source.items.length = width := h.length_row? hsource
  unfold clearEntry
  simp only [h.entry_eq_cell hrow hw, DenseMatrix.row, htarget, hsource, bind, Except.bind]
  split
  · next heq =>
    refine ⟨work, rfl, h, fun i k _ => (if_neg ?_).symm⟩
    rintro ⟨rfl, hne⟩
    exact hne heq
  · next hne =>
    split
    · next hzero =>
      rw [Entry.isZero_iff] at hzero
      refine ⟨work, rfl, h, fun i k _ => ?_⟩
      split
      · next hi => rw [hi.1, hzero, zero_mul, sub_zero]
      · rfl
    · have hl : (target.items.zipWith (fun a b => a - work.cell row col * b) source.items).length = width := by
        rw [List.length_zipWith, hlt, hls, Nat.min_self]
      obtain ⟨w, hw', hs, hcells⟩ := h.replaceRow_cells hrow hl
      refine ⟨w, hw', hs, fun i k hk => ?_⟩
      have hreduced : (target.items.zipWith (fun a b => a - work.cell row col * b) source.items).getD k 0 =
          work.cell row k - work.cell row col * work.cell col k := by
        rw [cell_eq_getD htarget k, cell_eq_getD hsource k]
        simp [List.getD_eq_getElem?_getD, hlt, hls, hk]
      rw [hcells, hreduced]
      grind

theorem foldlM_clearEntry_cells (h : work.HasShape ⟨n, width⟩) (hn : col < n) (hw : col < width)
    {k : Nat} (hk : k ≤ n) :
    ∃ w, (List.range k).foldlM (clearEntry col) work = .ok w ∧ w.HasShape ⟨n, width⟩ ∧
      ∀ i, ∀ l < width, w.cell i l =
        if i < k ∧ i ≠ col then work.cell i l - work.cell i col * work.cell col l
        else work.cell i l := by
  induction k with
  | zero => exact ⟨work, rfl, h, fun i l _ => by simp⟩
  | succ k ih =>
    obtain ⟨w, hrun, hs, hcells⟩ := ih (Nat.le_of_succ_le hk)
    obtain ⟨w', hstep, hs', hcells'⟩ := clearEntry_cells hs hk hn hw
    refine ⟨w', ?_, hs', fun i l hl => ?_⟩
    · rw [List.range_succ, List.foldlM_append, hrun]
      simp only [bind, Except.bind, List.foldlM_cons, List.foldlM_nil, hstep]
      rfl
    · rw [hcells' i l hl, hcells i l hl, hcells i col hw, hcells col l hl]
      grind

/-- The column is cleared in `w`, with the pivot that stood in row `best` of the work matrix. -/
structure Cleared (work w : DenseMatrix α) (n width col best : Nat) : Prop where
  hasShape : w.HasShape ⟨n, width⟩
  le_best : col ≤ best
  best_lt : best < n
  pivot_ne_zero : work.cell best col ≠ 0
  pivot_row {k : Nat} : k < width → w.cell col k = work.cell best k / work.cell best col
  other_row {i k : Nat} : i ≠ col → i < n → k < width →
    w.cell i k = work.cell (swap col best i) k - work.cell (swap col best i) col * w.cell col k

/-- Clearing a column stops exactly where no row from the column on down has a pivot. -/
theorem clearColumn_spec (hmod : ComparedBy modulus) (h : work.HasShape ⟨n, width⟩) (hn : col < n)
    (hw : col < width) :
    (clearColumn n work col = .error .singularMatrix ∧ ∀ r, col ≤ r → r < n → work.cell r col = 0) ∨
      ∃ best w, clearColumn n work col = .ok w ∧ work.Cleared w n width col best := by
  obtain ⟨best, hpivot, hle, hlt, hmax⟩ := pivotRow_spec hmod h hn hw
  unfold clearColumn
  simp only [hpivot, h.entry_eq_cell hlt hw, bind, Except.bind]
  by_cases hzero : work.cell best col = 0
  · rw [if_pos ((Entry.isZero_iff _).2 hzero)]
    refine .inl ⟨rfl, fun r hcr hrn => by_contra fun hne => ?_⟩
    have hless : modulus 0 < modulus (work.cell r col) := hmod.lt_of_ne_zero hne
    exact absurd (hmax r hcr hrn) (not_le.2 (hzero ▸ hless))
  · rw [if_neg (mt (Entry.isZero_iff _).1 hzero)]
    obtain ⟨swapped, hswap, hs, hswapped⟩ := h.swapRows_cells hn hlt
    obtain ⟨source, hsource⟩ := hs.exists_row? hn
    have hls : source.items.length = width := hs.length_row? hsource
    have hl : (source.items.map (· / swapped.cell col col)).length = width := by
      rw [List.length_map, hls]
    obtain ⟨scaled, hscale, hsc, hscaled⟩ := hs.replaceRow_cells hn hl
    obtain ⟨w, hrun, hsw, hcells⟩ := foldlM_clearEntry_cells hsc hn hw (le_refl n)
    simp only [hswap, hs.entry_eq_cell hn hw, DenseMatrix.row, hsource, hscale, hrun]
    have hpivotRow {k : Nat} (hk : k < width) : scaled.cell col k = work.cell best k / work.cell best col := by
      have hsourceCell : source.items.getD k 0 = work.cell best k := by
        rw [← cell_eq_getD hsource, hswapped, swap_apply_left]
      rw [hscaled, if_pos rfl, hswapped col col, swap_apply_left, ← hsourceCell]
      simp [List.getD_eq_getElem?_getD, hls, hk]
    refine .inr ⟨best, w, rfl, hsw, hle, hlt, hzero, fun hk => ?_, fun hi hin hk => ?_⟩
    · rw [hcells _ _ hk, if_neg (by simp), hpivotRow hk]
    · rw [hcells _ _ hk, hcells _ _ hk, if_pos ⟨hin, hi⟩, if_neg (by simp), hscaled, hscaled, if_neg hi,
        if_neg hi, hswapped, hswapped]

end Clearing

end MatrixCalculator.DenseMatrix
