import MatrixCalculator.Binary64
import MatrixCalculator.Proofs.DenseMatrix.WellFormed
set_option autoImplicit false

/-!
Inversion on any data. Entries may be anything, their arithmetic may give anything and their moduli may
compare in any way or not at all: the work matrix keeps its shape through all columns, so that every
exchange, replacement and cut that elimination asks for is made. It comes to the same as elimination
that takes what it finds and never asks, and stops at a zero pivot or at the end.
-/

namespace MatrixCalculator

/-- A run that stops for one reason only is a run that stops. -/
theorem foldlM_eq_elim {ε σ α : Type} {f : σ → α → Except ε σ} {g : σ → α → Option σ} {e : ε}
    {P : σ → Prop} {xs : List α}
    (h : ∀ s, P s → ∀ x ∈ xs, f s x = (g s x).elim (.error e) .ok ∧ ∀ t, g s x = some t → P t)
    {s : σ} (hs : P s) :
    xs.foldlM f s = (xs.foldlM g s).elim (.error e) .ok ∧ ∀ t, xs.foldlM g s = some t → P t := by
  induction xs generalizing s with
  | nil => exact ⟨rfl, fun t ht => Option.some.inj ht ▸ hs⟩
  | cons x xs ih =>
    obtain ⟨hstep, hnext⟩ := h s hs x List.mem_cons_self
    rw [List.foldlM_cons, List.foldlM_cons, hstep]
    cases hx : g s x with
    | none => exact ⟨rfl, fun t ht => by cases ht⟩
    | some t => exact ih (fun s hs y hy => h s hs y (List.mem_cons_of_mem x hy)) (hnext t hx)

namespace DenseMatrix

variable {α : Type}

def rowItems (m : DenseMatrix α) (i : Nat) : List α := (m.row? i).elim [] OrientedVector.items

theorem HasShape.result_swapRows {m : DenseMatrix α} {s : Shape} (h : m.HasShape s) {i j : Nat}
    (hi : i < s.rows) (hj : j < s.rows) :
    (m.swapRows i j).result = .ok (m.swapRows i j).state ∧ (m.swapRows i j).state.HasShape s := by
  obtain ⟨m', hm', hs⟩ := h.swapRows hi hj
  obtain ⟨-, rfl⟩ := Update.result_eq_ok.1 hm'
  exact ⟨hm', hs⟩

theorem HasShape.row_eq {m : DenseMatrix α} {s : Shape} (h : m.HasShape s) {i : Nat}
    (hi : i < s.rows) :
    ∃ v, m.row i = .ok v ∧ v.items = m.rowItems i ∧ (m.rowItems i).length = s.cols := by
  obtain ⟨v, hv⟩ := h.exists_row? hi
  have hitems : m.rowItems i = v.items := by rw [rowItems, hv, Option.elim_some]
  exact ⟨v, by simp [row, hv], hitems.symm, hitems ▸ h.length_row? hv⟩

variable [Entry α]

def withRow (m : DenseMatrix α) (i : Nat) (items : List α) : DenseMatrix α :=
  ⟨(m.family.set i (.ofList .row items)).state⟩

/-- The row that the search for a pivot ends at. -/
def pivotPlace (work : DenseMatrix α) (degree col : Nat) : Nat :=
  (List.range' (col + 1) (degree - (col + 1))).foldl (fun best r =>
    if Entry.compareModulus (work.cell best col) (work.cell r col) = some .gt then best else r) col

def withClearedEntry (col : Nat) (work : DenseMatrix α) (row : Nat) : DenseMatrix α :=
  if row = col then work
  else if Entry.isZero (work.cell row col) then work
  else work.withRow row ((work.rowItems row).zipWith (fun a b => a - work.cell row col * b)
    (work.rowItems col))

def withClearedColumn? (degree : Nat) (work : DenseMatrix α) (col : Nat) : Option (DenseMatrix α) :=
  if Entry.isZero (work.cell (work.pivotPlace degree col) col) then none
  else
    let swapped := (work.swapRows col (work.pivotPlace degree col)).state
    let scaled := swapped.withRow col ((swapped.rowItems col).map (· / swapped.cell col col))
    some ((List.range degree).foldl (withClearedEntry col) scaled)

/-- Elimination that takes what it finds; none where it meets a zero pivot. -/
def eliminated? (m : DenseMatrix α) : Option (DenseMatrix α) :=
  let n := m.rowCount
  let start := ofFn n (n + n) fun i j => if j < n then m.cell i j else (identity n).cell i (j - n)
  ((List.range n).foldlM (withClearedColumn? n) start).map fun work =>
    ofFn n n fun i j => work.cell i (j + n)

section Steps

variable {m work : DenseMatrix α} {s : Shape} {degree width col row : Nat}

theorem HasShape.result_withRow (h : m.HasShape s) {i : Nat} (hi : i < s.rows) {items : List α}
    (hl : items.length = s.cols) :
    ((m.family.set i (.ofList .row items)).map DenseMatrix.mk).result = .ok (m.withRow i items) ∧
      (m.withRow i items).HasShape s := by
  obtain ⟨m', hm', hs⟩ := h.replaceRow (v := .ofList .row items) hi hl
  obtain ⟨-, rfl⟩ := Update.result_eq_ok.1 hm'
  exact ⟨hm', hs⟩

theorem pivotRow_eq (h : work.HasShape ⟨degree, width⟩) (hd : col < degree) (hw : col < width) :
    work.pivotRow degree col = .ok (work.pivotPlace degree col) ∧ work.pivotPlace degree col < degree := by
  have hrun : work.pivotRow degree col = .ok (work.pivotPlace degree col) := by
    refine foldlM_of_invariant (P := (· < degree)) (fun best hbest r hr => ?_) hd
    have hr : r < degree := by
      have := List.mem_range'_1.1 hr
      omega
    rw [h.entry_eq_cell hbest hw, h.entry_eq_cell hr hw]
    refine ⟨rfl, ?_⟩
    split
    · exact hbest
    · exact hr
  exact ⟨hrun, (pivotRow_ends h hd hw).of_eq_ok hrun⟩

theorem clearEntry_eq (h : work.HasShape ⟨degree, width⟩) (hd : col < degree) (hw : col < width)
    (hr : row < degree) :
    clearEntry col work row = .ok (withClearedEntry col work row) ∧
      (withClearedEntry col work row).HasShape ⟨degree, width⟩ := by
  obtain ⟨target, htarget, hitems, hlt⟩ := h.row_eq hr
  obtain ⟨source, hsource, hsitems, hls⟩ := h.row_eq hd
  have hl : ((work.rowItems row).zipWith (fun a b => a - work.cell row col * b)
      (work.rowItems col)).length = width := by
    rw [List.length_zipWith, hlt, hls, Nat.min_self]
  have hrun : clearEntry col work row = .ok (withClearedEntry col work row) := by
    unfold clearEntry withClearedEntry
    simp only [h.entry_eq_cell hr hw, htarget, hsource, hitems, hsitems, bind, Except.bind]
    split
    · rfl
    · split
      · rfl
      · exact (h.result_withRow hr hl).1
  exact ⟨hrun, (clearEntry_ends h hd hw hr).of_eq_ok hrun⟩

theorem clearColumn_eq (h : work.HasShape ⟨degree, width⟩) (hd : col < degree) (hw : col < width) :
    clearColumn degree work col =
      (withClearedColumn? degree work col).elim (.error .singularMatrix) .ok := by
  obtain ⟨hpivot, hbest⟩ := pivotRow_eq h hd hw
  obtain ⟨hswap, hswapped⟩ := h.result_swapRows hd hbest
  obtain ⟨source, hsource, hitems, hl⟩ := hswapped.row_eq hd
  have hlength : (((work.swapRows col (work.pivotPlace degree col)).state.rowItems col).map
      (· / (work.swapRows col (work.pivotPlace degree col)).state.cell col col)).length = width :=
    (List.length_map _).trans hl
  obtain ⟨hscale, hscaled⟩ := hswapped.result_withRow hd hlength
  have hrun := foldlM_of_invariant (P := (HasShape · ⟨degree, width⟩)) (fun w hshape row hrow =>
    clearEntry_eq hshape hd hw (List.mem_range.1 hrow)) hscaled
  unfold clearColumn withClearedColumn?
  simp only [hpivot, h.entry_eq_cell hbest hw, hswap, hswapped.entry_eq_cell hd hw, hsource, hitems,
    hscale, bind, Except.bind]
  split
  · rfl
  · exact hrun

end Steps

theorem HasShape.inverse_eq_elim {m : DenseMatrix α} {n : Nat} (h : m.HasShape ⟨n, n⟩) :
    m.inverse = m.eliminated?.elim (.error .singularMatrix) .ok := by
  unfold inverse eliminated?
  simp only [h.requireSquare_eq, h.rowCount_eq, bind, Except.bind]
  by_cases hn : n = 0
  · subst hn
    rfl
  · have hpos : 0 < n := Nat.pos_of_ne_zero hn
    have hstep (work : DenseMatrix α) (hwork : work.HasShape ⟨n, n + n⟩) (col : Nat)
        (hcol : col ∈ List.range n) :
        clearColumn n work col = (withClearedColumn? n work col).elim (.error .singularMatrix) .ok ∧
          ∀ w, withClearedColumn? n work col = some w → w.HasShape ⟨n, n + n⟩ := by
      have hcol := List.mem_range.1 hcol
      have hrun := clearColumn_eq hwork hcol (Nat.lt_add_right n hcol)
      refine ⟨hrun, fun w hw => ?_⟩
      rw [hw] at hrun
      exact (clearColumn_ends hwork hcol (Nat.lt_add_right n hcol)).of_eq_ok hrun
    rw [augment_eq h (hasShape_identity n) hpos, if_neg hn]
    obtain ⟨hrun, hshape⟩ := foldlM_eq_elim hstep (hasShape_ofFn n (n + n) fun i j =>
      if j < n then m.cell i j else (identity n).cell i (j - n))
    simp only [hrun]
    cases hw : (List.range n).foldlM (withClearedColumn? n) (ofFn n (n + n) fun i j =>
        if j < n then m.cell i j else (identity n).cell i (j - n)) with
    | none => rfl
    | some w =>
      dsimp only [Option.elim_some]
      rw [trim_of_lt (hshape w hw) (by simpa using hpos) (by simpa using hpos)]
      simp

/-- Whatever the entries are and whatever their arithmetic gives, inversion of a square matrix ends in a
matrix of its shape or in the report that it is singular. None of the operations it is made of is ever
refused, so that it agrees with elimination that never asks. Other matrices are refused at once. -/
theorem inverse_total {m : DenseMatrix α} (h : m.WellFormed) :
    (m.rowCount = m.colCount →
      ((∃ w, m.inverse = .ok w ∧ w.WellFormed ∧ w.shape = m.shape) ∨
        m.inverse = .error .singularMatrix) ∧
      m.inverse = m.eliminated?.elim (.error .singularMatrix) .ok) ∧
    (m.rowCount ≠ m.colCount → m.inverse = .error (.notSquare .inverse m.shape)) := by
  refine ⟨fun hsquare => ?_, fun hsquare => ?_⟩
  · have hshape : m.HasShape ⟨m.rowCount, m.rowCount⟩ := ⟨h.regular, by rw [shape, ← hsquare]⟩
    have helim := hshape.inverse_eq_elim
    refine ⟨?_, helim⟩
    cases he : m.eliminated? with
    | none =>
      rw [he] at helim
      exact .inr helim
    | some w =>
      rw [he] at helim
      refine .inl ⟨w, helim, h.inverse_inside.of_eq_ok helim, ?_⟩
      exact ((inverse_ends hshape).of_eq_ok helim).shape_eq.trans hshape.shape_eq.symm
  · have hrefused : m.isSquare = false := by simpa [isSquare] using hsquare
    rw [inverse, requireSquare, hrefused]
    rfl

/-- Entries that are not a number, infinite, least positive and a negative zero. -/
def notNumbers : DenseMatrix (Scalar Float) :=
  ofLists 2 [[⟨Float.ofBits 0x7ff8000000000000, 0⟩, ⟨Float.ofBits 0x7ff0000000000000, 0⟩],
    [⟨Float.ofBits 1, Float.ofBits 0xfff0000000000000⟩, ⟨Float.ofBits 0x8000000000000000, 0⟩]]

/-- Nothing compares with the first entry, and elimination goes through. -/
theorem inverse_total_not_numbers :
    ∃ w, notNumbers.inverse = .ok w ∧ w.WellFormed ∧ w.shape = ⟨2, 2⟩ := by
  have hwellFormed : notNumbers.WellFormed := wellFormed_ofLists (by decide)
  obtain ⟨hends, helim⟩ := (inverse_total hwellFormed).1 rfl
  rcases hends with hok | hsingular
  · exact hok
  · have hsome : notNumbers.eliminated?.isSome := by decide +kernel
    obtain ⟨w, hw⟩ := Option.isSome_iff_exists.1 hsome
    rw [hsingular, hw] at helim
    cases helim

end DenseMatrix

end MatrixCalculator
