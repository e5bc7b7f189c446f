import MatrixCalculator.Proofs.DenseMatrix.SideBySide
set_option autoImplicit false

/-!
Setting matrices side by side and cutting columns off undo each other. Wherever a matrix with rows is
split between two columns, the parts set side by side again show the matrix; and what was set beside a
matrix, cut off or read off as a column, shows what it was.
-/

namespace MatrixCalculator.DenseMatrix

variable {α : Type} [Entry α] {a b m : DenseMatrix α} {s : Shape}

theorem HasShape.alike_ofFn_cell (h : m.HasShape s) : (ofFn s.rows s.cols m.cell).Alike (· = ·) m :=
  (hasShape_ofFn ..).alike h fun _ hi _ hj => cell_ofFn hi hj

theorem HasShape.trim_columns (h : m.HasShape s) (hrows : 0 < s.rows) {left width right : Nat}
    (hwidth : 0 < width) (hcols : left + width + right = s.cols) :
    m.trim 0 0 left right = .ok (ofFn s.rows width fun i j => m.cell i (j + left)) := by
  have hrest : s.cols - (left + right) = width := by omega
  rw [trim_of_lt h hrows (by omega), hrest]
  rfl

theorem HasShape.augment_trim {n c d : Nat} (ha : a.HasShape ⟨n, c⟩) (hb : b.HasShape ⟨n, d⟩)
    (hn : 0 < n) (hc : 0 < c) (hd : 0 < d) :
    ∃ e, a.augment b = .ok e ∧ e.trim 0 0 0 d = .ok (ofFn n c a.cell) ∧
      e.trim 0 0 c 0 = .ok (ofFn n d b.cell) := by
  have hjoin := hasShape_ofFn n (c + d) fun i j => if j < c then a.cell i j else b.cell i (j - c)
  refine ⟨_, augment_eq ha hb hn, ?_, ?_⟩
  · rw [hjoin.trim_columns hn hc (by dsimp only; omega)]
    refine congrArg _ (ofFn_congr fun i hi j hj => ?_)
    rw [cell_ofFn hi (by omega), Nat.add_zero, if_pos hj]
  · rw [hjoin.trim_columns hn hd rfl]
    refine congrArg _ (ofFn_congr fun i hi j hj => ?_)
    rw [cell_ofFn hi (by omega), if_neg (by omega), Nat.add_sub_cancel]

theorem HasShape.trim_augment (h : m.HasShape s) (hrows : 0 < s.rows) {k : Nat} (hk : 0 < k)
    (hcols : k < s.cols) :
    ∃ l r, m.trim 0 0 0 (s.cols - k) = .ok l ∧ m.trim 0 0 k 0 = .ok r ∧
      l.augment r = .ok (ofFn s.rows s.cols m.cell) := by
  have hwidth : k + (s.cols - k) = s.cols := by omega
  refine ⟨_, _, h.trim_columns hrows hk (by omega), h.trim_columns hrows (by omega) hwidth, ?_⟩
  rw [augment_eq (hasShape_ofFn ..) (hasShape_ofFn ..) hrows, hwidth]
  refine congrArg _ (ofFn_congr fun i hi j hj => ?_)
  split
  · next hjk => exact cell_ofFn hi hjk
  · next hjk => rw [cell_ofFn hi (by omega), Nat.sub_add_cancel (Nat.le_of_not_lt hjk)]

theorem WellFormed.column?_augmentColumn (ha : a.WellFormed) {v : OrientedVector α}
    (hspace : v.space = .column) (hlength : v.length = a.rowCount) (hrows : 0 < a.rowCount) :
    ∃ c, a.augmentColumn v = .ok c ∧ c.column? a.colCount = some (.ofList .column v.items) := by
  obtain ⟨c, hc, hjoins⟩ := ha.regular.augmentColumn_joins hspace hlength
  have hshape := ((ha.augmentColumn_inside v).of_eq_ok hc).hasShape
  have hwidth : a.colCount < c.colCount := by
    rw [hjoins.colCount_eq, if_neg (Nat.ne_of_gt hrows)]
    exact Nat.lt_succ_self _
  have hitems : c.columnItems a.colCount = v.items := by
    rw [hshape.columnItems_eq hwidth]
    refine List.ext_getElem ?_ fun i hi hi' => ?_
    · rw [List.length_map, List.length_range]
      exact hjoins.rowCount_eq.trans hlength.symm
    · have hread : v.get? i = some v.items[i] := List.getElem?_eq_getElem hi'
      rw [List.getElem_map, List.getElem_range, cell, hjoins.get?_eq, if_neg (Nat.lt_irrefl _),
        Nat.sub_self, if_pos rfl, hread, Option.getD_some]
  exact ⟨c, hc, by rw [column?, if_pos hwidth, hitems]⟩

/-- Augmenting and trimming undo each other: on two matrices with rows and columns, cutting off the
width of one leaves the other; on a matrix with rows, joining the parts on both sides of any split
leaves the matrix; and the column set beside a matrix is read off it again. -/
theorem augment_trim_inverse :
    (∀ a b : DenseMatrix α, a.WellFormed → b.WellFormed → a.rowCount = b.rowCount → 0 < a.rowCount →
      0 < a.colCount → 0 < b.colCount →
      ∃ c left right, a.augment b = .ok c ∧
        c.trim 0 0 0 b.colCount = .ok left ∧ left.Alike (· = ·) a ∧
        c.trim 0 0 a.colCount 0 = .ok right ∧ right.Alike (· = ·) b) ∧
    (∀ m : DenseMatrix α, m.WellFormed → 0 < m.rowCount → ∀ k, 0 < k → k < m.colCount →
      ∃ left right c, m.trim 0 0 0 (m.colCount - k) = .ok left ∧ m.trim 0 0 k 0 = .ok right ∧
        left.augment right = .ok c ∧ c.Alike (· = ·) m) ∧
    ∀ a : DenseMatrix α, a.WellFormed → 0 < a.rowCount →
      ∀ v : OrientedVector α, v.space = .column → v.length = a.rowCount →
        ∃ c w, a.augmentColumn v = .ok c ∧ c.column? a.colCount = some w ∧ w.space = .column ∧
          w.items = v.items := by
  refine ⟨fun a b ha hb hcount hrows hac hbc => ?_, fun m hm hrows k hk hcols => ?_,
    fun a ha hrows v hspace hlength => ?_⟩
  · have hbshape : b.HasShape ⟨a.rowCount, b.colCount⟩ := ⟨hb.regular, by rw [shape, hcount]⟩
    obtain ⟨c, hc, hleft, hright⟩ := ha.hasShape.augment_trim hbshape hrows hac hbc
    exact ⟨c, _, _, hc, hleft, ha.hasShape.alike_ofFn_cell, hright, hbshape.alike_ofFn_cell⟩
  · obtain ⟨left, right, hleft, hright, hjoin⟩ := hm.hasShape.trim_augment hrows hk hcols
    exact ⟨left, right, _, hleft, hright, hjoin, hm.hasShape.alike_ofFn_cell⟩
  · obtain ⟨c, hc, hcolumn⟩ := ha.column?_augmentColumn hspace hlength hrows
    exact ⟨c, _, hc, hcolumn, rfl, rfl⟩

theorem augment_trim_inverse_identity :
    (∃ c left right, (identity 2 : DenseMatrix (Scalar Float)).augment (zeros 2 3) = .ok c ∧
      c.trim 0 0 0 3 = .ok left ∧ left.Alike (· = ·) (identity 2) ∧
      c.trim 0 0 2 0 = .ok right ∧ right.Alike (· = ·) (zeros 2 3)) ∧
    (∃ left right c, (identity 2 : DenseMatrix (Scalar Float)).trim 0 0 0 1 = .ok left ∧
      (identity 2).trim 0 0 1 0 = .ok right ∧ left.augment right = .ok c ∧
      c.Alike (· = ·) (identity 2)) ∧
    ∃ c w, (identity 2 : DenseMatrix (Scalar Float)).augmentColumn (.ofList .column [Scalar.i, 1]) = .ok c ∧
      c.column? 2 = some w ∧ w.space = .column ∧ w.items = [Scalar.i, 1] := by
  obtain ⟨hjoin, hsplit, hcolumn⟩ := augment_trim_inverse (α := Scalar Float)
  have hidentity : (identity 2 : DenseMatrix (Scalar Float)).WellFormed := wellFormed_identity 2
  have hrows : 0 < (identity 2 : DenseMatrix (Scalar Float)).rowCount := Nat.two_pos
  exact ⟨hjoin _ _ hidentity (wellFormed_zeros 2 3) rfl hrows Nat.two_pos (Nat.succ_pos 2),
    hsplit _ hidentity hrows 1 Nat.one_pos Nat.one_lt_two, hcolumn _ hidentity hrows _ rfl rfl⟩

end MatrixCalculator.DenseMatrix
