import MatrixCalculator.Binary64
import MatrixCalculator.Proofs.Container.InnerLength
import MatrixCalculator.Proofs.DenseMatrix.WellFormed
set_option autoImplicit false

/-!
What is set beside a matrix continues its rows. A matrix built from rows is as wide as the rows say;
where there are none, nobody says, and the widths of the matrices put together are lost.
-/

namespace MatrixCalculator.DenseMatrix

section Rows

variable {α : Type} {rows : List (OrientedVector α)} {m : DenseMatrix α} {cols : Nat}

theorem lists_of_ofRows (h : ofRows rows = .ok m) : m.lists = rows.map OrientedVector.items := by
  rw [lists_of_ofFamily h, VectorFamily.ofVectors, List.map_map]
  exact List.map_congr_left fun v _ => v.items_inSpace .row

theorem shape_of_ofRows (h : ofRows rows = .ok m) :
    m.shape = ⟨rows.length, VectorFamily.maxLength rows⟩ := by
  obtain ⟨rfl, -⟩ := ofFamily_eq_ok_iff.1 h
  simp [VectorFamily.asRows, VectorFamily.ofVectors, shape, rowCount, colCount, VectorFamily.count]

theorem maxLength_of_uniform (h : ∀ v ∈ rows, v.length = cols) :
    VectorFamily.maxLength rows = if rows.length = 0 then 0 else cols := by
  split
  · next hnil =>
    rw [List.eq_nil_of_length_eq_zero hnil]
    rfl
  · next hne =>
    exact VectorFamily.maxLength_eq (List.ne_nil_of_length_pos (Nat.pos_of_ne_zero hne)) h

theorem ofRows_of_uniform (h : ∀ v ∈ rows, v.length = cols) :
    ∃ m, ofRows rows = .ok m ∧ m.rowCount = rows.length ∧
      m.colCount = if rows.length = 0 then 0 else cols := by
  have hmax := maxLength_of_uniform h
  have hrows : ∀ v ∈ rows, v.length = VectorFamily.maxLength rows := by
    intro v hv
    rw [hmax, if_neg (Nat.ne_of_gt (List.length_pos_of_mem hv)), h v hv]
  have hok : ofRows rows = .ok ⟨(VectorFamily.ofVectors .row rows).asRows⟩ := by
    refine ofFamily_eq_ok_iff.2 ⟨rfl, fun v hv => ?_⟩
    obtain ⟨w, hw, rfl⟩ := List.mem_map.1 hv
    exact (w.length_inSpace .row).trans (hrows w hw)
  have hshape := shape_of_ofRows hok
  rw [hmax] at hshape
  exact ⟨_, hok, congrArg Shape.rows hshape, congrArg Shape.cols hshape⟩

end Rows

section Joins

variable {α : Type} {a b c : DenseMatrix α} {width : Nat} {right : Nat → Nat → Option α}

/-- The matrix `c` shows the entries of `a` and to their right those of `right`, which is `width`
columns wide. Without rows neither width is remembered. -/
structure Joins (a : DenseMatrix α) (width : Nat) (right : Nat → Nat → Option α) (c : DenseMatrix α) :
    Prop where
  rowCount_eq : c.rowCount = a.rowCount
  colCount_eq : c.colCount = if a.rowCount = 0 then 0 else a.colCount + width
  get?_eq (i j : Nat) : c.get? i j = if j < a.colCount then a.get? i j else right i (j - a.colCount)

theorem Joins.shape_eq_iff (h : a.Joins width right c) :
    c.shape = ⟨a.rowCount, a.colCount + width⟩ ↔ 0 < a.rowCount ∨ a.colCount + width = 0 := by
  rw [shape, h.rowCount_eq, h.colCount_eq, Shape.mk.injEq]
  split <;> omega

theorem getElem?_zipWith_append {as bs : List (List α)} {n : Nat} (hlength : as.length = bs.length)
    (hn : ∀ row ∈ as, row.length = n) (i j : Nat) :
    (as.zipWith (· ++ ·) bs)[i]?.bind (·[j]?) =
      if j < n then as[i]?.bind (·[j]?) else bs[i]?.bind (·[j - n]?) := by
  rw [List.getElem?_zipWith]
  by_cases hi : i < as.length
  · have hrow : as[i].length = n := hn as[i] (List.getElem_mem hi)
    simp [hi, hlength ▸ hi, List.getElem?_append, hrow]
  · have hb : bs.length ≤ i := by omega
    simp [hb, Nat.le_of_not_lt hi]

theorem length_of_mem_zipWith_append {as bs : List (List α)} {n k : Nat} (ha : ∀ row ∈ as, row.length = n)
    (hb : ∀ row ∈ bs, row.length = k) : ∀ row ∈ as.zipWith (· ++ ·) bs, row.length = n + k := by
  intro row hrow
  obtain ⟨i, hi, rfl⟩ := List.mem_iff_getElem.1 hrow
  rw [List.length_zipWith] at hi
  rw [List.getElem_zipWith, List.length_append, ha _ (List.getElem_mem (by omega)),
    hb _ (List.getElem_mem (by omega))]

theorem Regular.ofRows_joins {rows : List (OrientedVector α)} {tails : List (List α)} (ha : a.Regular)
    (hrows : rows.map OrientedVector.items = a.lists.zipWith (· ++ ·) tails)
    (hcount : a.rowCount = tails.length) (hwidth : ∀ tail ∈ tails, tail.length = width) :
    ∃ c, ofRows rows = .ok c ∧ a.Joins width (fun i j => tails[i]?.bind (·[j]?)) c := by
  have hlists : a.lists.length = tails.length := a.length_lists.trans hcount
  have hlength : rows.length = a.rowCount := by
    have hmap := congrArg List.length hrows
    rwa [List.length_map, List.length_zipWith, ← hlists, Nat.min_self, a.length_lists] at hmap
  have huniform : ∀ v ∈ rows, v.length = a.colCount + width := fun v hv =>
    length_of_mem_zipWith_append (regular_iff_lists.1 ha) hwidth v.items (hrows ▸ List.mem_map_of_mem hv)
  obtain ⟨c, hc, hcrows, hccols⟩ := ofRows_of_uniform huniform
  rw [hlength] at hcrows hccols
  refine ⟨c, hc, hcrows, hccols, fun i j => ?_⟩
  rw [c.get?_eq_lists, a.get?_eq_lists, lists_of_ofRows hc, hrows]
  exact getElem?_zipWith_append hlists (regular_iff_lists.1 ha) i j

end Joins

variable {α : Type} [Entry α] {a b : DenseMatrix α} {v : OrientedVector α}

theorem Regular.augment_joins (ha : a.Regular) (hb : b.Regular) (h : a.rowCount = b.rowCount) :
    ∃ c, a.augment b = .ok c ∧ a.Joins b.colCount b.get? c := by
  have hrows : ((a.lists.zipWith (· ++ ·) b.lists).map (OrientedVector.ofList .row)).map
      OrientedVector.items = a.lists.zipWith (· ++ ·) b.lists := by
    rw [List.map_map]
    exact List.map_id _
  obtain ⟨c, hc, hjoins⟩ := ha.ofRows_joins hrows (h.trans b.length_lists.symm) (regular_iff_lists.1 hb)
  simp only [← b.get?_eq_lists] at hjoins
  exact ⟨c, by rw [augment, if_pos h, hc], hjoins⟩

theorem Regular.augmentColumn_joins (ha : a.Regular) (hspace : v.space = .column)
    (hlength : v.length = a.rowCount) :
    ∃ c, a.augmentColumn v = .ok c ∧ a.Joins 1 (fun i j => if j = 0 then v.get? i else none) c := by
  have hrows : (a.family.vectors.zipWith OrientedVector.append v.items).map OrientedVector.items =
      a.lists.zipWith (· ++ ·) (v.items.map ([·])) := by
    rw [lists, List.map_zipWith, List.zipWith_map]
    rfl
  have hcount : a.rowCount = (v.items.map ([·])).length := hlength.symm.trans (List.length_map _).symm
  have hwidth : ∀ tail ∈ v.items.map ([·]), tail.length = 1 := List.forall_mem_map.2 fun _ _ => rfl
  obtain ⟨c, hc, hjoins⟩ := ha.ofRows_joins hrows hcount hwidth
  have hget (i j : Nat) : ((v.items.map ([·]))[i]?.bind (·[j]?)) = if j = 0 then v.get? i else none := by
    rw [List.getElem?_map, Option.bind_map]
    cases j with
    | zero => simp [OrientedVector.get?, RankedSeq.get?, OrientedVector.items, Function.comp_def]
    | succ j => simp
  simp only [hget] at hjoins
  exact ⟨c, by rw [augmentColumn, if_pos ⟨hspace, hlength⟩, hc], hjoins⟩

/-- Matrices with the same number of rows, and a column as tall as a matrix, can be set beside it,
and the widths add up exactly where there are rows or nothing to add. Other shapes are refused. -/
theorem widths_add_unless_rowless (ha : a.WellFormed) :
    (∀ b : DenseMatrix α, b.WellFormed →
      (a.rowCount = b.rowCount → ∃ c, a.augment b = .ok c ∧ c.WellFormed ∧
        a.Joins b.colCount b.get? c ∧
        (c.shape = ⟨a.rowCount, a.colCount + b.colCount⟩ ↔
          0 < a.rowCount ∨ a.colCount + b.colCount = 0)) ∧
      (a.rowCount ≠ b.rowCount →
        a.augment b = .error (.dimensionMismatch .matrixAugment a.shape b.shape))) ∧
    ∀ v : OrientedVector α,
      (v.space = .column ∧ v.length = a.rowCount → ∃ c, a.augmentColumn v = .ok c ∧ c.WellFormed ∧
        a.Joins 1 (fun i j => if j = 0 then v.get? i else none) c ∧
        (c.shape = ⟨a.rowCount, a.colCount + 1⟩ ↔ 0 < a.rowCount)) ∧
      (¬ (v.space = .column ∧ v.length = a.rowCount) →
        a.augmentColumn v = .error (.dimensionMismatch .matrixAugment a.shape v.shape)) := by
  refine ⟨fun b hb => ⟨fun h => ?_, fun h => by rw [augment, if_neg h]⟩,
    fun v => ⟨fun h => ?_, fun h => by rw [augmentColumn, if_neg h]⟩⟩
  · obtain ⟨c, hc, hjoins⟩ := ha.regular.augment_joins hb.regular h
    exact ⟨c, hc, (augment_inside a b).of_eq_ok hc, hjoins, hjoins.shape_eq_iff⟩
  · obtain ⟨c, hc, hjoins⟩ := ha.regular.augmentColumn_joins h.1 h.2
    refine ⟨c, hc, (ha.augmentColumn_inside v).of_eq_ok hc, hjoins, hjoins.shape_eq_iff.trans ?_⟩
    simp

theorem widths_add_unless_rowless_narrow :
    (∃ c, (zeros 2 0 : DenseMatrix (Scalar Float)).augment (identity 2) = .ok c ∧ c.shape = ⟨2, 2⟩) ∧
    ∃ c, (zeros 2 0 : DenseMatrix (Scalar Float)).augmentColumn (.zeros .column 2) = .ok c ∧
      c.shape = ⟨2, 1⟩ := by
  obtain ⟨hmatrix, hcolumn⟩ :=
    widths_add_unless_rowless (wellFormed_zeros 2 0 : (zeros 2 0 : DenseMatrix (Scalar Float)).WellFormed)
  obtain ⟨c, hc, -, -, hshape⟩ := (hmatrix (identity 2) (wellFormed_identity 2)).1 rfl
  obtain ⟨d, hd, -, -, hdshape⟩ := (hcolumn (.zeros .column 2)).1 ⟨rfl, rfl⟩
  exact ⟨⟨c, hc, hshape.2 (.inl Nat.two_pos)⟩, ⟨d, hd, hdshape.2 Nat.two_pos⟩⟩

theorem widths_lost_without_rows :
    ¬ ∀ a b : DenseMatrix (Scalar Float), a.WellFormed → b.WellFormed → a.rowCount = b.rowCount →
      ∃ c, a.augment b = .ok c ∧ c.shape = ⟨a.rowCount, a.colCount + b.colCount⟩ := by
  intro hall
  obtain ⟨c, hc, hshape⟩ := hall (zeros 0 2) (zeros 0 3) (wellFormed_zeros 0 2) (wellFormed_zeros 0 3) rfl
  cases hc
  cases hshape

end MatrixCalculator.DenseMatrix
