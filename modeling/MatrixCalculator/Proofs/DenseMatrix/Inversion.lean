import Mathlib
import MatrixCalculator.Proofs.DenseMatrix.Elimination
set_option autoImplicit false

/-!
Inversion over a field is correct. The rows of a matrix are read as linear equations: elimination
keeps their solutions, so that from the equations of a matrix beside the identity it arrives at those
of the identity beside the inverse. Where it stops, the columns cleared so far and the one without a
pivot show a vector that the matrix takes to zero.
-/

namespace MatrixCalculator.DenseMatrix

open Equiv (swap swap_apply_def swap_apply_left swap_apply_self swap_apply_eq_iff
  swap_apply_of_ne_of_ne)

variable {α L : Type} [FieldEntry α] [LinearOrder L] {modulus : α → L}
variable {start work w : DenseMatrix α} {n width col best : Nat}

/-- What row `i` as a linear form takes the coefficients to. -/
def rowValue (m : DenseMatrix α) (width i : Nat) (z : Nat → α) : α :=
  ∑ k ∈ Finset.range width, m.cell i k * z k

def Solves (m : DenseMatrix α) (s : Shape) (z : Nat → α) : Prop :=
  ∀ i < s.rows, m.rowValue s.cols i z = 0

theorem swap_lt {i : Nat} (hn : col < n) (hb : best < n) (hi : i < n) : swap col best i < n := by
  rw [swap_apply_def]
  split
  · exact hb
  · split
    · exact hn
    · exact hi

namespace Cleared

theorem rowValue_pivot (h : work.Cleared w n width col best) (z : Nat → α) :
    w.rowValue width col z = work.rowValue width best z / work.cell best col := by
  simp only [rowValue, Finset.sum_div]
  refine Finset.sum_congr rfl fun k hk => ?_
  rw [h.pivot_row (Finset.mem_range.1 hk)]
  ring

theorem rowValue_other (h : work.Cleared w n width col best) {i : Nat} (hi : i ≠ col) (hin : i < n)
    (z : Nat → α) :
    w.rowValue width i z = work.rowValue width (swap col best i) z -
      work.cell (swap col best i) col * w.rowValue width col z := by
  simp only [rowValue, Finset.mul_sum, ← Finset.sum_sub_distrib]
  refine Finset.sum_congr rfl fun k hk => ?_
  rw [h.other_row hi hin (Finset.mem_range.1 hk)]
  ring

theorem solves_iff (h : work.Cleared w n width col best) (z : Nat → α) :
    w.Solves ⟨n, width⟩ z ↔ work.Solves ⟨n, width⟩ z := by
  have hn : col < n := Nat.lt_of_le_of_lt h.le_best h.best_lt
  constructor
  · intro hw i hi
    have hbest : work.rowValue width best z = 0 := by
      have hcol : w.rowValue width col z = 0 := hw col hn
      rw [h.rowValue_pivot, div_eq_zero_iff] at hcol
      exact hcol.resolve_right h.pivot_ne_zero
    by_cases hib : i = best
    · exact hib ▸ hbest
    · have hne : swap col best i ≠ col := by
        rw [Ne, swap_apply_eq_iff, swap_apply_left]
        exact hib
      have hother : w.rowValue width (swap col best i) z = 0 := hw _ (swap_lt hn h.best_lt hi)
      have hcol : w.rowValue width col z = 0 := hw col hn
      rw [h.rowValue_other hne (swap_lt hn h.best_lt hi), hcol, mul_zero, sub_zero,
        swap_apply_self] at hother
      exact hother
  · intro hwork i hi
    have hcol : w.rowValue width col z = 0 := by
      have hbest : work.rowValue width best z = 0 := hwork best h.best_lt
      rw [h.rowValue_pivot, hbest, zero_div]
    by_cases hic : i = col
    · exact hic ▸ hcol
    · have hswap : work.rowValue width (swap col best i) z = 0 := hwork _ (swap_lt hn h.best_lt hi)
      change w.rowValue width i z = 0
      rw [h.rowValue_other hic hi, hswap, hcol, mul_zero, sub_zero]

theorem cell_cleared (h : work.Cleared w n width col best) (hw : col < width) {i : Nat} (hi : i < n) :
    w.cell i col = if i = col then 1 else 0 := by
  have hone : w.cell col col = 1 := by
    rw [h.pivot_row hw, div_self h.pivot_ne_zero]
  split
  · next hic => rw [hic, hone]
  · next hic => rw [h.other_row hic hi hw, hone, mul_one, sub_self]

theorem cell_before (h : work.Cleared w n width col best) {j : Nat} (hj : j < col) (hw : col < width)
    (hunit : ∀ i < n, work.cell i j = if i = j then 1 else 0) {i : Nat} (hi : i < n) :
    w.cell i j = if i = j then 1 else 0 := by
  have hn : col < n := Nat.lt_of_le_of_lt h.le_best h.best_lt
  have hjb : j ≠ best := Nat.ne_of_lt (Nat.lt_of_lt_of_le hj h.le_best)
  have hzero : w.cell col j = 0 := by
    rw [h.pivot_row (hj.trans hw), hunit best h.best_lt, if_neg hjb.symm, zero_div]
  by_cases hic : i = col
  · rw [hic, hzero, if_neg (Nat.ne_of_gt hj)]
  · have hswap : swap col best i = j ↔ i = j := by
      rw [swap_apply_eq_iff, swap_apply_of_ne_of_ne (Nat.ne_of_lt hj) hjb]
    rw [h.other_row hic hi (hj.trans hw), hzero, mul_zero, sub_zero, hunit _ (swap_lt hn h.best_lt hi)]
    simp only [hswap]

end Cleared

/-- The first columns have been cleared: they are those of the identity, and the solutions are still
those of the matrix that elimination started from. -/
structure Reduced (start work : DenseMatrix α) (n width col : Nat) : Prop where
  hasShape : work.HasShape ⟨n, width⟩
  solves_iff (z : Nat → α) : work.Solves ⟨n, width⟩ z ↔ start.Solves ⟨n, width⟩ z
  unit_columns : ∀ j < col, ∀ i < n, work.cell i j = if i = j then 1 else 0

theorem Reduced.step (h : start.Reduced work n width col) (hcleared : work.Cleared w n width col best)
    (hw : col < width) : start.Reduced w n width (col + 1) where
  hasShape := hcleared.hasShape
  solves_iff z := (hcleared.solves_iff z).trans (h.solves_iff z)
  unit_columns j hj i hi := by
    rcases Nat.lt_succ_iff_lt_or_eq.1 hj with hj | rfl
    · exact hcleared.cell_before hj hw (h.unit_columns j hj) hi
    · exact hcleared.cell_cleared hw hi

theorem foldlM_clearColumn_spec (hmod : ComparedBy modulus) (h : start.HasShape ⟨n, width⟩)
    (hwidth : n ≤ width) {c : Nat} (hc : c ≤ n) :
    (∃ w, (List.range c).foldlM (clearColumn n) start = .ok w ∧ start.Reduced w n width c) ∨
      (List.range c).foldlM (clearColumn n) start = .error .singularMatrix ∧
        ∃ col < n, ∃ w, start.Reduced w n width col ∧ ∀ r, col ≤ r → r < n → w.cell r col = 0 := by
  induction c with
  | zero => exact .inl ⟨start, rfl, h, fun _ => Iff.rfl, fun j hj => absurd hj (Nat.not_lt_zero j)⟩
  | succ c ih =>
    have hn : c < n := hc
    have hw : c < width := Nat.lt_of_lt_of_le hn hwidth
    rw [List.range_succ, List.foldlM_append]
    obtain ⟨w, hrun, hreduced⟩ | ⟨hrun, hstuck⟩ := ih (Nat.le_of_lt hn)
    · rw [hrun]
      obtain ⟨hstep, hzero⟩ | ⟨best, w', hstep, hcleared⟩ := clearColumn_spec hmod hreduced.hasShape hn hw
      · refine .inr ⟨?_, c, hn, w, hreduced, hzero⟩
        simp only [bind, Except.bind, List.foldlM_cons, hstep]
      · refine .inl ⟨w', ?_, hreduced.step hcleared hw⟩
        simp only [bind, Except.bind, List.foldlM_cons, List.foldlM_nil, hstep]
        rfl
    · rw [hrun]
      exact .inr ⟨rfl, hstuck⟩

/-- Where no pivot is left, the columns before and the one at hand depend on each other. -/
theorem Reduced.exists_solution (h : start.Reduced work n width col) (hn : col < n) (hw : col < width)
    (hzero : ∀ r, col ≤ r → r < n → work.cell r col = 0) :
    ∃ z : Nat → α, z col = 1 ∧ (∀ k, col < k → z k = 0) ∧ start.Solves ⟨n, width⟩ z := by
  refine ⟨fun k => if k = col then 1 else if k < col then -work.cell k col else 0, ?_, ?_, ?_⟩
  · simp
  · intro k hk
    simp [Nat.ne_of_gt hk, Nat.not_lt_of_gt hk]
  · refine (h.solves_iff _).1 fun i hi => ?_
    have hterm : ∀ k ∈ Finset.range width,
        work.cell i k * (if k = col then 1 else if k < col then -work.cell k col else 0) =
          (if k = col then work.cell i col else 0) - if k = i then work.cell i col else 0 := by
      intro k _
      rcases lt_trichotomy k col with hlt | rfl | hgt
      · rw [if_neg hlt.ne, if_pos hlt, if_neg hlt.ne, h.unit_columns k hlt i hi]
        by_cases hik : k = i
        · simp [hik]
        · simp [hik, Ne.symm hik]
      · rw [if_pos rfl, if_pos rfl, mul_one]
        split
        · next hki => rw [hzero i (Nat.le_of_eq hki) hi, sub_zero]
        · rw [sub_zero]
      · rw [if_neg hgt.ne', if_neg hgt.not_gt, if_neg hgt.ne', mul_zero]
        split
        · next hki => rw [hzero i (hki ▸ hgt.le) hi, sub_zero]
        · rw [sub_zero]
    have hout : i ∉ Finset.range width → work.cell i col = 0 := fun hout =>
      hzero i (hw.le.trans (not_lt.1 (mt Finset.mem_range.2 hout))) hi
    rw [rowValue, Finset.sum_congr rfl hterm, Finset.sum_sub_distrib, Finset.sum_ite_eq',
      Finset.sum_ite_eq', if_pos (Finset.mem_range.2 hw)]
    split
    · exact sub_self _
    · next hiw => rw [hout hiw, sub_zero]

section Inverse

variable {m : DenseMatrix α}

def augmented (m : DenseMatrix α) (n : Nat) : DenseMatrix α :=
  ofFn n (n + n) fun i j => if j < n then m.cell i j else if i = j - n then 1 else 0

theorem augment_identity (h : m.HasShape ⟨n, n⟩) (hn : 0 < n) :
    m.augment (identity n) = .ok (m.augmented n) := by
  rw [augment_eq h (hasShape_identity n) hn]
  refine congrArg _ (ofFn_congr fun i hi j hj => ?_)
  split
  · rfl
  · exact cell_identity hi (by omega)

/-- The matrix with the identity beside it stands for the equations `A x + y = 0`. -/
theorem rowValue_augmented (m : DenseMatrix α) {i : Nat} (hi : i < n) (z : Nat → α) :
    (m.augmented n).rowValue (n + n) i z = m.rowValue n i z + z (n + i) := by
  have hright : ∀ k ∈ Finset.range n,
      (m.augmented n).cell i (n + k) * z (n + k) = if i = k then z (n + k) else 0 := by
    intro k hk
    have hk : n + k < n + n := Nat.add_lt_add_left (Finset.mem_range.1 hk) n
    rw [augmented, cell_ofFn hi hk, if_neg (Nat.not_lt.2 (Nat.le_add_right n k)), Nat.add_sub_cancel_left]
    simp
  rw [rowValue, Finset.sum_range_add, rowValue, Finset.sum_congr rfl hright, Finset.sum_ite_eq,
    if_pos (Finset.mem_range.2 hi)]
  refine congrArg (· + z (n + i)) (Finset.sum_congr rfl fun k hk => ?_)
  have hk : k < n := Finset.mem_range.1 hk
  rw [augmented, cell_ofFn hi (Nat.lt_add_right n hk), if_pos hk]

/-- With the identity on the left, it stands for the equations `x + B y = 0`. -/
theorem Reduced.rowValue_eq (h : start.Reduced w n (n + n) n) {i : Nat} (hi : i < n) (z : Nat → α) :
    w.rowValue (n + n) i z = z i + ∑ k : Fin n, w.cell i (k + n) * z (n + k) := by
  have hleft : ∀ k ∈ Finset.range n, w.cell i k * z k = if i = k then z k else 0 := by
    intro k hk
    rw [h.unit_columns k (Finset.mem_range.1 hk) i hi, ite_mul, one_mul, zero_mul]
  rw [rowValue, Finset.sum_range_add, Finset.sum_congr rfl hleft, Finset.sum_ite_eq,
    if_pos (Finset.mem_range.2 hi), Finset.sum_range]
  simp only [Nat.add_comm n]

theorem Reduced.mul_eq_one (h : (m.augmented n).Reduced w n (n + n) n) :
    (Matrix.of fun i j : Fin n => w.cell i (j + n)) * m.grid n n = 1 := by
  ext i j
  -- A unit vector solves the equations together with its image, taken negative.
  let z : Nat → α := fun k => if k < n then if k = j then 1 else 0 else -m.cell (k - n) j
  have himage (k : Nat) : z (n + k) = -m.cell k j := by
    simp only [z, if_neg (Nat.not_lt.2 (Nat.le_add_right n k)), Nat.add_sub_cancel_left]
  have hunit : ∀ k < n, z k = if k = j then 1 else 0 := fun k hk => if_pos hk
  have hsolves : (m.augmented n).Solves ⟨n, n + n⟩ z := by
    intro r hr
    have hvalue : m.rowValue n r z = m.cell r j := by
      have hterm : ∀ k ∈ Finset.range n, m.cell r k * z k = if k = j then m.cell r k else 0 := by
        intro k hk
        rw [hunit k (Finset.mem_range.1 hk), mul_ite, mul_one, mul_zero]
      rw [rowValue, Finset.sum_congr rfl hterm, Finset.sum_ite_eq', if_pos (Finset.mem_range.2 j.isLt)]
    change (m.augmented n).rowValue (n + n) r z = 0
    rw [rowValue_augmented m hr, hvalue, himage, add_neg_cancel]
  have hrow : w.rowValue (n + n) i z = 0 := (h.solves_iff z).2 hsolves i i.isLt
  simp only [h.rowValue_eq i.isLt, hunit i i.isLt, himage, mul_neg, Finset.sum_neg_distrib] at hrow
  rw [Matrix.mul_apply, Matrix.one_apply]
  simp only [Fin.ext_iff]
  exact (add_neg_eq_zero.1 hrow).symm

/-- A matrix on which elimination stops takes a vector to zero that is not zero. -/
theorem Reduced.det_eq_zero (h : (m.augmented n).Reduced w n (n + n) col) (hn : col < n)
    (hzero : ∀ r, col ≤ r → r < n → w.cell r col = 0) : (m.grid n n).det = 0 := by
  obtain ⟨z, hone, hbeyond, hsolves⟩ := h.exists_solution hn (Nat.lt_add_right n hn) hzero
  refine Matrix.exists_mulVec_eq_zero_iff.1 ⟨fun k => z k, fun hz => ?_, ?_⟩
  · have hcol : z col = 0 := congrFun hz ⟨col, hn⟩
    exact one_ne_zero (hone.symm.trans hcol)
  · funext i
    have hrow : (m.augmented n).rowValue (n + n) i z = 0 := hsolves i i.isLt
    rw [rowValue_augmented m i.isLt, hbeyond (n + i) (Nat.lt_add_right i hn), add_zero, rowValue,
      Finset.sum_range] at hrow
    exact hrow

theorem HasShape.inverse_eq (h : m.HasShape ⟨n, n⟩) (hn : 0 < n) :
    m.inverse = (List.range n).foldlM (clearColumn n) (m.augmented n) >>= (trim · 0 0 n 0) := by
  rw [inverse, h.requireSquare_eq, h.rowCount_eq]
  simp only [bind, Except.bind, if_neg (Nat.ne_of_gt hn), augment_identity h hn]

theorem HasShape.inverse_spec (hmod : ComparedBy modulus) (h : m.HasShape ⟨n, n⟩) :
    (∃ b, m.inverse = .ok b ∧ b.HasShape ⟨n, n⟩ ∧ b.grid n n * m.grid n n = 1) ∨
      m.inverse = .error .singularMatrix ∧ (m.grid n n).det = 0 := by
  rcases Nat.eq_zero_or_pos n with rfl | hn
  · refine .inl ⟨zeros 0 0, ?_, hasShape_zeros 0 0, Subsingleton.elim _ _⟩
    rw [inverse, h.requireSquare_eq, h.rowCount_eq]
    rfl
  · have hstart : (m.augmented n).HasShape ⟨n, n + n⟩ := hasShape_ofFn ..
    rw [h.inverse_eq hn]
    obtain ⟨w, hrun, hreduced⟩ | ⟨hrun, col, hcol, w, hreduced, hzero⟩ :=
      foldlM_clearColumn_spec hmod hstart (Nat.le_add_right n n) (le_refl n)
    · have hcols : n + 0 < n + n := Nat.add_lt_add_left hn n
      have htrim : w.trim 0 0 n 0 = .ok (ofGrid (Matrix.of fun i j : Fin n => w.cell i (j + n))) := by
        rw [trim_of_lt hreduced.hasShape hn hcols, ← ofFn_eq_ofGrid n n fun i j => w.cell i (j + n)]
        simp
      rw [hrun]
      exact .inl ⟨_, htrim, hasShape_ofGrid _, by rw [grid_ofGrid, hreduced.mul_eq_one]⟩
    · rw [hrun]
      exact .inr ⟨rfl, hreduced.det_eq_zero hcol hzero⟩

/-- A square matrix has an inverse exactly when its determinant is not zero. Its product with the
inverse, on either side, is the identity. -/
theorem inverse_correct (hmod : ComparedBy modulus) (h : m.WellFormed) (hn : m.shape = ⟨n, n⟩) :
    ∃ d, m.det = .ok d ∧ ((∃ b, m.inverse = .ok b) ↔ d ≠ 0) ∧
      (∀ b, m.inverse = .ok b → m.mul b = .ok (identity n) ∧ b.mul m = .ok (identity n)) ∧
      (d = 0 → m.inverse = .error .singularMatrix) := by
  have hm : m.HasShape ⟨n, n⟩ := ⟨h.regular, hn⟩
  refine ⟨(m.grid n n).det, hm.det_eq, ?_⟩
  obtain ⟨b, hb, hshape, hleft⟩ | ⟨hsingular, hdet⟩ := hm.inverse_spec hmod
  · have hdet : (m.grid n n).det ≠ 0 := by
      intro hdet
      have hone := congrArg Matrix.det hleft
      rw [Matrix.det_mul, hdet, mul_zero, Matrix.det_one] at hone
      exact zero_ne_one hone
    refine ⟨iff_of_true ⟨b, hb⟩ hdet, fun b' hb' => ?_, fun hzero => absurd hzero hdet⟩
    cases hb.symm.trans hb'
    rw [mul_eq_ofGrid hm hshape, mul_eq_ofGrid hshape hm, hleft, mul_eq_one_comm.1 hleft,
      identity_eq_ofGrid]
    exact ⟨rfl, rfl⟩
  · refine ⟨iff_of_false ?_ (not_not.2 hdet), ?_, fun _ => hsingular⟩
    · rintro ⟨b, hb⟩
      cases hb.symm.trans hsingular
    · intro b hb
      cases hb.symm.trans hsingular

end Inverse

/-- A complex matrix with zeros on the diagonal: no column can be cleared before rows are exchanged. -/
noncomputable def antidiagonal : DenseMatrix (Scalar ℝ) :=
  ofFn 2 2 fun i j => if i = j then 0 else if i < j then Scalar.i else 1

theorem inverse_correct_antidiagonal :
    antidiagonal.WellFormed ∧ ∃ b, antidiagonal.inverse = .ok b ∧
      antidiagonal.mul b = .ok (identity 2) ∧ b.mul antidiagonal = .ok (identity 2) := by
  have hwellFormed : antidiagonal.WellFormed := wellFormed_ofFn ..
  obtain ⟨d, hd, hinverse, hproducts, -⟩ :=
    inverse_correct Scalar.comparedBy_modulus hwellFormed (shape_ofFn 2 2 _)
  have hshape : antidiagonal.HasShape ⟨2, 2⟩ := hasShape_ofFn ..
  have hdet : (antidiagonal.grid 2 2).det = -Scalar.i := by
    rw [Matrix.det_fin_two]
    simp [grid, antidiagonal, cell_ofFn]
  have hne : d ≠ 0 := by
    rintro rfl
    rw [hshape.det_eq, hdet, Except.ok.injEq] at hd
    exact absurd (congrArg Scalar.im hd) (by simp [Scalar.i])
  obtain ⟨b, hb⟩ := hinverse.2 hne
  exact ⟨hwellFormed, b, hb, hproducts b hb⟩

end MatrixCalculator.DenseMatrix
