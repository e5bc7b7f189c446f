import MatrixCalculator.DenseMatrix.Determinant
import MatrixCalculator.Proofs.Container.WellFormed
import MatrixCalculator.Proofs.DenseMatrix.Cells
import MatrixCalculator.Proofs.DenseMatrix.Power
set_option autoImplicit false

/-!
Well-formed matrices are regular and made of row vectors that their family has counted. Operations
on well-formed operands give well-formed results, and whatever the reason for which they refuse, it
is never an index that points at nothing: every entry they ask for is there.
-/

namespace MatrixCalculator

variable {α σ : Type}

def Error.NotAboutIndex : Error → Prop
  | .indexOutOfBounds .. => False
  | _ => True

/-- The computation has a result of some kind, or refuses for a reason that is not an index. -/
def Inside (P : σ → Prop) (x : Except Error σ) : Prop := Ends P Error.NotAboutIndex x

namespace DenseMatrix

theorem requireSquare_inside (m : DenseMatrix α) (operation : Operation) :
    Inside (fun _ => True) (m.requireSquare operation) := by
  unfold requireSquare
  split <;> trivial

variable [Entry α]

structure WellFormed (m : DenseMatrix α) : Prop where
  family : m.family.WellFormed
  space_eq : m.family.space = .row
  regular : m.Regular

theorem WellFormed.hasShape {m : DenseMatrix α} (h : m.WellFormed) : m.HasShape m.shape :=
  h.regular.hasShape

theorem WellFormed.hasShape_of_isSquare {m : DenseMatrix α} (h : m.WellFormed)
    (hsquare : m.isSquare = true) : m.HasShape ⟨m.rowCount, m.rowCount⟩ := by
  have hcount : m.rowCount = m.colCount := by simpa [isSquare] using hsquare
  exact ⟨h.regular, by rw [shape, ← hcount]⟩

section Construction

theorem wellFormed_ofLists {cols : Nat} {rows : List (List α)} (h : ∀ row ∈ rows, row.length = cols) :
    (ofLists cols rows).WellFormed := by
  have hrows : ∀ v ∈ rows.map (OrientedVector.ofList .row), v.WellFormed :=
    List.forall_mem_map.2 fun row _ => OrientedVector.wellFormed_ofList .row row
  exact ⟨(VectorFamily.wellFormed_ofVectors .row hrows).widened cols, rfl, (hasShape_ofLists h).regular⟩

theorem ofFnM_ends {E : Error → Prop} {rows cols : Nat} {f : Nat → Nat → Except Error α}
    (hf : ∀ i < rows, ∀ j < cols, Ends (fun _ => True) E (f i j)) :
    Ends WellFormed E (ofFnM rows cols f) := by
  have hrow (i : Nat) (hi : i ∈ List.range rows) := Ends.mapM fun j (hj : j ∈ List.range cols) =>
    hf i (List.mem_range.1 hi) j (List.mem_range.1 hj)
  refine (Ends.mapM hrow).bind fun grid hgrid => ?_
  exact wellFormed_ofLists fun row hrow => (hgrid.2 row hrow).1.trans List.length_range

theorem wellFormed_ofFn (rows cols : Nat) (f : Nat → Nat → α) : (ofFn rows cols f).WellFormed := by
  have hok : ofFnM rows cols (fun i j => .ok (f i j)) = .ok (ofFn rows cols f) :=
    ofFnM_of_ok fun _ _ _ _ => rfl
  exact (ofFnM_ends fun _ _ _ _ => ends_true _).of_eq_ok hok

theorem wellFormed_zeros (rows cols : Nat) : (zeros rows cols : DenseMatrix α).WellFormed :=
  ⟨VectorFamily.wellFormed_zeros .row rows cols, rfl, (hasShape_zeros rows cols).regular⟩

theorem ofFamily_inside {f : VectorFamily α} (h : f.WellFormed) : Inside WellFormed (ofFamily f) := by
  cases hm : ofFamily f with
  | ok m =>
    have hregular := regular_of_ofFamily hm
    simp only [ofFamily] at hm
    split at hm
    · cases hm
    · cases hm
      split
      · exact ⟨h, ‹_›, by rwa [if_pos ‹_›] at hregular⟩
      · refine ⟨VectorFamily.wellFormed_ofVectors .row fun v hv => (h v hv).wellFormed, rfl, ?_⟩
        rwa [if_neg ‹_›] at hregular
  | error e =>
    simp only [ofFamily] at hm
    split at hm <;> cases hm
    trivial

theorem ofRows_inside {rows : List (OrientedVector α)} (h : ∀ v ∈ rows, v.WellFormed) :
    Inside WellFormed (ofRows rows) := ofFamily_inside (VectorFamily.wellFormed_ofVectors .row h)

end Construction

section Mutation

variable {m : DenseMatrix α} {v : OrientedVector α}

theorem WellFormed.set (h : m.WellFormed) (i j : Nat) (x : α) : (m.set i j x).state.WellFormed :=
  ⟨h.family.setEntry i j x, (m.family.space_setEntry i j x).trans h.space_eq,
    (h.hasShape.set i j x).regular⟩

theorem WellFormed.setRow (h : m.WellFormed) (i : Nat) (hv : v.WellFormed) :
    (m.setRow i v).state.WellFormed := by
  unfold DenseMatrix.setRow
  split
  · next hl =>
    exact ⟨h.family.set i hv, (m.family.space_set i v).trans h.space_eq,
      (h.hasShape.state_set i hl).regular⟩
  · exact h

theorem WellFormed.swapRows (h : m.WellFormed) (i j : Nat) : (m.swapRows i j).state.WellFormed :=
  ⟨h.family.swap i j, (m.family.space_swap i j).trans h.space_eq, (h.hasShape.state_swap i j).regular⟩

theorem wellFormed_identity (n : Nat) : (identity n : DenseMatrix α).WellFormed := by
  unfold identity
  refine List.foldlRecOn (motive := WellFormed) _ _ (wellFormed_zeros n n) ?_
  intro m hm i _
  exact hm.set i i 1

theorem WellFormed.mapEntries (h : m.WellFormed) (f : α → α) : (m.mapEntries f).WellFormed := by
  rw [h.hasShape.mapEntries_eq f]
  exact wellFormed_ofFn ..

theorem WellFormed.transposed (h : m.WellFormed) : m.transposed.WellFormed := by
  rw [h.hasShape.transposed_eq]
  exact wellFormed_ofFn ..

theorem WellFormed.conjugated (h : m.WellFormed) : m.conjugated.WellFormed := by
  unfold DenseMatrix.conjugated
  split
  · exact h
  · exact h.mapEntries Entry.conj

theorem WellFormed.conjTransposed (h : m.WellFormed) : m.conjTransposed.WellFormed :=
  h.conjugated.transposed

theorem wellFormed_of_column? {j : Nat} (hv : m.column? j = some v) : v.WellFormed := by
  unfold column? at hv
  split at hv
  · cases hv
    exact OrientedVector.wellFormed_ofList _ _
  · cases hv

end Mutation

section Arithmetic

variable {a b m : DenseMatrix α} {v w : OrientedVector α}

theorem WellFormed.zipEntries_inside (ha : a.WellFormed) (hb : b.WellFormed) (operation : Operation)
    (f : α → α → α) : Inside WellFormed (zipEntries operation f a b) := by
  by_cases h : a.shape = b.shape
  · rw [zipEntries_of_shape_eq ha.hasShape (h ▸ hb.hasShape)]
    exact wellFormed_ofFn ..
  · rw [zipEntries, if_neg h]
    trivial

theorem WellFormed.mul_inside (ha : a.WellFormed) (hb : b.WellFormed) :
    Inside WellFormed (a.mul b) := by
  by_cases h : a.colCount = b.rowCount
  · rw [mul_of_shape_eq ha.hasShape hb.hasShape h]
    exact wellFormed_ofFn ..
  · rw [mul, if_neg h]
    trivial

theorem outer_inside (v w : OrientedVector α) : Inside WellFormed (outer v w) := by
  by_cases h : v.space = .column ∧ w.space = .row
  · rw [outer_eq h.1 h.2]
    exact wellFormed_ofFn ..
  · rw [outer, if_neg h]
    trivial

theorem WellFormed.mulColumn_inside (h : m.WellFormed) (v : OrientedVector α) :
    Inside OrientedVector.WellFormed (m.mulColumn v) := by
  by_cases hv : v.space = .column ∧ v.length = m.colCount
  · rw [mulColumn_of_length_eq h.hasShape hv.1 hv.2]
    exact OrientedVector.wellFormed_ofList _ _
  · rw [mulColumn, if_neg hv]
    trivial

theorem WellFormed.rowMul_inside (h : m.WellFormed) (v : OrientedVector α) :
    Inside OrientedVector.WellFormed (rowMul v m) := by
  by_cases hv : v.space = .row ∧ v.length = m.rowCount
  · rw [rowMul_of_length_eq h.hasShape hv.1 hv.2]
    exact OrientedVector.wellFormed_ofList _ _
  · rw [rowMul, if_neg hv]
    trivial

theorem WellFormed.trace_inside (h : m.WellFormed) : Inside (fun _ => True) m.trace := by
  unfold trace requireSquare
  split
  · next hsquare =>
    have hsum : sumM m.rowCount (fun i => m.entry i i) = .ok (sum m.rowCount fun i => m.cell i i) :=
      sumM_of_ok fun i hi => (h.hasShape_of_isSquare hsquare).entry_eq_cell hi hi
    simp only [hsum, bind, Except.bind]
    trivial
  · trivial

end Arithmetic

section Blocks

variable {a b m : DenseMatrix α} {s : Shape}

theorem augment_inside (a b : DenseMatrix α) : Inside WellFormed (a.augment b) := by
  unfold augment
  split
  · exact ofRows_inside (List.forall_mem_map.2 fun row _ => OrientedVector.wellFormed_ofList .row row)
  · trivial

theorem WellFormed.augmentColumn_inside (h : m.WellFormed) (v : OrientedVector α) :
    Inside WellFormed (m.augmentColumn v) := by
  unfold augmentColumn
  split
  · refine ofRows_inside fun row hrow => ?_
    obtain ⟨i, hi, rfl⟩ := List.mem_iff_getElem.1 hrow
    rw [List.getElem_zipWith]
    exact (h.family _ (List.getElem_mem _)).wellFormed.append _
  · trivial

theorem WellFormed.trim_inside (h : m.WellFormed) (top bottom left right : Nat) :
    Inside WellFormed (m.trim top bottom left right) := by
  by_cases hcut : top + bottom < m.rowCount ∧ left + right < m.colCount
  · rw [trim_of_lt h.hasShape hcut.1 hcut.2]
    exact wellFormed_ofFn ..
  · rw [trim, if_neg hcut]
    trivial

theorem skip_lt {n k i : Nat} (h : i < n - 1) : skip k i < n := by
  unfold skip
  split <;> omega

theorem HasShape.minor_eq (h : m.HasShape s) (k l : Nat) :
    m.minor k l = .ok (ofFn (s.rows - 1) (s.cols - 1) fun i j => m.cell (skip k i) (skip l j)) := by
  rw [minor, h.rowCount_eq, h.colCount_eq]
  exact ofFnM_of_ok fun i hi j hj => h.entry_eq_cell (skip_lt hi) (skip_lt hj)

theorem WellFormed.minor_inside (h : m.WellFormed) (k l : Nat) : Inside WellFormed (m.minor k l) := by
  rw [h.hasShape.minor_eq]
  exact wellFormed_ofFn ..

theorem cofactorDet_ends : ∀ (n : Nat) {m : DenseMatrix α}, m.HasShape ⟨n, n⟩ →
    Ends (fun _ => True) (fun _ => False) (cofactorDet n m)
  | 0, _, _ => trivial
  | 1, m, h => by
    rw [cofactorDet, h.entry_eq_cell Nat.one_pos Nat.one_pos]
    trivial
  | 2, m, h => by
    have hread {i j : Nat} (hi : i < 2) (hj : j < 2) : m.entry i j = .ok (m.cell i j) :=
      h.entry_eq_cell hi hj
    simp only [cofactorDet, hread Nat.two_pos Nat.two_pos, hread Nat.two_pos Nat.one_lt_two,
      hread Nat.one_lt_two Nat.two_pos, hread Nat.one_lt_two Nat.one_lt_two, bind, Except.bind]
    trivial
  | n + 3, m, h => by
    rw [cofactorDet]
    refine Ends.foldlM (fun acc j hj _ => ?_) trivial
    rw [h.entry_eq_cell (Nat.succ_pos _) (List.mem_range.1 hj), h.minor_eq 0 j]
    simp only [bind, Except.bind]
    split
    · trivial
    · exact (cofactorDet_ends (n + 2) (hasShape_ofFn ..)).bind fun _ _ => trivial

theorem WellFormed.det_inside (h : m.WellFormed) : Inside (fun _ => True) m.det := by
  unfold det requireSquare
  split
  · next hsquare =>
    exact (cofactorDet_ends m.rowCount (h.hasShape_of_isSquare hsquare)).mono (fun _ => id)
      fun _ => False.elim
  · trivial

end Blocks

section Powers

variable {m : DenseMatrix α}

/-- The inverse is cut out of the matrix that elimination leaves, and what is cut out is well
formed. -/
theorem inverse_ends_wellFormed (m : DenseMatrix α) : Ends WellFormed (fun _ => True) m.inverse := by
  unfold inverse
  refine (ends_true _).bind fun _ _ => ?_
  dsimp only
  split
  · exact wellFormed_zeros 0 0
  · refine (ends_true _).bind fun _ _ => (ends_true _).bind fun work _ => ?_
    unfold trim
    split
    · exact ofFnM_ends fun _ _ _ _ => ends_true _
    · trivial

theorem WellFormed.inverse_inside (h : m.WellFormed) : Inside WellFormed m.inverse := by
  by_cases hsquare : m.isSquare = true
  · have hinverse := inverse_ends (h.hasShape_of_isSquare hsquare)
    refine ((inverse_ends_wellFormed m).and hinverse).mono (fun _ h => h.1) ?_
    rintro _ ⟨-, rfl⟩
    trivial
  · rw [inverse, requireSquare, if_neg hsquare]
    trivial

theorem WellFormed.power_inside (h : m.WellFormed) (k : Int) : Inside WellFormed (m.power k) := by
  refine (m.requireSquare_inside .matrixPower).bind fun _ _ => ?_
  have hfrom : ∀ base : DenseMatrix α, base.WellFormed →
      Inside WellFormed (powerFrom (identity m.rowCount) base k.natAbs) := fun base hb =>
    powerFrom_keeps (fun _ _ ha hb => ha.mul_inside hb) (wellFormed_identity _) hb k.natAbs
  dsimp only
  split
  · exact h.inverse_inside.bind hfrom
  · exact hfrom m h

end Powers

end DenseMatrix

end MatrixCalculator
