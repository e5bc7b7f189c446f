import Mathlib
import MatrixCalculator.Proofs.DenseMatrix.Grid
set_option autoImplicit false

/-!
Over exact entries a product of matrices and vectors does not hang on how it is grouped, and the
identity is neutral in it. A vector is read as a tuple as a matrix is read as a grid, so that the sums
nested in a product of three are the ones that the algebra of grids interchanges, empty sums included.
-/

namespace MatrixCalculator

variable {α : Type}

namespace OrientedVector

variable [Entry α] {v : OrientedVector α} {n : Nat}

def tuple (v : OrientedVector α) (n : Nat) : Fin n → α := fun k => v.items.getD k 0

def ofTuple (space : Space) (x : Fin n → α) : OrientedVector α := ofList space (List.ofFn x)

@[simp] theorem length_ofTuple (space : Space) (x : Fin n → α) : (ofTuple space x).length = n := by
  simp [ofTuple]

theorem ofList_range_eq_ofTuple (space : Space) (n : Nat) (f : Nat → α) :
    ofList space ((List.range n).map f) = ofTuple space fun k : Fin n => f k := by
  refine congrArg _ (List.ext_getElem (by simp) fun k _ _ => ?_)
  simp

@[simp] theorem tuple_ofTuple (space : Space) (x : Fin n → α) : (ofTuple space x).tuple n = x := by
  funext k
  change (List.ofFn x).getD k 0 = x k
  simp

theorem items_ofTuple_tuple (space : Space) (h : v.length = n) : (ofTuple space (v.tuple n)).items = v.items := by
  have hlength : v.items.length = n := h
  change List.ofFn (v.tuple n) = v.items
  refine List.ext_getElem (by simp [hlength]) fun k _ hk => ?_
  simp [tuple, hk]

end OrientedVector

namespace DenseMatrix

variable [RingEntry α] {a b c : DenseMatrix α} {v : OrientedVector α} {m k l n : Nat}

theorem rowMul_eq_ofTuple (ha : a.HasShape ⟨m, k⟩) (hv : v.space = .row) (hl : v.length = m) :
    rowMul v a = .ok (.ofTuple .row (Matrix.vecMul (v.tuple m) (a.grid m k))) := by
  rw [rowMul_of_length_eq ha hv hl, OrientedVector.ofList_range_eq_ofTuple]
  congr 2
  funext j
  exact sum_eq ..

theorem mulColumn_eq_ofTuple (ha : a.HasShape ⟨m, k⟩) (hv : v.space = .column) (hl : v.length = k) :
    a.mulColumn v = .ok (.ofTuple .column (Matrix.mulVec (a.grid m k) (v.tuple k))) := by
  rw [mulColumn_of_length_eq ha hv hl, OrientedVector.ofList_range_eq_ofTuple]
  congr 2
  funext i
  exact sum_eq ..

namespace HasShape

theorem mul_mul (ha : a.HasShape ⟨m, k⟩) (hb : b.HasShape ⟨k, l⟩) (hc : c.HasShape ⟨l, n⟩) :
    ∃ p, (do (← a.mul b).mul c) = .ok p ∧ (do a.mul (← b.mul c)) = .ok p ∧ p.shape = ⟨m, n⟩ := by
  refine ⟨ofGrid (a.grid m k * b.grid k l * c.grid l n), ?_, ?_, (hasShape_ofGrid _).shape_eq⟩
  · rw [mul_eq_ofGrid ha hb]
    change (ofGrid _).mul c = _
    rw [mul_eq_ofGrid (hasShape_ofGrid _) hc, grid_ofGrid]
  · rw [mul_eq_ofGrid hb hc]
    change a.mul (ofGrid _) = _
    rw [mul_eq_ofGrid ha (hasShape_ofGrid _), grid_ofGrid, Matrix.mul_assoc]

theorem ofGrid_grid_alike (ha : a.HasShape ⟨m, k⟩) : (ofGrid (a.grid m k)).Alike (· = ·) a := by
  refine (hasShape_ofGrid _).alike ha fun i hi j hj => ?_
  rw [ofGrid_grid, cell_ofFn hi hj]

theorem identity_mul (ha : a.HasShape ⟨m, k⟩) :
    ∃ p, (identity m).mul a = .ok p ∧ p.Alike (· = ·) a := by
  refine ⟨_, mul_eq_ofGrid (hasShape_identity m) ha, ?_⟩
  rw [grid_identity, Matrix.one_mul]
  exact ha.ofGrid_grid_alike

theorem mul_identity (ha : a.HasShape ⟨m, k⟩) :
    ∃ p, a.mul (identity k) = .ok p ∧ p.Alike (· = ·) a := by
  refine ⟨_, mul_eq_ofGrid ha (hasShape_identity k), ?_⟩
  rw [grid_identity, Matrix.mul_one]
  exact ha.ofGrid_grid_alike

theorem row_mul_mul (ha : a.HasShape ⟨m, k⟩) (hb : b.HasShape ⟨k, l⟩) (hv : v.space = .row)
    (hl : v.length = m) :
    ∃ r, (do rowMul (← rowMul v a) b) = .ok r ∧ (do rowMul v (← a.mul b)) = .ok r ∧
      r.shape = ⟨1, l⟩ := by
  refine ⟨.ofTuple .row (Matrix.vecMul (v.tuple m) (a.grid m k * b.grid k l)), ?_, ?_,
    congrArg (Shape.mk 1) (OrientedVector.length_ofTuple ..)⟩
  · rw [rowMul_eq_ofTuple ha hv hl]
    change rowMul (.ofTuple .row _) b = _
    rw [rowMul_eq_ofTuple hb rfl (OrientedVector.length_ofTuple ..), OrientedVector.tuple_ofTuple,
      Matrix.vecMul_vecMul]
  · rw [mul_eq_ofGrid ha hb]
    change rowMul v (ofGrid _) = _
    rw [rowMul_eq_ofTuple (hasShape_ofGrid _) hv hl, grid_ofGrid]

theorem mul_mul_column (ha : a.HasShape ⟨m, k⟩) (hb : b.HasShape ⟨k, l⟩) (hv : v.space = .column)
    (hl : v.length = l) :
    ∃ r, (do (← a.mul b).mulColumn v) = .ok r ∧ (do a.mulColumn (← b.mulColumn v)) = .ok r ∧
      r.shape = ⟨m, 1⟩ := by
  refine ⟨.ofTuple .column (Matrix.mulVec (a.grid m k * b.grid k l) (v.tuple l)), ?_, ?_,
    congrArg (Shape.mk · 1) (OrientedVector.length_ofTuple ..)⟩
  · rw [mul_eq_ofGrid ha hb]
    change (ofGrid _).mulColumn v = _
    rw [mulColumn_eq_ofTuple (hasShape_ofGrid _) hv hl, grid_ofGrid]
  · rw [mulColumn_eq_ofTuple hb hv hl]
    change a.mulColumn (.ofTuple .column _) = _
    rw [mulColumn_eq_ofTuple ha rfl (OrientedVector.length_ofTuple ..), OrientedVector.tuple_ofTuple,
      Matrix.mulVec_mulVec]

end HasShape

theorem rowMul_identity (hv : v.space = .row) :
    ∃ r, rowMul v (identity v.length) = .ok r ∧ r.space = .row ∧ r.items = v.items := by
  refine ⟨_, rowMul_eq_ofTuple (hasShape_identity _) hv rfl, rfl, ?_⟩
  rw [grid_identity, Matrix.vecMul_one]
  exact OrientedVector.items_ofTuple_tuple .row rfl

theorem identity_mulColumn (hv : v.space = .column) :
    ∃ r, (identity v.length).mulColumn v = .ok r ∧ r.space = .column ∧ r.items = v.items := by
  refine ⟨_, mulColumn_eq_ofTuple (hasShape_identity _) hv rfl, rfl, ?_⟩
  rw [grid_identity, Matrix.one_mulVec]
  exact OrientedVector.items_ofTuple_tuple .column rfl

/-- Matrices that meet, vectors at either end included, have one product however it is grouped, and
multiplying by the identity on either side gives the entries back. Any of the lengths may be zero. -/
theorem products_regroup :
    (∀ {m k l n : Nat} {a b c : DenseMatrix α},
      a.HasShape ⟨m, k⟩ → b.HasShape ⟨k, l⟩ → c.HasShape ⟨l, n⟩ →
      ∃ p, (do (← a.mul b).mul c) = .ok p ∧ (do a.mul (← b.mul c)) = .ok p ∧ p.shape = ⟨m, n⟩) ∧
    (∀ {m k : Nat} {a : DenseMatrix α}, a.HasShape ⟨m, k⟩ →
      (∃ p, (identity m).mul a = .ok p ∧ p.Alike (· = ·) a) ∧
      ∃ p, a.mul (identity k) = .ok p ∧ p.Alike (· = ·) a) ∧
    (∀ {m k l : Nat} {a b : DenseMatrix α} {v : OrientedVector α},
      a.HasShape ⟨m, k⟩ → b.HasShape ⟨k, l⟩ →
      (v.space = .row → v.length = m → ∃ r, (do rowMul (← rowMul v a) b) = .ok r ∧
        (do rowMul v (← a.mul b)) = .ok r ∧ r.shape = ⟨1, l⟩) ∧
      (v.space = .column → v.length = l → ∃ r, (do (← a.mul b).mulColumn v) = .ok r ∧
        (do a.mulColumn (← b.mulColumn v)) = .ok r ∧ r.shape = ⟨m, 1⟩)) ∧
    ∀ v : OrientedVector α,
      (v.space = .row →
        ∃ r, rowMul v (identity v.length) = .ok r ∧ r.space = .row ∧ r.items = v.items) ∧
      (v.space = .column →
        ∃ r, (identity v.length).mulColumn v = .ok r ∧ r.space = .column ∧ r.items = v.items) :=
  ⟨fun ha hb hc => ha.mul_mul hb hc, fun ha => ⟨ha.identity_mul, ha.mul_identity⟩,
    fun ha hb => ⟨ha.row_mul_mul hb, ha.mul_mul_column hb⟩,
    fun _ => ⟨rowMul_identity, identity_mulColumn⟩⟩

/-- Matrices that meet in no place, so that every sum is empty and only the remembered lengths are
left; a matrix without rows; and a row that goes through a square matrix into one
without columns. -/
theorem products_regroup_empty :
    (∃ p : DenseMatrix (Scalar ℝ),
      (do (← (zeros 2 0).mul (zeros 0 3)).mul (ofFn 3 1 fun _ _ => Scalar.i)) = .ok p ∧
      (do (zeros 2 0).mul (← (zeros 0 3).mul (ofFn 3 1 fun _ _ => Scalar.i))) = .ok p ∧
      p.shape = ⟨2, 1⟩) ∧
    (∃ p : DenseMatrix (Scalar ℝ), (identity 0).mul (zeros 0 3) = .ok p ∧ p.Alike (· = ·) (zeros 0 3)) ∧
    ∃ r : OrientedVector (Scalar ℝ),
      (do rowMul (← rowMul (.ofList .row [Scalar.i, 1]) (ofFn 2 2 fun _ _ => Scalar.i)) (zeros 2 0)) = .ok r ∧
      (do rowMul (.ofList .row [Scalar.i, 1]) (← (ofFn 2 2 fun _ _ => Scalar.i).mul (zeros 2 0))) = .ok r ∧
      r.shape = ⟨1, 0⟩ := by
  obtain ⟨hmatrices, hidentity, hvectors, -⟩ := products_regroup (α := Scalar ℝ)
  refine ⟨hmatrices (hasShape_zeros 2 0) (hasShape_zeros 0 3) (hasShape_ofFn ..),
    (hidentity (hasShape_zeros 0 3)).1, ?_⟩
  exact (hvectors (hasShape_ofFn ..) (hasShape_zeros 2 0)).1 rfl rfl

end DenseMatrix

end MatrixCalculator
