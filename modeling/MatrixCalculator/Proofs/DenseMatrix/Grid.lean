import Mathlib
import MatrixCalculator.Proofs.Container.InPlace
import MatrixCalculator.Proofs.Container.RankAttained
import MatrixCalculator.Proofs.Scalar.Exact
set_option autoImplicit false

/-!
Regular matrices with exact entries, seen as grids of ring elements. A grid has one matrix of its
own, whose ranks are those of its cells; products are the matrices of the products of grids, and the
identity is that of the unit grid, ranks included.
-/

namespace MatrixCalculator

section

variable {α : Type} [RingEntry α]

theorem Rank.eq_real_of_le {r : Rank} (h : r ≤ .real) : r = .real := by
  cases r with
  | real => rfl
  | complex => cases h rfl

theorem RankedSeq.WellFormed.ofList_items {s : RankedSeq α} (h : s.WellFormed) (hrank : s.rank = .real) :
    ofList s.items = s := by
  have hreal : (ofList s.items).rank = .real := by
    refine Rank.eq_real_of_le fun hcomplex => ?_
    obtain ⟨x, hx, hcomplex⟩ := rank_ofList_eq_complex.1 hcomplex
    rcases h x hx with rfl | hle
    · rw [← hcomplex, Entry.rank_zero]
    · rw [← hrank]
      exact hle hcomplex
  cases s
  cases hrank
  exact congrArg (RankedSeq.mk _) hreal

theorem OrientedVector.WellFormed.ofList_items {v : OrientedVector α} (h : v.WellFormed)
    (hrank : v.rank = .real) : ofList v.space v.items = v := by
  have helements : v.elements.rank = .real := Rank.eq_real_of_le (hrank ▸ h.rank_le)
  have hitems : RankedSeq.ofList v.items = v.elements := h.elements.ofList_items helements
  rw [ofList, ofSeq, hitems, helements, ← hrank]

end

namespace DenseMatrix

section

variable {α : Type} [Entry α]

theorem cell_zeros (rows cols i j : Nat) : (zeros rows cols : DenseMatrix α).cell i j = 0 := by
  cases hv : (zeros rows cols : DenseMatrix α).row? i with
  | none => rw [cell, get?, hv, Option.bind_none, Option.getD_none]
  | some v =>
    have hmem : v ∈ (zeros rows cols : DenseMatrix α).family.vectors := List.mem_of_getElem? hv
    simp only [zeros, VectorFamily.vectors_zeros] at hmem
    have hitems : v.items = List.replicate cols 0 := by
      rw [List.eq_of_mem_replicate hmem]
      rfl
    rw [cell_eq_getD hv, hitems]
    by_cases hj : j < cols <;> simp [List.getD_eq_getElem?_getD, hj]

theorem cell_set {m : DenseMatrix α} {s : Shape} (h : m.HasShape s) {i j : Nat} (hi : i < s.rows)
    (hj : j < s.cols) (x : α) (k l : Nat) :
    (m.set i j x).state.cell k l = if k = i ∧ l = j then x else m.cell k l := by
  have hread := (m.family.setEntry_assigns_entry i j x).read_eq (h.hasPlace_iff.2 ⟨hi, hj⟩)
  change ((m.family.setEntry i j x).state.entryAt? (k, l)).getD 0 = _
  rw [hread, Function.update_apply]
  simp only [Prod.mk.injEq]
  split
  · rfl
  · rfl

theorem rank_set_of_real {m : DenseMatrix α} {i j : Nat} {x : α} (hm : m.rank = .real)
    (hx : Entry.rank x = .real) : (m.set i j x).state.rank = .real := by
  change m.family.rank = .real at hm
  change (m.family.setEntry i j x).state.rank = .real
  cases hv : m.family.get? i with
  | none =>
    rw [VectorFamily.setEntry, hv]
    exact hm
  | some v => simp [VectorFamily.state_setEntry hv, hm, hx, Rank.join]

def grid (m : DenseMatrix α) (rows cols : Nat) : Matrix (Fin rows) (Fin cols) α :=
  Matrix.of fun i j => m.cell i j

def ofGrid {rows cols : Nat} (M : Matrix (Fin rows) (Fin cols) α) : DenseMatrix α :=
  ofFn rows cols fun i j => if h : i < rows ∧ j < cols then M ⟨i, h.1⟩ ⟨j, h.2⟩ else 0

theorem hasShape_ofGrid {rows cols : Nat} (M : Matrix (Fin rows) (Fin cols) α) :
    (ofGrid M).HasShape ⟨rows, cols⟩ := hasShape_ofFn ..

theorem ofFn_eq_ofGrid (rows cols : Nat) (f : Nat → Nat → α) :
    ofFn rows cols f = ofGrid (Matrix.of fun (i : Fin rows) (j : Fin cols) => f i j) :=
  ofFn_congr fun i hi j hj => by simp [hi, hj]

theorem ofGrid_grid (m : DenseMatrix α) (rows cols : Nat) :
    ofGrid (m.grid rows cols) = ofFn rows cols m.cell := (ofFn_eq_ofGrid ..).symm

@[simp] theorem grid_ofGrid {rows cols : Nat} (M : Matrix (Fin rows) (Fin cols) α) :
    (ofGrid M).grid rows cols = M := by
  ext i j
  simp [grid, ofGrid, cell_ofFn i.isLt j.isLt]

end

section

variable {α : Type} [RingEntry α]

theorem sum_eq (n : Nat) (term : Nat → α) : sum n term = ∑ k : Fin n, term k := by
  induction n with
  | zero => rfl
  | succ n ih =>
    rw [Fin.sum_univ_castSucc]
    simp only [sum, List.range_succ, List.foldl_append, List.foldl_cons, List.foldl_nil] at ih ⊢
    rw [ih]
    rfl

theorem mul_eq_ofGrid {a b : DenseMatrix α} {r k c : Nat} (ha : a.HasShape ⟨r, k⟩)
    (hb : b.HasShape ⟨k, c⟩) : a.mul b = .ok (ofGrid (a.grid r k * b.grid k c)) := by
  rw [mul_of_shape_eq ha hb rfl, ofFn_eq_ofGrid]
  congr 2
  ext i j
  rw [Matrix.of_apply, sum_eq, Matrix.mul_apply]
  rfl

/-- A matrix of real rank remembers no rank that counting its cells again would not give. -/
theorem WellFormed.eq_ofGrid_of_rank_real {m : DenseMatrix α} {s : Shape} (h : m.WellFormed)
    (hs : m.HasShape s) (hrank : m.rank = .real) : m = ofGrid (m.grid s.rows s.cols) := by
  have hvector : ∀ v ∈ m.family.vectors, v.rank = .real ∧ .ofList .row v.items = v := by
    intro v hv
    have hfits := h.family v hv
    have hspace : v.space = .row := hfits.space_eq.trans h.space_eq
    have hreal : v.rank = .real := Rank.eq_real_of_le (hrank ▸ hfits.rank_le)
    exact ⟨hreal, hspace ▸ hfits.wellFormed.ofList_items hreal⟩
  have hranks : (ofLists m.colCount m.lists).rank = .real := by
    refine Rank.eq_real_of_le fun hcomplex => ?_
    obtain ⟨w, hw, hcomplex⟩ := List.mem_map.1 (Rank.joinAll_eq_complex.1 hcomplex)
    obtain ⟨row, hrow, rfl⟩ := List.mem_map.1 hw
    obtain ⟨v, hv, rfl⟩ := List.mem_map.1 hrow
    rw [← hcomplex, (hvector v hv).2, (hvector v hv).1]
  have hlists : ofLists m.colCount m.lists = m :=
    h.regular.ofLists_lists h.space_eq (fun v hv => (hvector v hv).2) (hranks.trans hrank.symm)
  rw [ofGrid_grid, ofFn, ← hs.lists_eq, ← hs.colCount_eq, hlists]

theorem foldl_set_diagonal {n : Nat} {places : List Nat} (hplaces : ∀ i ∈ places, i < n)
    {m : DenseMatrix α} (h : m.HasShape ⟨n, n⟩) (hrank : m.rank = .real) :
    (places.foldl (fun m i => (m.set i i 1).state) m).rank = .real ∧
      ∀ i j, (places.foldl (fun m i => (m.set i i 1).state) m).cell i j =
        if i = j ∧ i ∈ places then 1 else m.cell i j := by
  induction places generalizing m with
  | nil => exact ⟨hrank, fun i j => by simp⟩
  | cons k places ih =>
    obtain ⟨hk, hplaces⟩ := List.forall_mem_cons.1 hplaces
    obtain ⟨hrank, hcells⟩ := ih hplaces (h.set k k 1) (rank_set_of_real hrank Entry.rank_one)
    refine ⟨hrank, fun i j => ?_⟩
    rw [List.foldl_cons, hcells, cell_set h hk hk]
    grind

theorem identity_eq_ofGrid (n : Nat) :
    (identity n : DenseMatrix α) = ofGrid (1 : Matrix (Fin n) (Fin n) α) := by
  obtain ⟨hrank, hcells⟩ := foldl_set_diagonal (fun _ => List.mem_range.1) (hasShape_zeros (α := α) n n) rfl
  have hgrid : (identity n : DenseMatrix α).grid n n = 1 := by
    ext i j
    rw [grid, Matrix.of_apply, identity, hcells, cell_zeros, Matrix.one_apply]
    simp [Fin.ext_iff]
  rw [← hgrid]
  exact (wellFormed_identity n).eq_ofGrid_of_rank_real (hasShape_identity n) hrank

@[simp] theorem grid_identity (n : Nat) : (identity n : DenseMatrix α).grid n n = 1 := by
  rw [identity_eq_ofGrid, grid_ofGrid]

theorem cell_identity {n i j : Nat} (hi : i < n) (hj : j < n) :
    (identity n : DenseMatrix α).cell i j = if i = j then 1 else 0 := by
  have hcell := congrFun (congrFun (grid_identity (α := α) n) ⟨i, hi⟩) ⟨j, hj⟩
  simpa [grid, Matrix.one_apply] using hcell

end

end DenseMatrix

end MatrixCalculator
