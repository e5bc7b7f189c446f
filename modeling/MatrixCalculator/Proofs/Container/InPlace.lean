import Mathlib.Logic.Function.Basic
import MatrixCalculator.Proofs.Container.Reachable
set_option autoImplicit false

/-!
Storing in place. A change is made exactly when the places it names are there. Once made, it has
turned those places and left every other entry and row alone, with all that the rows remember; once
refused, it has left everything alone.
-/

namespace MatrixCalculator

/-- The change is made exactly when it is `allowed`. Then `read` finds `after` at the places of the
container, and what `fixed` tells is as it was; a refused change leaves the container itself. -/
structure Update.Assigns {σ κ ι τ : Type} (u : Update σ) (s : σ) (allowed : Prop) (fixed : σ → κ)
    (read : σ → ι → Option τ) (after : ι → Option τ) : Prop where
  refusal_eq_none : u.refusal = none ↔ allowed
  state_of_refused : ¬ allowed → u.state = s
  fixed_eq : fixed u.state = fixed s
  read_eq : allowed → read u.state = after

namespace Update

variable {σ ρ κ ι τ : Type} {s t : σ} {allowed : Prop} {after : ι → Option τ}

theorem assigns_done {fixed : σ → κ} {read : σ → ι → Option τ} (h : allowed)
    (hfixed : fixed t = fixed s) (hread : read t = after) :
    (done t).Assigns s allowed fixed read after :=
  ⟨iff_of_true rfl h, fun hn => absurd h hn, hfixed, fun _ => hread⟩

theorem assigns_refused {fixed : σ → κ} {read : σ → ι → Option τ} (h : ¬ allowed) (e : Error) :
    (refused e s).Assigns s allowed fixed read after :=
  ⟨iff_of_false (Option.some_ne_none e) h, fun _ => rfl, rfl, fun ha => absurd ha h⟩

theorem Assigns.map {u : Update σ} {f : σ → ρ} {fixed : ρ → κ} {read : ρ → ι → Option τ}
    (h : u.Assigns s allowed (fixed ∘ f) (read ∘ f) after) :
    (u.map f).Assigns (f s) allowed fixed read after :=
  ⟨h.refusal_eq_none, fun hn => congrArg f (h.state_of_refused hn), h.fixed_eq, h.read_eq⟩

end Update

theorem getElem?_set_eq_update {τ : Type} {xs : List τ} {i : Nat} (h : i < xs.length) (x : τ) :
    (fun k => (xs.set i x)[k]?) = Function.update (fun k => xs[k]?) i (some x) := by
  funext k
  by_cases hk : k = i
  · subst hk
    simp [h]
  · rw [Function.update_of_ne hk, List.getElem?_set_ne (Ne.symm hk)]

variable {α : Type}

theorem RankedSeq.set_assigns [Entry α] (s : RankedSeq α) (i : Nat) (x : α) :
    (s.set i x).Assigns s (i < s.length) length get? (Function.update s.get? i (some x)) := by
  unfold set
  split
  · next h => exact Update.assigns_done h List.length_set (getElem?_set_eq_update h x)
  · next h => exact Update.assigns_refused h _

namespace OrientedVector

variable [Entry α]

theorem set_of_length_le {v : OrientedVector α} {i : Nat} (h : v.length ≤ i) (x : α) :
    (v.set i x).state = v := by
  have hlt : ¬ i < v.elements.length := Nat.not_lt.2 h
  simp only [set, RankedSeq.refusal_set, if_neg hlt, RankedSeq.set_of_length_le (Nat.le_of_not_lt hlt)]
  rfl

theorem set_assigns (v : OrientedVector α) (i : Nat) (x : α) :
    (v.set i x).Assigns v (i < v.length) (fun w => (w.space, w.length)) get?
      (Function.update v.get? i (some x)) where
  refusal_eq_none := by simp [refusal_set]
  state_of_refused h := set_of_length_le (Nat.le_of_not_lt h) x
  fixed_eq := by simp
  read_eq h := by
    have hread : (v.set i x).state.get? = (v.elements.set i x).state.get? := by
      funext k
      rw [get?, elements_set]
    rw [hread]
    exact (v.elements.set_assigns i x).read_eq h

end OrientedVector

namespace VectorFamily

def frame (f : VectorFamily α) : Space × Shape := (f.space, ⟨f.count, f.innerLength⟩)

theorem set_assigns (f : VectorFamily α) (i : Nat) (v : OrientedVector α) :
    (f.set i v).Assigns f (i < f.count) (fun g => (g.space, g.count)) get?
      (Function.update f.get? i (some (v.inSpace f.space))) := by
  unfold set
  split
  · next h => exact Update.assigns_done h (by simp [count]) (getElem?_set_eq_update h _)
  · next h => exact Update.assigns_refused h _

theorem swap_assigns (f : VectorFamily α) (i j : Nat) :
    (f.swap i j).Assigns f (i < f.count ∧ j < f.count) frame get?
      (Function.update (Function.update f.get? i (f.get? j)) j (f.get? i)) := by
  unfold swap
  split
  · next v w hv hw =>
    have hi : i < f.vectors.length := (List.getElem?_eq_some_iff.1 hv).1
    have hj : j < f.vectors.length := (List.getElem?_eq_some_iff.1 hw).1
    refine Update.assigns_done ⟨hi, hj⟩ (by simp [frame, count]) ?_
    have hj' : j < (f.vectors.set i w).length := by simpa using hj
    rw [hv, hw]
    exact (getElem?_set_eq_update hj' v).trans
      (congrArg (Function.update · j (some v)) (getElem?_set_eq_update hi w))
  · next hv => exact Update.assigns_refused (fun h => Nat.not_lt.2 (List.getElem?_eq_none_iff.1 hv) h.1) _
  · next hv => exact Update.assigns_refused (fun h => Nat.not_lt.2 (List.getElem?_eq_none_iff.1 hv) h.2) _

def HasPlace (f : VectorFamily α) (i j : Nat) : Prop := ∃ v, f.get? i = some v ∧ j < v.length

def entryAt? (f : VectorFamily α) (p : Nat × Nat) : Option α := (f.get? p.1).bind (·.get? p.2)

variable [Entry α]

theorem setEntry_of_not_hasPlace {f : VectorFamily α} {i j : Nat} (h : ¬ f.HasPlace i j) (x : α) :
    (f.setEntry i j x).state = f := by
  cases hv : f.get? i with
  | none =>
    rw [setEntry, hv]
    rfl
  | some v =>
    have hj : ¬ j < v.length := fun hj => h ⟨v, hv, hj⟩
    have hi : f.vectors.set i v = f.vectors := by
      obtain ⟨hlt, rfl⟩ := List.getElem?_eq_some_iff.1 hv
      exact List.set_getElem_self hlt
    rw [state_setEntry hv, OrientedVector.set_of_length_le (Nat.le_of_not_lt hj), hi, if_neg hj]

theorem refusal_setEntry {f : VectorFamily α} {i : Nat} {v : OrientedVector α}
    (hv : f.get? i = some v) (j : Nat) (x : α) : (f.setEntry i j x).refusal = (v.set j x).refusal := by
  simp only [setEntry, hv]
  split <;> simp [*, Update.done, Update.refused]

theorem setEntry_assigns_vector (f : VectorFamily α) (i j : Nat) (x : α) :
    (f.setEntry i j x).Assigns f (f.HasPlace i j) frame get?
      (Function.update f.get? i ((f.get? i).map fun v => (v.set j x).state)) where
  refusal_eq_none := by
    cases hv : f.get? i with
    | none => simp [setEntry, HasPlace, hv, Update.refused]
    | some v => simp [refusal_setEntry hv, HasPlace, hv, OrientedVector.refusal_set]
  state_of_refused h := setEntry_of_not_hasPlace h x
  fixed_eq := by simp [frame]
  read_eq h := by
    obtain ⟨v, hv, hj⟩ := h
    have hi : i < f.vectors.length := (List.getElem?_eq_some_iff.1 hv).1
    rw [state_setEntry hv, hv]
    exact getElem?_set_eq_update hi _

theorem setEntry_assigns_entry (f : VectorFamily α) (i j : Nat) (x : α) :
    (f.setEntry i j x).Assigns f (f.HasPlace i j) frame entryAt?
      (Function.update f.entryAt? (i, j) (some x)) where
  refusal_eq_none := (f.setEntry_assigns_vector i j x).refusal_eq_none
  state_of_refused := (f.setEntry_assigns_vector i j x).state_of_refused
  fixed_eq := (f.setEntry_assigns_vector i j x).fixed_eq
  read_eq h := by
    have hvector := (f.setEntry_assigns_vector i j x).read_eq h
    obtain ⟨v, hv, hj⟩ := h
    have hentry := (v.set_assigns j x).read_eq hj
    funext ⟨k, l⟩
    rw [entryAt?, hvector]
    by_cases hk : k = i
    · subst hk
      simp only [Function.update_self, hv, Option.map_some, Option.bind_some, hentry]
      by_cases hl : l = j
      · subst hl
        simp
      · simp [Function.update_of_ne, hl, entryAt?, hv]
    · simp [Function.update_of_ne, hk, entryAt?]

end VectorFamily

namespace DenseMatrix

theorem HasShape.hasPlace_iff {m : DenseMatrix α} {s : Shape} (h : m.HasShape s) {i j : Nat} :
    m.family.HasPlace i j ↔ i < s.rows ∧ j < s.cols := by
  constructor
  · rintro ⟨v, hv, hj⟩
    have hi : i < m.rowCount := (List.getElem?_eq_some_iff.1 hv).1
    exact ⟨h.rowCount_eq ▸ hi, h.length_row? hv ▸ hj⟩
  · rintro ⟨hi, hj⟩
    obtain ⟨v, hv⟩ := h.exists_row? hi
    exact ⟨v, hv, (h.length_row? hv).symm ▸ hj⟩

variable [Entry α] {m : DenseMatrix α}

theorem WellFormed.set_assigns_entry (h : m.WellFormed) (i j : Nat) (x : α) :
    (m.set i j x).Assigns m (i < m.rowCount ∧ j < m.colCount) (·.family.frame) (·.family.entryAt?)
      (Function.update m.family.entryAt? (i, j) (some x)) := by
  have hassigns := m.family.setEntry_assigns_entry i j x
  rw [h.hasShape.hasPlace_iff] at hassigns
  exact hassigns.map

theorem WellFormed.set_assigns_row (h : m.WellFormed) (i j : Nat) (x : α) :
    (m.set i j x).Assigns m (i < m.rowCount ∧ j < m.colCount) (·.family.frame) row?
      (Function.update m.row? i ((m.row? i).map fun v => (v.set j x).state)) := by
  have hassigns := m.family.setEntry_assigns_vector i j x
  rw [h.hasShape.hasPlace_iff] at hassigns
  exact hassigns.map

theorem WellFormed.setRow_assigns (h : m.WellFormed) (i : Nat) (v : OrientedVector α) :
    (m.setRow i v).Assigns m (i < m.rowCount ∧ v.length = m.colCount) (·.family.frame) row?
      (Function.update m.row? i (some (v.inSpace .row))) := by
  have hassigns := m.family.set_assigns i v
  rw [h.space_eq] at hassigns
  unfold DenseMatrix.setRow
  split
  · next hl =>
    have hwidth : max m.family.innerLength v.length = m.family.innerLength := by
      rw [hl, colCount, Nat.max_self]
    have hframe : (m.family.set i v).state.frame = m.family.frame := by
      simp only [VectorFamily.frame, VectorFamily.space_set, VectorFamily.count_set,
        VectorFamily.innerLength_set, hwidth, ite_self]
    have hallowed : i < m.rowCount ∧ v.length = m.colCount ↔ i < m.family.count :=
      and_iff_left hl
    rw [hallowed]
    exact Update.Assigns.map ⟨hassigns.refusal_eq_none, hassigns.state_of_refused, hframe, hassigns.read_eq⟩
  · next hl => exact Update.assigns_refused (fun ha => hl ha.2) _

theorem swapRows_assigns {α : Type} (m : DenseMatrix α) (i j : Nat) :
    (m.swapRows i j).Assigns m (i < m.rowCount ∧ j < m.rowCount) (·.family.frame) row?
      (Function.update (Function.update m.row? i (m.row? j)) j (m.row? i)) :=
  (m.family.swap_assigns i j).map

end DenseMatrix

variable {β : Type} [ElementaryFunctions β]

/-- Every change of an entry, a vector or a row, and every exchange, is made exactly when its indices
are in range, and for a row when it is as long as the matrix is wide. It then replaces what it names
and nothing else, a vector stored in a family lying in the space of the family; refused, it leaves
the container itself. A change of an entry is told twice: by the entries, and by the vectors with
their ranks. -/
theorem reachable_assigns :
    (∀ (s : RankedSeq (Scalar β)) (i : Nat) (x : Scalar β),
      (s.set i x).Assigns s (i < s.length) RankedSeq.length RankedSeq.get?
        (Function.update s.get? i (some x))) ∧
    (∀ (v : OrientedVector (Scalar β)) (i : Nat) (x : Scalar β),
      (v.set i x).Assigns v (i < v.length) (fun w => (w.space, w.length)) OrientedVector.get?
        (Function.update v.get? i (some x))) ∧
    (∀ f : VectorFamily (Scalar β),
      (∀ i v, (f.set i v).Assigns f (i < f.count) (fun g => (g.space, g.count)) VectorFamily.get?
        (Function.update f.get? i (some (v.inSpace f.space)))) ∧
      (∀ i j x, (f.setEntry i j x).Assigns f (f.HasPlace i j) VectorFamily.frame
        VectorFamily.entryAt? (Function.update f.entryAt? (i, j) (some x))) ∧
      (∀ i j x, (f.setEntry i j x).Assigns f (f.HasPlace i j) VectorFamily.frame
        VectorFamily.get? (Function.update f.get? i ((f.get? i).map fun v => (v.set j x).state))) ∧
      ∀ i j, (f.swap i j).Assigns f (i < f.count ∧ j < f.count) VectorFamily.frame
        VectorFamily.get? (Function.update (Function.update f.get? i (f.get? j)) j (f.get? i))) ∧
    ∀ m : DenseMatrix (Scalar β), Reachable (.matrix m) →
      (∀ i j x, (m.set i j x).Assigns m (i < m.rowCount ∧ j < m.colCount) (·.family.frame)
        (·.family.entryAt?) (Function.update m.family.entryAt? (i, j) (some x))) ∧
      (∀ i j x, (m.set i j x).Assigns m (i < m.rowCount ∧ j < m.colCount) (·.family.frame)
        DenseMatrix.row? (Function.update m.row? i ((m.row? i).map fun v => (v.set j x).state))) ∧
      (∀ i v, (m.setRow i v).Assigns m (i < m.rowCount ∧ v.length = m.colCount) (·.family.frame)
        DenseMatrix.row? (Function.update m.row? i (some (v.inSpace .row)))) ∧
      ∀ i j, (m.swapRows i j).Assigns m (i < m.rowCount ∧ j < m.rowCount) (·.family.frame)
        DenseMatrix.row? (Function.update (Function.update m.row? i (m.row? j)) j (m.row? i)) := by
  refine ⟨RankedSeq.set_assigns, OrientedVector.set_assigns, fun f => ?_, fun m hm => ?_⟩
  · exact ⟨f.set_assigns, f.setEntry_assigns_entry, f.setEntry_assigns_vector, f.swap_assigns⟩
  · have h : m.WellFormed := hm.wellFormed
    exact ⟨h.set_assigns_entry, h.set_assigns_row, h.setRow_assigns, m.swapRows_assigns⟩

/-- A row that fits, at an index past every row, is refused and leaves the matrix. -/
theorem reachable_assigns_refused :
    Reachable (.matrix (.identity 2 : DenseMatrix (Scalar Float))) ∧
    ((.identity 2 : DenseMatrix (Scalar Float)).setRow 0xffffffffffffffff (.zeros .column 2)).state =
      .identity 2 := by
  have hmade : Reachable (.matrix (.identity 2 : DenseMatrix (Scalar Float))) :=
    .make (.identity 2) (by simp)
  have hassigns := ((@reachable_assigns Float _).2.2.2 _ hmade).2.2.1 0xffffffffffffffff (.zeros .column 2)
  exact ⟨hmade, hassigns.state_of_refused fun hallowed => absurd hallowed.1 (by decide +kernel)⟩

end MatrixCalculator
