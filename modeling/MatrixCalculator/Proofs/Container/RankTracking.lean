import MatrixCalculator.Proofs.Container.Reachable
set_option autoImplicit false

/-!
The ranks that containers remember never fall short. Wherever an entry lies off the real axis, the
sequence, the vector and the family that hold it remember that they are complex; so conjugation,
which leaves whatever is real by its rank alone, conjugates every entry all the same. Of components
it is only asked that zero compares equal to zero.
-/

namespace MatrixCalculator

variable {β : Type} [ElementaryFunctions β]

/-- The imaginary part is not zero; a part that is not a number is not zero either. -/
def Scalar.OffAxis (x : Scalar β) : Prop := Component.isZero x.im = false

theorem Scalar.conj_of_not_offAxis {x : Scalar β} (h : ¬ x.OffAxis) : x.conj = x := by
  have hreal : x.isReal = true := by simpa [OffAxis, isReal] using h
  rw [conj, if_pos hreal]

def RankedSeq.TracksRank (s : RankedSeq (Scalar β)) : Prop :=
  ∀ x ∈ s.items, x.OffAxis → s.rank = .complex

structure OrientedVector.TracksRank (v : OrientedVector (Scalar β)) : Prop where
  elements : v.elements.TracksRank
  rank_eq : ∀ x ∈ v.items, x.OffAxis → v.rank = .complex

structure VectorFamily.TracksRank (f : VectorFamily (Scalar β)) : Prop where
  vectors : ∀ v ∈ f.vectors, v.TracksRank
  rank_eq : ∀ v ∈ f.vectors, ∀ x ∈ v.items, x.OffAxis → f.rank = .complex

def Container.TracksRank : Container β → Prop
  | .sequence s => s.TracksRank
  | .vector v => v.TracksRank
  | .family f => f.TracksRank
  | .matrix m => m.family.TracksRank

section

variable (zero : Component.isZero (0 : β) = true)
include zero

theorem RankedSeq.WellFormed.tracksRank {s : RankedSeq (Scalar β)} (h : s.WellFormed) :
    s.TracksRank := by
  intro x hx hoff
  have hrank : x.rank = .complex := by simp [Scalar.rank, show Component.isZero x.im = false from hoff]
  rcases h x hx with rfl | hle
  · have hreal : (0 : Scalar β).rank = .real := Scalar.rank_eq_real.2 zero
    rw [hreal] at hrank
    cases hrank
  · exact hle hrank

theorem OrientedVector.WellFormed.tracksRank {v : OrientedVector (Scalar β)} (h : v.WellFormed) :
    v.TracksRank :=
  have helements := h.elements.tracksRank zero
  ⟨helements, fun x hx hoff => h.rank_le (helements x hx hoff)⟩

theorem VectorFamily.WellFormed.tracksRank {f : VectorFamily (Scalar β)} (h : f.WellFormed) :
    f.TracksRank := by
  have hvectors (v : OrientedVector (Scalar β)) (hv : v ∈ f.vectors) : v.TracksRank :=
    (h v hv).wellFormed.tracksRank zero
  exact ⟨hvectors, fun v hv x hx hoff => (h v hv).rank_le ((hvectors v hv).rank_eq x hx hoff)⟩

theorem Container.WellFormed.tracksRank {c : Container β} (h : c.WellFormed) : c.TracksRank := by
  cases c with
  | sequence s => exact RankedSeq.WellFormed.tracksRank zero h
  | vector v => exact OrientedVector.WellFormed.tracksRank zero h
  | family f => exact VectorFamily.WellFormed.tracksRank zero h
  | matrix m => exact VectorFamily.WellFormed.tracksRank zero h.family

end

theorem Scalar.map_conj_eq_self {xs : List (Scalar β)} (h : ∀ x ∈ xs, ¬ x.OffAxis) :
    xs.map conj = xs := by
  conv_rhs => rw [← List.map_id xs]
  exact List.map_congr_left fun x hx => conj_of_not_offAxis (h x hx)

namespace OrientedVector

theorem TracksRank.items_conjugated {v : OrientedVector (Scalar β)} (h : v.TracksRank) :
    v.conjugated.items = v.items.map Scalar.conj := by
  unfold conjugated
  split
  · next hreal =>
    refine (Scalar.map_conj_eq_self fun x hx hoff => ?_).symm
    have hcomplex := h.rank_eq x hx hoff
    rw [hreal] at hcomplex
    cases hcomplex
  · rfl

end OrientedVector

namespace DenseMatrix

theorem space_conjugated {α : Type} [Entry α] {m : DenseMatrix α} (h : m.family.space = .row) :
    m.conjugated.family.space = .row := by
  unfold conjugated
  split
  · exact h
  · rfl

theorem lists_conjugated {m : DenseMatrix (Scalar β)} (h : m.family.TracksRank) :
    m.conjugated.lists = m.lists.map (·.map Scalar.conj) := by
  unfold conjugated
  split
  · next hreal =>
    rw [lists, List.map_map]
    refine List.map_congr_left fun v hv => ?_
    refine (Scalar.map_conj_eq_self fun x hx hoff => ?_).symm
    have hcomplex : m.rank = .complex := h.rank_eq v hv x hx hoff
    rw [hreal] at hcomplex
    cases hcomplex
  · exact lists_ofLists _ _

end DenseMatrix

/-- Every container ever held is complex by its remembered ranks wherever it holds an entry off the
real axis. Conjugating a vector or a matrix replaces each entry by its conjugate and nothing else,
also where the remembered rank lets conjugation return at once. -/
theorem reachable_tracksRank (zero : Component.isZero (0 : β) = true) :
    (∀ c : Container β, Reachable c → c.TracksRank) ∧
    (∀ v : OrientedVector (Scalar β), Reachable (.vector v) →
      v.conjugated.items = v.items.map Scalar.conj ∧ v.conjugated.space = v.space ∧
        v.conjugated.length = v.length) ∧
    ∀ m : DenseMatrix (Scalar β), Reachable (.matrix m) →
      m.conjugated.lists = m.lists.map (·.map Scalar.conj) ∧
        m.conjugated.family.space = m.family.space ∧ m.conjugated.shape = m.shape := by
  have htracks (c : Container β) (h : Reachable c) : c.TracksRank := h.wellFormed.tracksRank zero
  refine ⟨htracks, fun v h => ?_, fun m h => ?_⟩
  · have hv : v.TracksRank := htracks (.vector v) h
    exact ⟨hv.items_conjugated, v.space_conjugated, v.length_conjugated⟩
  · have hm : m.WellFormed := h.wellFormed
    exact ⟨DenseMatrix.lists_conjugated (htracks (.matrix m) h),
      (DenseMatrix.space_conjugated hm.space_eq).trans hm.space_eq.symm,
      hm.hasShape.conjugated.shape_eq⟩

/-- Overwriting the only complex entry leaves the vector complex, and its conjugate is that of a
real vector. -/
theorem reachable_tracksRank_overwritten :
    Reachable (.vector ((OrientedVector.ofList .row [(.i : Scalar Float)]).set 0 1).state) ∧
    ((OrientedVector.ofList .row [(.i : Scalar Float)]).set 0 1).state.conjugated.items =
      [(1 : Scalar Float)] := by
  have hbuilt : Reachable (.vector (OrientedVector.ofList .row [(.i : Scalar Float)])) :=
    .make (.vectorOfList .row [.i]) (by simp)
  have hset := Reachable.make (.vectorSet (OrientedVector.ofList .row [(.i : Scalar Float)]) 0 1)
    (by simpa using hbuilt)
  exact ⟨hset, ((reachable_tracksRank rfl).2.1 _ hset).1⟩

end MatrixCalculator
