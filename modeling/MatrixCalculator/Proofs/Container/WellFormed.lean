import MatrixCalculator.OrientedVector.Arithmetic
import MatrixCalculator.Proofs.Ends
import MatrixCalculator.VectorFamily
set_option autoImplicit false

/-!
What containers remember about what they hold. A sequence has counted the rank of every entry other
than the zeros it may have started from, a vector is of no lower rank than its sequence, and every
vector of a family fits the space, the length and the rank that the family remembers. Constructors
and operations keep this, made or refused, with no law of the entries.
-/

namespace MatrixCalculator

variable {α : Type}

section

variable [Entry α]

/-- No entry is of a higher rank than the sequence, except that zeros need not be counted. -/
def RankedSeq.WellFormed (s : RankedSeq α) : Prop := ∀ x ∈ s.items, x = 0 ∨ Entry.rank x ≤ s.rank

structure OrientedVector.WellFormed (v : OrientedVector α) : Prop where
  elements : v.elements.WellFormed
  rank_le : v.elements.rank ≤ v.rank

/-- The vector is one that the family has counted. -/
structure VectorFamily.Fits (f : VectorFamily α) (v : OrientedVector α) : Prop where
  space_eq : v.space = f.space
  length_le : v.length ≤ f.innerLength
  rank_le : v.rank ≤ f.rank
  wellFormed : v.WellFormed

def VectorFamily.WellFormed (f : VectorFamily α) : Prop := ∀ v ∈ f.vectors, f.Fits v

end

namespace RankedSeq

variable [Entry α] {s t : RankedSeq α}

theorem wellFormed_zeros (n : Nat) : (zeros n : RankedSeq α).WellFormed := fun _ hx =>
  .inl (List.eq_of_mem_replicate hx)

theorem wellFormed_ofList (items : List α) : (ofList items).WellFormed := fun _ hx =>
  .inr (Rank.le_joinAll (List.mem_map_of_mem hx))

theorem WellFormed.set (h : s.WellFormed) (i : Nat) (x : α) : (s.set i x).state.WellFormed := by
  unfold RankedSeq.set
  split
  · intro y hy
    rcases List.mem_or_eq_of_mem_set hy with hy | rfl
    · exact (h y hy).imp_right (Rank.le_join_of_le · (Entry.rank x))
    · exact .inr (s.rank.le_join_right (Entry.rank y))
  · exact h

theorem WellFormed.append (h : s.WellFormed) (x : α) : (s.append x).WellFormed := by
  intro y hy
  rcases List.mem_append.1 hy with hy | hy
  · exact (h y hy).imp_right (Rank.le_join_of_le · (Entry.rank x))
  · cases List.mem_singleton.1 hy
    exact .inr (s.rank.le_join_right (Entry.rank x))

theorem wellFormed_of_subset {first last : Nat} (h : s.subset first last = .ok t) :
    t.WellFormed := by
  unfold subset at h
  split at h
  · cases h
  · split at h
    · cases h
    · cases h
      exact wellFormed_ofList _

end RankedSeq

namespace OrientedVector

variable [Entry α] {v w : OrientedVector α}

theorem wellFormed_zeros (space : Space) (n : Nat) :
    (zeros space n : OrientedVector α).WellFormed :=
  ⟨RankedSeq.wellFormed_zeros n, Rank.le_refl _⟩

theorem wellFormed_ofSeq (space : Space) {s : RankedSeq α} (h : s.WellFormed) :
    (ofSeq space s).WellFormed := ⟨h, Rank.le_refl _⟩

theorem wellFormed_ofList (space : Space) (items : List α) : (ofList space items).WellFormed :=
  wellFormed_ofSeq space (RankedSeq.wellFormed_ofList items)

theorem WellFormed.set (h : v.WellFormed) (i : Nat) (x : α) : (v.set i x).state.WellFormed := by
  refine ⟨by rw [elements_set]; exact h.elements.set i x, ?_⟩
  rw [elements_set, rank_set, RankedSeq.rank_set]
  unfold length
  split
  · exact Rank.join_le_join h.rank_le (Entry.rank x)
  · exact h.rank_le

theorem WellFormed.append (h : v.WellFormed) (x : α) : (v.append x).WellFormed :=
  ⟨h.elements.append x, Rank.join_le_join h.rank_le (Entry.rank x)⟩

theorem WellFormed.transposed (h : v.WellFormed) : v.transposed.WellFormed :=
  ⟨h.elements, h.rank_le⟩

theorem WellFormed.inSpace (h : v.WellFormed) (space : Space) : (v.inSpace space).WellFormed := by
  unfold OrientedVector.inSpace
  split
  · exact h
  · exact h.transposed

/-- Conjugation rebuilds the sequence only where the vector is complex, so that the rank of the
vector stays high enough. -/
theorem WellFormed.conjugated (h : v.WellFormed) : v.conjugated.WellFormed := by
  unfold OrientedVector.conjugated
  split
  · exact h
  · next hrank => exact ⟨RankedSeq.wellFormed_ofList _, fun _ => hrank⟩

theorem WellFormed.conjTransposed (h : v.WellFormed) : v.conjTransposed.WellFormed :=
  h.conjugated.transposed

theorem wellFormed_of_zipItems {operation : Operation} {f : α → α → α} {u : OrientedVector α}
    (h : zipItems operation f v w = .ok u) : u.WellFormed := by
  unfold zipItems at h
  split at h
  · cases h
    exact wellFormed_ofList _ _
  · cases h

theorem wellFormed_mapItems (f : α → α) (v : OrientedVector α) : (v.mapItems f).WellFormed :=
  wellFormed_ofList _ _

end OrientedVector

namespace VectorFamily

variable [Entry α] {f g : VectorFamily α} {v : OrientedVector α}

theorem Fits.mono (h : f.Fits v) (space : f.space = g.space) (length : f.innerLength ≤ g.innerLength)
    (rank : f.rank ≤ g.rank) : g.Fits v :=
  ⟨h.space_eq.trans space, Nat.le_trans h.length_le length, Rank.le_trans h.rank_le rank, h.wellFormed⟩

theorem fits_inSpace (h : v.WellFormed) (length : v.length ≤ f.innerLength) (rank : v.rank ≤ f.rank) :
    f.Fits (v.inSpace f.space) :=
  ⟨by simp, by simpa using length, by simpa using rank, h.inSpace f.space⟩

theorem wellFormed_zeros (space : Space) (count length : Nat) :
    (zeros space count length : VectorFamily α).WellFormed := by
  intro v hv
  rw [vectors_zeros] at hv
  rw [List.eq_of_mem_replicate hv]
  exact ⟨rfl, by simp [zeros], Rank.le_refl _, OrientedVector.wellFormed_zeros space length⟩

theorem wellFormed_ofVectors (space : Space) {vs : List (OrientedVector α)}
    (h : ∀ v ∈ vs, v.WellFormed) : (ofVectors space vs).WellFormed := by
  intro w hw
  obtain ⟨v, hv, rfl⟩ := List.mem_map.1 hw
  exact fits_inSpace (f := ofVectors space vs) (h v hv) (length_le_maxLength hv)
    (Rank.le_joinAll (List.mem_map_of_mem hv))

theorem WellFormed.widened (h : f.WellFormed) (n : Nat) : (f.widened n).WellFormed := fun v hv =>
  (h v hv).mono rfl (Nat.le_max_left _ _) (Rank.le_refl _)

theorem WellFormed.set (h : f.WellFormed) (i : Nat) (hv : v.WellFormed) :
    (f.set i v).state.WellFormed := by
  unfold VectorFamily.set
  split
  · intro w hw
    rcases List.mem_or_eq_of_mem_set hw with hw | rfl
    · exact (h w hw).mono rfl (Nat.le_max_left _ _) (f.rank.le_join_left _)
    · exact fits_inSpace hv (Nat.le_max_right _ _) (f.rank.le_join_right _)
  · exact h

theorem WellFormed.setEntry (h : f.WellFormed) (i j : Nat) (x : α) :
    (f.setEntry i j x).state.WellFormed := by
  cases hv : f.get? i with
  | none =>
    rw [VectorFamily.setEntry, hv]
    exact h
  | some v =>
    have hfits := h v (List.mem_of_getElem? hv)
    rw [state_setEntry hv]
    intro w hw
    rcases List.mem_or_eq_of_mem_set hw with hw | rfl
    · refine (h w hw).mono rfl (Nat.le_refl _) ?_
      dsimp only
      split
      · exact f.rank.le_join_left (Entry.rank x)
      · exact f.rank.le_refl
    · refine ⟨by simpa using hfits.space_eq, by simpa using hfits.length_le, ?_,
        hfits.wellFormed.set j x⟩
      rw [OrientedVector.rank_set]
      dsimp only
      split
      · exact Rank.join_le_join hfits.rank_le (Entry.rank x)
      · exact hfits.rank_le

theorem WellFormed.append (h : f.WellFormed) (hv : v.WellFormed) : (f.append v).WellFormed := by
  intro w hw
  rcases List.mem_append.1 hw with hw | hw
  · exact (h w hw).mono rfl (Nat.le_max_left _ _) (f.rank.le_join_left _)
  · cases List.mem_singleton.1 hw
    exact fits_inSpace (f := f.append v) hv (Nat.le_max_right _ _) (f.rank.le_join_right _)

theorem WellFormed.swap (h : f.WellFormed) (i j : Nat) : (f.swap i j).state.WellFormed := by
  intro u hu
  have hlength := Nat.le_of_eq (f.innerLength_swap i j).symm
  have hrank : f.rank ≤ (f.swap i j).state.rank := by
    rw [f.rank_swap i j]
    exact f.rank.le_refl
  exact (h u (mem_of_mem_swap hu)).mono (f.space_swap i j).symm hlength hrank

theorem WellFormed.subset (h : f.WellFormed) {first last : Nat}
    (hg : f.subset first last = .ok g) : g.WellFormed := by
  unfold VectorFamily.subset at hg
  split at hg
  · cases hg
  · split at hg
    · cases hg
    · cases hg
      refine wellFormed_ofVectors f.space fun v hv => ?_
      exact (h v (List.mem_of_mem_take (List.mem_of_mem_drop hv))).wellFormed

end VectorFamily

end MatrixCalculator
