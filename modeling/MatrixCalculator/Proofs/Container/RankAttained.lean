import MatrixCalculator.Proofs.Container.RankTracking
import MatrixCalculator.Proofs.Scalar.Conjugation
set_option autoImplicit false

/-!
Remembered ranks and the entries held. A rank is attained when it is that of an entry held now; it
is no longer attained once the last complex entry has been overwritten. Whatever rebuilds its
sequences counts their ranks again, and so remembers just what is attained. Conjugation always comes
to that: where it returns at once, counting again would have changed nothing.
-/

namespace MatrixCalculator

theorem Rank.eq_of_complex_iff {r s : Rank} (h : r = .complex ↔ s = .complex) : r = s := by
  cases r <;> cases s <;> simp_all

variable {β : Type} [ElementaryFunctions β]

theorem Scalar.rank_eq_complex {x : Scalar β} : x.rank = .complex ↔ x.OffAxis := by
  unfold rank OffAxis
  split <;> simp_all

/-- A complex rank is that of one of the entries. -/
def Rank.AttainedBy (r : Rank) (xs : List (Scalar β)) : Prop := r = .complex → ∃ x ∈ xs, x.OffAxis

namespace RankedSeq

variable {r : Rank} {xs : List (Scalar β)}

theorem rank_ofList_eq_complex_iff : (ofList xs).rank = .complex ↔ ∃ x ∈ xs, x.OffAxis := by
  rw [rank_ofList_eq_complex]
  exact exists_congr fun x => and_congr_right fun _ => Scalar.rank_eq_complex

theorem le_rank_ofList_iff : r ≤ (ofList xs).rank ↔ r.AttainedBy xs :=
  imp_congr_right fun _ => rank_ofList_eq_complex_iff

/-- Counting again gives a rank that never fell short if and only if it is attained. -/
theorem rank_ofList_eq_iff (h : ∀ x ∈ xs, x.OffAxis → r = .complex) :
    (ofList xs).rank = r ↔ r.AttainedBy xs := by
  constructor
  · rintro rfl
    exact rank_ofList_eq_complex_iff.1
  · intro hr
    apply Rank.eq_of_complex_iff
    rw [rank_ofList_eq_complex_iff]
    exact ⟨fun ⟨x, hx, hoff⟩ => h x hx hoff, hr⟩

theorem TracksRank.ofList_items {s : RankedSeq (Scalar β)} (h : s.TracksRank)
    (hs : s.rank.AttainedBy s.items) : ofList s.items = s :=
  congrArg (RankedSeq.mk s.items) ((rank_ofList_eq_iff h).2 hs)

theorem rank_ofList_map_conj [LawfulNegation β] (xs : List (Scalar β)) :
    (ofList (xs.map Scalar.conj)).rank = (ofList xs).rank := by
  have hrank : (Entry.rank ∘ Scalar.conj : Scalar β → Rank) = Entry.rank := by
    funext x
    exact x.rank_conj
  rw [ofList, List.map_map, hrank, ofList]

end RankedSeq

namespace OrientedVector

theorem WellFormed.conjugated_eq [LawfulNegation β] {v : OrientedVector (Scalar β)} (h : v.WellFormed) :
    v.conjugated = { v with elements := .ofList (v.items.map Scalar.conj) } := by
  have htracks := h.tracksRank LawfulNegation.isZero_zero
  cases hrank : v.rank with
  | complex =>
    rw [OrientedVector.conjugated, hrank]
    rfl
  | real =>
    have hattained : v.elements.rank.AttainedBy v.items := fun hcomplex => by
      simpa [hrank] using h.rank_le hcomplex
    have helements : RankedSeq.ofList v.items = v.elements := htracks.elements.ofList_items hattained
    have hself : v.conjugated = v := by rw [OrientedVector.conjugated, hrank]
    rw [← htracks.items_conjugated, hself, helements, ← hrank]

end OrientedVector

theorem VectorFamily.eq_of_fields {α : Type} {f g : VectorFamily α} (hvectors : f.vectors = g.vectors)
    (hlength : f.innerLength = g.innerLength) (hspace : f.space = g.space) (hrank : f.rank = g.rank) :
    f = g := by
  cases f
  cases g
  simp_all

namespace DenseMatrix

variable {m : DenseMatrix (Scalar β)}

theorem vectors_ofLists {α : Type} [Entry α] (cols : Nat) (rows : List (List α)) :
    (ofLists cols rows).family.vectors = rows.map (OrientedVector.ofList .row) := by
  simp [ofLists, VectorFamily.widened, VectorFamily.ofVectors, OrientedVector.inSpace,
    OrientedVector.ofList, OrientedVector.ofSeq]

theorem rank_ofLists {cols : Nat} {rows : List (List (Scalar β))} :
    (ofLists cols rows).rank = (RankedSeq.ofList rows.flatten).rank := by
  apply Rank.eq_of_complex_iff
  rw [RankedSeq.rank_ofList_eq_complex]
  simp only [rank, ofLists, VectorFamily.widened, VectorFamily.ofVectors, Rank.joinAll_eq_complex,
    List.map_map, List.mem_map, Function.comp_apply, OrientedVector.ofList, OrientedVector.ofSeq,
    RankedSeq.rank_ofList_eq_complex, List.mem_flatten]
  constructor
  · rintro ⟨row, hrow, x, hx, hcomplex⟩
    exact ⟨x, ⟨row, hrow, hx⟩, hcomplex⟩
  · rintro ⟨x, ⟨row, hrow, hx⟩, hcomplex⟩
    exact ⟨row, hrow, x, hx, hcomplex⟩

structure RanksAttained (m : DenseMatrix (Scalar β)) : Prop where
  rows : ∀ v ∈ m.family.vectors, v.rank.AttainedBy v.items
  rank : m.rank.AttainedBy m.lists.flatten

theorem WellFormed.rank_tracked [LawfulNegation β] (h : m.WellFormed) {x : Scalar β}
    (hx : x ∈ m.lists.flatten) (hoff : x.OffAxis) : m.rank = .complex := by
  obtain ⟨row, hrow, hx⟩ := List.mem_flatten.1 hx
  obtain ⟨v, hv, rfl⟩ := List.mem_map.1 hrow
  exact (h.family.tracksRank LawfulNegation.isZero_zero).rank_eq v hv x hx hoff

theorem WellFormed.ofList_items [LawfulNegation β] (h : m.WellFormed) {v : OrientedVector (Scalar β)}
    (hv : v ∈ m.family.vectors) (hattained : v.rank.AttainedBy v.items) : .ofList .row v.items = v := by
  have hfits := h.family v hv
  have htracks := hfits.wellFormed.tracksRank LawfulNegation.isZero_zero
  have helements : RankedSeq.ofList v.items = v.elements :=
    htracks.elements.ofList_items fun hcomplex => hattained (hfits.wellFormed.rank_le hcomplex)
  have hrank : (RankedSeq.ofList v.items).rank = v.rank := (RankedSeq.rank_ofList_eq_iff htracks.rank_eq).2 hattained
  have hspace : v.space = .row := hfits.space_eq.trans h.space_eq
  rw [OrientedVector.ofList, OrientedVector.ofSeq, hrank, helements, ← hspace]

theorem Regular.ofLists_lists {α : Type} [Entry α] {m : DenseMatrix α} (h : m.Regular)
    (hspace : m.family.space = .row) (hv : ∀ v ∈ m.family.vectors, .ofList .row v.items = v)
    (hrank : (ofLists m.colCount m.lists).rank = m.rank) : ofLists m.colCount m.lists = m := by
  have hvectors : (ofLists m.colCount m.lists).family.vectors = m.family.vectors := by
    rw [vectors_ofLists, lists, List.map_map]
    exact (List.map_congr_left hv).trans (List.map_id' _)
  have hcols : (ofLists m.colCount m.lists).colCount = m.colCount :=
    colCount_ofLists (regular_iff_lists.1 h)
  exact congrArg DenseMatrix.mk (VectorFamily.eq_of_fields hvectors hcols hspace.symm hrank)

theorem WellFormed.ofLists_lists [LawfulNegation β] (h : m.WellFormed) (ha : m.RanksAttained) :
    ofLists m.colCount m.lists = m := by
  refine h.regular.ofLists_lists h.space_eq (fun v hv => h.ofList_items hv (ha.rows v hv)) ?_
  rw [rank_ofLists]
  exact (RankedSeq.rank_ofList_eq_iff fun x => h.rank_tracked).2 ha.rank

theorem WellFormed.conjugated_eq [LawfulNegation β] (h : m.WellFormed) :
    m.conjugated = ofLists m.colCount (m.lists.map (·.map Scalar.conj)) := by
  have htracks := h.family.tracksRank LawfulNegation.isZero_zero
  cases hrank : m.rank with
  | complex =>
    rw [DenseMatrix.conjugated, hrank]
    rfl
  | real =>
    have hattained : m.RanksAttained := by
      refine ⟨fun v hv hcomplex => ?_, fun hcomplex => ?_⟩
      · have hfamily : m.rank = .complex := (h.family v hv).rank_le hcomplex
        simp [hrank] at hfamily
      · simp [hrank] at hcomplex
    have hself : m.conjugated = m := by rw [DenseMatrix.conjugated, hrank]
    rw [← lists_conjugated htracks, hself, h.ofLists_lists hattained]

theorem WellFormed.rank_conjugated [LawfulNegation β] (h : m.WellFormed) :
    m.conjugated.rank = (RankedSeq.ofList m.lists.flatten).rank := by
  rw [h.conjugated_eq, rank_ofLists, ← List.map_flatten, RankedSeq.rank_ofList_map_conj]

theorem HasShape.mem_flatten_transposed {α : Type} [Entry α] {m : DenseMatrix α} {s : Shape}
    (h : m.HasShape s) {x : α} : x ∈ m.transposed.lists.flatten ↔ x ∈ m.lists.flatten := by
  rw [h.transposed_eq, h.lists_eq, ofFn, lists_ofLists]
  simp only [List.mem_flatten, List.mem_map, List.mem_range, exists_exists_and_eq_and]
  constructor
  · rintro ⟨j, hj, i, hi, rfl⟩
    exact ⟨i, hi, j, hj, rfl⟩
  · rintro ⟨i, hi, j, hj, rfl⟩
    exact ⟨j, hj, i, hi, rfl⟩

theorem WellFormed.rank_transposed (h : m.WellFormed) :
    m.transposed.rank = (RankedSeq.ofList m.lists.flatten).rank := by
  have hlists : m.transposed.rank = (RankedSeq.ofList m.transposed.lists.flatten).rank := by
    rw [DenseMatrix.transposed, lists_ofLists]
    exact rank_ofLists
  rw [hlists]
  apply Rank.eq_of_complex_iff
  simp only [RankedSeq.rank_ofList_eq_complex_iff, h.hasShape.mem_flatten_transposed]

theorem WellFormed.rank_conjTransposed [LawfulNegation β] (h : m.WellFormed) :
    m.conjTransposed.rank = (RankedSeq.ofList m.lists.flatten).rank := by
  have htracks := h.family.tracksRank LawfulNegation.isZero_zero
  rw [DenseMatrix.conjTransposed, h.conjugated.rank_transposed, lists_conjugated htracks,
    ← List.map_flatten, RankedSeq.rank_ofList_map_conj]

end DenseMatrix

end MatrixCalculator
