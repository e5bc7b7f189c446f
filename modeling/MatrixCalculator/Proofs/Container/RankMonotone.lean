import Mathlib.Logic.Relation
import MatrixCalculator.Proofs.Binary64.Negation
import MatrixCalculator.Proofs.Container.RankAttained
set_option autoImplicit false

/-!
Which operations in place can lower a remembered rank. Storing and turning a vector never do, made
or refused, however often. Conjugating a vector and turning or conjugating a matrix build their
sequences anew: the rank of a sequence or a matrix falls there exactly when no entry attains it any
longer. The rank of a vector itself stays through all of them.
-/

namespace MatrixCalculator

variable {β : Type} [ElementaryFunctions β]

/-- An operation in place that stores into the first container, or turns a vector, leaves the
second. -/
inductive Stores : Container β → Container β → Prop
  | sequenceSet (s : RankedSeq (Scalar β)) (i : Nat) (x : Scalar β) :
    Stores (.sequence s) (.sequence (s.set i x).state)
  | sequenceAppend (s : RankedSeq (Scalar β)) (x : Scalar β) :
    Stores (.sequence s) (.sequence (s.append x))
  | vectorSet (v : OrientedVector (Scalar β)) (i : Nat) (x : Scalar β) :
    Stores (.vector v) (.vector (v.set i x).state)
  | vectorAppend (v : OrientedVector (Scalar β)) (x : Scalar β) :
    Stores (.vector v) (.vector (v.append x))
  | vectorTransposed (v : OrientedVector (Scalar β)) : Stores (.vector v) (.vector v.transposed)
  | familySet (f : VectorFamily (Scalar β)) (i : Nat) (v : OrientedVector (Scalar β)) :
    Stores (.family f) (.family (f.set i v).state)
  | familySetEntry (f : VectorFamily (Scalar β)) (i j : Nat) (x : Scalar β) :
    Stores (.family f) (.family (f.setEntry i j x).state)
  | familyAppend (f : VectorFamily (Scalar β)) (v : OrientedVector (Scalar β)) :
    Stores (.family f) (.family (f.append v))
  | familySwap (f : VectorFamily (Scalar β)) (i j : Nat) :
    Stores (.family f) (.family (f.swap i j).state)
  | matrixSet (m : DenseMatrix (Scalar β)) (i j : Nat) (x : Scalar β) :
    Stores (.matrix m) (.matrix (m.set i j x).state)
  | matrixSetRow (m : DenseMatrix (Scalar β)) (i : Nat) (v : OrientedVector (Scalar β)) :
    Stores (.matrix m) (.matrix (m.setRow i v).state)
  | matrixSwapRows (m : DenseMatrix (Scalar β)) (i j : Nat) :
    Stores (.matrix m) (.matrix (m.swapRows i j).state)

/-- An operation in place that builds sequences anew leaves the second container for the first. -/
inductive Rebuilds : Container β → Container β → Prop
  | vectorConjugated (v : OrientedVector (Scalar β)) : Rebuilds (.vector v) (.vector v.conjugated)
  | vectorConjTransposed (v : OrientedVector (Scalar β)) :
    Rebuilds (.vector v) (.vector v.conjTransposed)
  | matrixTransposed (m : DenseMatrix (Scalar β)) : Rebuilds (.matrix m) (.matrix m.transposed)
  | matrixConjugated (m : DenseMatrix (Scalar β)) : Rebuilds (.matrix m) (.matrix m.conjugated)
  | matrixConjTransposed (m : DenseMatrix (Scalar β)) : Rebuilds (.matrix m) (.matrix m.conjTransposed)

namespace Container

def RanksLe : Container β → Container β → Prop
  | .sequence s, .sequence t => s.rank ≤ t.rank
  | .vector v, .vector w => v.rank ≤ w.rank ∧ v.elements.rank ≤ w.elements.rank
  | .family f, .family g => f.rank ≤ g.rank
  | .matrix m, .matrix n => m.rank ≤ n.rank
  | _, _ => False

def RankAttained : Container β → Prop
  | .sequence s => s.rank.AttainedBy s.items
  | .vector v => v.elements.rank.AttainedBy v.items
  | .family f => f.rank.AttainedBy (f.vectors.flatMap OrientedVector.items)
  | .matrix m => m.rank.AttainedBy m.lists.flatten

omit [ElementaryFunctions β] in
theorem ranksLe_refl (c : Container β) : c.RanksLe c := by
  cases c with
  | sequence s => exact s.rank.le_refl
  | vector v => exact ⟨v.rank.le_refl, v.elements.rank.le_refl⟩
  | family f => exact f.rank.le_refl
  | matrix m => exact m.rank.le_refl

omit [ElementaryFunctions β] in
theorem RanksLe.trans {c d e : Container β} (hcd : c.RanksLe d) (hde : d.RanksLe e) :
    c.RanksLe e := by
  cases c <;> cases d <;> cases e <;> simp only [RanksLe] at hcd hde ⊢
  case vector.vector.vector => exact ⟨Rank.le_trans hcd.1 hde.1, Rank.le_trans hcd.2 hde.2⟩
  all_goals exact Rank.le_trans hcd hde

end Container

theorem VectorFamily.rank_le_rank_setEntry {α : Type} [Entry α] (f : VectorFamily α) (i j : Nat)
    (x : α) : f.rank ≤ (f.setEntry i j x).state.rank := by
  cases hv : f.get? i with
  | none =>
    rw [setEntry, hv]
    exact f.rank.le_refl
  | some v =>
    rw [state_setEntry hv]
    dsimp only
    split
    · exact f.rank.le_join_left _
    · exact f.rank.le_refl

theorem VectorFamily.rank_le_rank_set {α : Type} (f : VectorFamily α) (i : Nat)
    (v : OrientedVector α) : f.rank ≤ (f.set i v).state.rank := by
  unfold set
  split
  · exact f.rank.le_join_left _
  · exact f.rank.le_refl

theorem OrientedVector.rank_le_rank_set {α : Type} [Entry α] (v : OrientedVector α) (i : Nat) (x : α) :
    v.rank ≤ (v.set i x).state.rank := by
  rw [rank_set]
  split
  · exact v.rank.le_join_left _
  · exact v.rank.le_refl

theorem Stores.ranksLe {c d : Container β} (h : Stores c d) : c.RanksLe d := by
  cases h with
  | sequenceSet s i x => exact s.rank_le_rank_set i x
  | sequenceAppend s x => exact s.rank_le_rank_append x
  | vectorSet v i x =>
    refine ⟨v.rank_le_rank_set i x, ?_⟩
    rw [OrientedVector.elements_set]
    exact v.elements.rank_le_rank_set i x
  | vectorAppend v x => exact ⟨v.rank.le_join_left _, v.elements.rank_le_rank_append x⟩
  | vectorTransposed v => exact Container.ranksLe_refl (.vector v)
  | familySet f i v => exact f.rank_le_rank_set i v
  | familySetEntry f i j x => exact f.rank_le_rank_setEntry i j x
  | familyAppend f v => exact f.rank.le_join_left _
  | familySwap f i j =>
    change f.rank ≤ _
    rw [f.rank_swap i j]
    exact f.rank.le_refl
  | matrixSet m i j x => exact m.family.rank_le_rank_setEntry i j x
  | matrixSetRow m i v =>
    unfold DenseMatrix.setRow
    split
    · exact m.family.rank_le_rank_set i v
    · exact m.rank.le_refl
  | matrixSwapRows m i j =>
    change m.family.rank ≤ _
    rw [DenseMatrix.swapRows, Update.map, DenseMatrix.rank, m.family.rank_swap i j]
    exact m.family.rank.le_refl

theorem Stores.run_ranksLe {c d : Container β} (h : Relation.ReflTransGen Stores c d) : c.RanksLe d := by
  induction h with
  | refl => exact c.ranksLe_refl
  | tail _ hstep ih => exact ih.trans hstep.ranksLe

namespace OrientedVector

@[simp] theorem rank_conjugated {α : Type} [Entry α] (v : OrientedVector α) :
    v.conjugated.rank = v.rank := by
  unfold conjugated
  split <;> simp [*]

theorem WellFormed.rank_elements_conjugated [LawfulNegation β] {v : OrientedVector (Scalar β)}
    (h : v.WellFormed) : v.conjugated.elements.rank = (RankedSeq.ofList v.items).rank := by
  rw [h.conjugated_eq]
  exact RankedSeq.rank_ofList_map_conj v.items

end OrientedVector

theorem Rebuilds.ranksLe_iff [LawfulNegation β] {c d : Container β} (h : Rebuilds c d)
    (hc : c.WellFormed) : c.RanksLe d ↔ c.RankAttained := by
  have hvector {v : OrientedVector (Scalar β)} (hv : v.WellFormed) :
      v.rank ≤ v.conjugated.rank ∧ v.elements.rank ≤ v.conjugated.elements.rank ↔
        v.elements.rank.AttainedBy v.items := by
    rw [v.rank_conjugated, hv.rank_elements_conjugated, RankedSeq.le_rank_ofList_iff]
    exact and_iff_right v.rank.le_refl
  cases h with
  | vectorConjugated v => exact hvector hc
  | vectorConjTransposed v => exact hvector hc
  | matrixTransposed m =>
    have hm : m.WellFormed := hc
    rw [Container.RanksLe, hm.rank_transposed, RankedSeq.le_rank_ofList_iff]
    exact Iff.rfl
  | matrixConjugated m =>
    have hm : m.WellFormed := hc
    rw [Container.RanksLe, hm.rank_conjugated, RankedSeq.le_rank_ofList_iff]
    exact Iff.rfl
  | matrixConjTransposed m =>
    have hm : m.WellFormed := hc
    rw [Container.RanksLe, hm.rank_conjTransposed, RankedSeq.le_rank_ofList_iff]
    exact Iff.rfl

/-- Storing never lowers a rank, however often. What is rebuilt keeps its ranks exactly when an entry
attains them, and of a vector it is only the rank of the sequence that can fall. -/
theorem reachable_ranksLe [LawfulNegation β] :
    (∀ c d : Container β, Relation.ReflTransGen Stores c d → c.RanksLe d) ∧
    (∀ c d : Container β, Reachable c → Rebuilds c d → (c.RanksLe d ↔ c.RankAttained)) ∧
    ∀ v w : OrientedVector (Scalar β), Stores (.vector v) (.vector w) ∨ Rebuilds (.vector v) (.vector w) →
      v.rank ≤ w.rank := by
  refine ⟨fun c d => Stores.run_ranksLe, fun c d hc h => h.ranksLe_iff hc.wellFormed, ?_⟩
  rintro v w (h | h)
  · exact h.ranksLe.1
  · cases h with
    | vectorConjugated => exact fun hv => v.rank_conjugated.trans hv
    | vectorConjTransposed => exact fun hv => v.rank_conjugated.trans hv

theorem reachable_ranksLe_attained :
    Reachable (.matrix ((.zeros 1 2 : DenseMatrix (Scalar Float)).set 0 1 .i).state) ∧
    Container.RanksLe (.matrix ((.zeros 1 2 : DenseMatrix (Scalar Float)).set 0 1 .i).state)
      (.matrix ((.zeros 1 2 : DenseMatrix (Scalar Float)).set 0 1 .i).state.transposed) := by
  have hzeros : Reachable (.matrix (.zeros 1 2 : DenseMatrix (Scalar Float))) :=
    .make (.matrixZeros 1 2) (by simp)
  have hset := Reachable.make (.matrixSet (.zeros 1 2 : DenseMatrix (Scalar Float)) 0 1 .i)
    (by simpa using hzeros)
  have hkept := (@reachable_ranksLe Float _ _).2.1 _ _ hset (.matrixTransposed _)
  exact ⟨hset, hkept.2 fun _ => ⟨.i, by decide +kernel, rfl⟩⟩

/-- Once the only complex entry has been overwritten, conjugating the vector lowers the rank of its
sequence, and turning the matrix lowers the rank of the matrix. -/
theorem ranks_fall_once_overwritten :
    (∃ v : OrientedVector (Scalar Float), Reachable (.vector v) ∧
      ¬ Container.RanksLe (.vector v) (.vector v.conjugated)) ∧
    ∃ m : DenseMatrix (Scalar Float), Reachable (.matrix m) ∧
      ¬ Container.RanksLe (.matrix m) (.matrix m.transposed) := by
  have hbuilt : Reachable (.vector (OrientedVector.ofList .row [(.i : Scalar Float)])) :=
    .make (.vectorOfList .row [.i]) (by simp)
  have hvector := Reachable.make (.vectorSet (OrientedVector.ofList .row [(.i : Scalar Float)]) 0 1)
    (by simpa using hbuilt)
  have hzeros : Reachable (.matrix (.zeros 1 1 : DenseMatrix (Scalar Float))) :=
    .make (.matrixZeros 1 1) (by simp)
  have hcomplex := Reachable.make (.matrixSet (.zeros 1 1 : DenseMatrix (Scalar Float)) 0 0 .i)
    (by simpa using hzeros)
  have hmatrix := Reachable.make
    (.matrixSet ((.zeros 1 1 : DenseMatrix (Scalar Float)).set 0 0 .i).state 0 0 1)
    (by simpa using hcomplex)
  refine ⟨⟨_, hvector, fun h => ?_⟩, ⟨_, hmatrix, fun h => ?_⟩⟩
  · exact absurd (h.2 (by decide +kernel)) (by decide +kernel)
  · exact absurd (h (by decide +kernel)) (by decide +kernel)

end MatrixCalculator
