import MatrixCalculator.Proofs.Binary64.Negation
import MatrixCalculator.Proofs.Container.Evaluation
import MatrixCalculator.Proofs.Container.RankAttained
set_option autoImplicit false

/-!
Conjugating twice. Every entry comes back, in its place, and so do shapes and spaces; but comparing
containers compares their remembered ranks too, and conjugation counts those again. An operand is
restored exactly when the ranks that are counted again were attained before. Comparing is only asked
of numbers: what is not a number differs even from itself.
-/

namespace MatrixCalculator

theorem isEqv_map_left_iff {σ : Type} {f : σ → σ} {p : σ → σ → Bool} {xs : List σ} :
    (xs.map f).isEqv xs p = true ↔ ∀ x ∈ xs, p (f x) x = true := by
  induction xs with
  | nil => simp
  | cons x xs ih => simp [List.isEqv, ih]

variable {β : Type} [ElementaryFunctions β]

/-- The scalar compares equal to itself; one with a component that is not a number does not. -/
def Scalar.IsNumber (x : Scalar β) : Prop := x.same x = true

instance (x : Scalar β) : Decidable x.IsNumber := inferInstanceAs (Decidable (x.same x = true))

theorem RankedSeq.sameItems_self {xs : List (Scalar β)} (h : ∀ x ∈ xs, x.IsNumber) :
    sameItems xs xs = true := by
  have hmap := (isEqv_map_left_iff (f := id) (p := Entry.same)).2 h
  rwa [List.map_id] at hmap

namespace OrientedVector

variable {v : OrientedVector (Scalar β)}

theorem same_self (h : ∀ x ∈ v.items, x.IsNumber) : v.same v = true := by
  simp only [same, RankedSeq.same, beq_self_eq_true, Bool.and_true, Bool.true_and]
  exact RankedSeq.sameItems_self h

variable [LawfulNegation β]

theorem WellFormed.conjugated_conjugated (h : v.WellFormed) :
    v.conjugated.conjugated = { v with elements := .ofList v.items } := by
  have htracks := h.tracksRank LawfulNegation.isZero_zero
  rw [h.conjugated.conjugated_eq, htracks.items_conjugated, Scalar.map_conj_map_conj, h.conjugated_eq]

theorem WellFormed.conjugated_conjugated_same_iff (h : v.WellFormed) (hnum : ∀ x ∈ v.items, x.IsNumber) :
    v.conjugated.conjugated.same v = true ↔ v.elements.rank.AttainedBy v.items := by
  have htracks := h.tracksRank LawfulNegation.isZero_zero
  have hrank : (RankedSeq.ofList v.items).rank = v.elements.rank ↔ v.elements.rank.AttainedBy v.items :=
    RankedSeq.rank_ofList_eq_iff htracks.elements
  rw [h.conjugated_conjugated, ← hrank]
  simp only [same, RankedSeq.same, beq_self_eq_true, Bool.true_and, Bool.and_true, Bool.and_eq_true,
    beq_iff_eq]
  exact and_iff_right (RankedSeq.sameItems_self hnum)

end OrientedVector

namespace DenseMatrix

theorem ranksAttained_ofLists {cols : Nat} {rows : List (List (Scalar β))} :
    (ofLists cols rows).RanksAttained := by
  constructor
  · rw [vectors_ofLists]
    exact List.forall_mem_map.2 fun row _ => RankedSeq.rank_ofList_eq_complex_iff.1
  · rw [rank_ofLists, lists_ofLists]
    exact RankedSeq.rank_ofList_eq_complex_iff.1

variable [LawfulNegation β] {m : DenseMatrix (Scalar β)}

theorem WellFormed.conjugated_conjugated (h : m.WellFormed) :
    m.conjugated.conjugated = ofLists m.colCount m.lists := by
  have htracks := h.family.tracksRank LawfulNegation.isZero_zero
  have hlists : m.conjugated.lists.map (·.map Scalar.conj) = m.lists := by
    rw [lists_conjugated htracks, List.map_map]
    exact (List.map_congr_left fun row _ => Scalar.map_conj_map_conj row).trans (List.map_id' _)
  rw [h.conjugated.conjugated_eq, hlists, h.hasShape.conjugated.colCount_eq]
  rfl

theorem WellFormed.ofList_same_iff (h : m.WellFormed) {v : OrientedVector (Scalar β)}
    (hv : v ∈ m.family.vectors) (hnum : ∀ x ∈ v.items, x.IsNumber) :
    (OrientedVector.ofList .row v.items).same v = true ↔ v.rank.AttainedBy v.items := by
  have htracks := (h.family v hv).wellFormed.tracksRank LawfulNegation.isZero_zero
  constructor
  · intro hsame
    rw [OrientedVector.same, Bool.and_eq_true, beq_iff_eq] at hsame
    exact (RankedSeq.rank_ofList_eq_iff htracks.rank_eq).1 hsame.2
  · intro hattained
    -- The rank of the elements is no higher, so that it is attained as well.
    rw [h.ofList_items hv hattained]
    exact OrientedVector.same_self hnum

theorem WellFormed.conjugated_conjugated_same_iff (h : m.WellFormed)
    (hnum : ∀ row ∈ m.lists, ∀ x ∈ row, x.IsNumber) :
    m.conjugated.conjugated.same m = true ↔ m.RanksAttained := by
  have hvectors : (ofLists m.colCount m.lists).family.vectors.isEqv m.family.vectors OrientedVector.same = true ↔
      ∀ v ∈ m.family.vectors, v.rank.AttainedBy v.items := by
    rw [vectors_ofLists, lists, List.map_map, isEqv_map_left_iff]
    refine forall₂_congr fun v hv => h.ofList_same_iff hv ?_
    exact hnum v.items (List.mem_map_of_mem hv)
  have hcols : (ofLists m.colCount m.lists).family.innerLength = m.family.innerLength :=
    colCount_ofLists (regular_iff_lists.1 h.regular)
  have hspace : (ofLists m.colCount m.lists).family.space = m.family.space := h.space_eq.symm
  have hrank : (ofLists m.colCount m.lists).family.rank = m.family.rank ↔
      m.rank.AttainedBy m.lists.flatten := by
    have hcounted : (ofLists m.colCount m.lists).family.rank = (RankedSeq.ofList m.lists.flatten).rank :=
      rank_ofLists
    rw [hcounted]
    exact RankedSeq.rank_ofList_eq_iff fun x => h.rank_tracked
  rw [h.conjugated_conjugated]
  -- Width and space are compared too, but only the ranks can differ.
  simp only [same, VectorFamily.same, hcols, hspace, beq_self_eq_true, Bool.and_true,
    Bool.and_eq_true, beq_iff_eq, hvectors, hrank]
  exact ⟨fun h => ⟨h.1, h.2⟩, fun h => ⟨h.rows, h.rank⟩⟩

end DenseMatrix

namespace Operand

def conjugated : Operand β → Operand β
  | .scalar a => .scalar a.conj
  | .vector v => .vector v.conjugated
  | .matrix m => .matrix m.conjugated

theorem apply_conj (x : Operand β) : UnaryOp.conj.apply x = .ok x.conjugated := by
  cases x <;> rfl

def AreNumbers : Operand β → Prop
  | .scalar a => a.IsNumber
  | .vector v => ∀ x ∈ v.items, x.IsNumber
  | .matrix m => ∀ row ∈ m.lists, ∀ x ∈ row, x.IsNumber

instance : (x : Operand β) → Decidable x.AreNumbers
  | .scalar a => inferInstanceAs (Decidable a.IsNumber)
  | .vector v => inferInstanceAs (Decidable (∀ x ∈ v.items, x.IsNumber))
  | .matrix m => inferInstanceAs (Decidable (∀ row ∈ m.lists, ∀ x ∈ row, x.IsNumber))

/-- The ranks that conjugation may count again are those of entries held now. -/
def RanksAttained : Operand β → Prop
  | .scalar _ => True
  | .vector v => v.elements.rank.AttainedBy v.items
  | .matrix m => m.RanksAttained

variable [LawfulNegation β]

theorem ranksAttained_conjugated {x : Operand β} (hx : x.IsReachable) :
    x.conjugated.RanksAttained := by
  cases x with
  | scalar a => trivial
  | vector v =>
    have hv : v.WellFormed := hx.wellFormed
    rw [conjugated, hv.conjugated_eq]
    exact RankedSeq.rank_ofList_eq_complex_iff.1
  | matrix m =>
    have hm : m.WellFormed := hx.wellFormed
    rw [conjugated, hm.conjugated_eq]
    exact DenseMatrix.ranksAttained_ofLists

theorem conjugated_conjugated_same_iff {x : Operand β} (hx : x.IsReachable) (hnum : x.AreNumbers) :
    x.conjugated.conjugated.same x = true ↔ x.RanksAttained := by
  cases x with
  | scalar a =>
    refine iff_of_true ?_ trivial
    change a.conj.conj.same a = true
    rwa [a.conj_conj]
  | vector v =>
    have hv : v.WellFormed := hx.wellFormed
    exact hv.conjugated_conjugated_same_iff hnum
  | matrix m =>
    have hm : m.WellFormed := hx.wellFormed
    exact hm.conjugated_conjugated_same_iff hnum

end Operand

/-- The conjugation operator refuses nothing, and applied twice it restores an operand of numbers
exactly when the operand attains its ranks. It always does once it has been conjugated. -/
theorem conj_conj_restores_iff [LawfulNegation β] (x : Operand β) (hx : x.IsReachable)
    (hnum : x.AreNumbers) :
    UnaryOp.conj.apply x >>= UnaryOp.conj.apply = .ok x.conjugated.conjugated ∧
    (x.conjugated.conjugated.same x = true ↔ x.RanksAttained) ∧ x.conjugated.RanksAttained := by
  refine ⟨?_, Operand.conjugated_conjugated_same_iff hx hnum, Operand.ranksAttained_conjugated hx⟩
  rw [x.apply_conj]
  exact x.conjugated.apply_conj

theorem conj_conj_restores_built :
    (Operand.vector (.ofList .column [(1 : Scalar Float), .i])).IsReachable ∧
    (Operand.vector (.ofList .column [(1 : Scalar Float), .i])).AreNumbers ∧
    (Operand.vector (.ofList .column [(1 : Scalar Float), .i])).conjugated.conjugated.same
      (.vector (.ofList .column [1, .i])) = true := by
  have hbuilt : (Operand.vector (.ofList .column [(1 : Scalar Float), .i])).IsReachable :=
    .make (.vectorOfList .column [1, .i]) (by simp)
  have hnum : (Operand.vector (.ofList .column [(1 : Scalar Float), .i])).AreNumbers := by
    decide +kernel
  have hrestored := (@conj_conj_restores_iff Float _ _ _ hbuilt hnum).2.1
  exact ⟨hbuilt, hnum, hrestored.2 RankedSeq.rank_ofList_eq_complex_iff.1⟩

theorem not_restored_once_overwritten :
    ∃ x : Operand Float, x.IsReachable ∧ x.AreNumbers ∧ x.conjugated.conjugated.same x = false := by
  have hbuilt : Reachable (.vector (OrientedVector.ofList .row [(.i : Scalar Float)])) :=
    .make (.vectorOfList .row [.i]) (by simp)
  have hset := Reachable.make (.vectorSet (OrientedVector.ofList .row [(.i : Scalar Float)]) 0 1)
    (by simpa using hbuilt)
  exact ⟨.vector _, hset, by decide +kernel, by decide +kernel⟩

end MatrixCalculator
