import MatrixCalculator.Binary64
import MatrixCalculator.DenseMatrix
set_option autoImplicit false

/-!
The length that a family remembers is that of the longest vector it was ever given, which need not
be held any longer. A family of rows becomes a matrix only with rows of just that length; one of
columns is measured anew, and only needs columns of one length.
-/

namespace MatrixCalculator

namespace VectorFamily

variable {α : Type}

section MaxLength

variable {vs : List (OrientedVector α)}

theorem maxLength_cons (v : OrientedVector α) (vs : List (OrientedVector α)) :
    maxLength (v :: vs) = max v.length (maxLength vs) := rfl

theorem maxLength_le_iff {n : Nat} : maxLength vs ≤ n ↔ ∀ v ∈ vs, v.length ≤ n :=
  ⟨fun h _ hv => Nat.le_trans (length_le_maxLength hv) h, maxLength_le⟩

theorem exists_length_eq_maxLength (h : vs ≠ []) : ∃ v ∈ vs, v.length = maxLength vs := by
  induction vs with
  | nil => exact absurd rfl h
  | cons v vs ih =>
    rw [maxLength_cons]
    by_cases hle : maxLength vs ≤ v.length
    · exact ⟨v, List.mem_cons_self, (Nat.max_eq_left hle).symm⟩
    · have hvs : vs ≠ [] := by
        rintro rfl
        exact hle (Nat.zero_le _)
      obtain ⟨w, hw, hlength⟩ := ih hvs
      exact ⟨w, List.mem_cons_of_mem v hw, by omega⟩

theorem forall_length_eq_iff (h : vs ≠ []) {n : Nat} :
    (∀ v ∈ vs, v.length = n) ↔ (∀ v ∈ vs, ∀ w ∈ vs, v.length = w.length) ∧ n = maxLength vs := by
  obtain ⟨u, hu, hmax⟩ := exists_length_eq_maxLength h
  constructor
  · intro hn
    exact ⟨fun v hv w hw => (hn v hv).trans (hn w hw).symm, (hn u hu).symm.trans hmax⟩
  · rintro ⟨heq, rfl⟩ v hv
    exact (heq v hv u hu).trans hmax

theorem maxLength_map_inSpace (space : Space) (vs : List (OrientedVector α)) :
    maxLength (vs.map (·.inSpace space)) = maxLength vs := by
  rw [maxLength, List.map_map]
  congr 1
  exact List.map_congr_left fun v _ => v.length_inSpace space

end MaxLength

theorem innerLength_of_subset {f g : VectorFamily α} {first last : Nat}
    (hg : f.subset first last = .ok g) : g.innerLength = maxLength g.vectors := by
  unfold subset at hg
  split at hg
  · cases hg
  · split at hg
    · cases hg
    · cases hg
      exact (maxLength_map_inSpace f.space _).symm

section Rows

variable {f : VectorFamily α}

/-- The rows that a matrix is made of: those of the family as they stand, or its columns turned. -/
def asRows (f : VectorFamily α) : VectorFamily α :=
  if f.space = .row then f else .ofVectors .row f.vectors

theorem items_asRows (f : VectorFamily α) :
    f.asRows.vectors.map OrientedVector.items = f.vectors.map OrientedVector.items := by
  unfold asRows
  split
  · rfl
  · rw [ofVectors, List.map_map]
    exact List.map_congr_left fun v _ => v.items_inSpace .row

theorem forall_length_asRows {P : Nat → Prop} :
    (∀ v ∈ f.asRows.vectors, P v.length) ↔ ∀ v ∈ f.vectors, P v.length := by
  unfold asRows
  split
  · rfl
  · simp [ofVectors]

theorem innerLength_asRows_eq_iff :
    f.asRows.innerLength = maxLength f.vectors ↔ (f.space = .row → f.innerLength = maxLength f.vectors) := by
  unfold asRows
  split
  · next hrow => exact ⟨fun h _ => h, fun h => h hrow⟩
  · next hrow => exact iff_of_true rfl fun h => absurd h hrow

end Rows

variable [Entry α] {f : VectorFamily α} {given : List (OrientedVector α)}

/-- The family can have come about with these vectors given to it. One that is made of zeros starts
with a vector as long as was asked for, also where it holds none; one that is cut out of another
starts anew with the vectors cut out. -/
inductive Given : VectorFamily α → List (OrientedVector α) → Prop
  | zeros (space : Space) (count length : Nat) :
    Given (.zeros space count length) [.zeros space length]
  | ofVectors (space : Space) (vs : List (OrientedVector α)) : Given (.ofVectors space vs) vs
  | subset {f g : VectorFamily α} {given : List (OrientedVector α)} {first last : Nat}
    (h : Given f given) (hg : f.subset first last = .ok g) : Given g g.vectors
  | set {f : VectorFamily α} {given : List (OrientedVector α)} (h : Given f given) (i : Nat)
    (v : OrientedVector α) : Given (f.set i v).state (if i < f.count then v :: given else given)
  | setEntry {f : VectorFamily α} {given : List (OrientedVector α)} (h : Given f given) (i j : Nat)
    (x : α) : Given (f.setEntry i j x).state given
  | append {f : VectorFamily α} {given : List (OrientedVector α)} (h : Given f given)
    (v : OrientedVector α) : Given (f.append v) (v :: given)
  | swap {f : VectorFamily α} {given : List (OrientedVector α)} (h : Given f given) (i j : Nat) :
    Given (f.swap i j).state given

theorem Given.innerLength_eq (h : Given f given) : f.innerLength = maxLength given := by
  induction h with
  | zeros space count length => simp [VectorFamily.zeros, maxLength]
  | ofVectors space vs => rfl
  | subset _ hg => exact innerLength_of_subset hg
  | set _ i v ih =>
    rw [innerLength_set, ih]
    split
    · exact Nat.max_comm _ _
    · rfl
  | setEntry _ i j x ih => rw [innerLength_setEntry, ih]
  | append _ v ih =>
    rw [maxLength_cons, Nat.max_comm, ← ih]
    rfl
  | swap _ i j ih => rw [innerLength_swap, ih]

theorem exists_length_eq_of_mem_setEntry {i j : Nat} {x : α} {v : OrientedVector α}
    (hv : v ∈ (f.setEntry i j x).state.vectors) : ∃ u ∈ f.vectors, u.length = v.length := by
  cases hu : f.get? i with
  | none =>
    rw [setEntry, hu] at hv
    exact ⟨v, hv, rfl⟩
  | some u =>
    rw [state_setEntry hu] at hv
    rcases List.mem_or_eq_of_mem_set hv with hv | rfl
    · exact ⟨v, hv, rfl⟩
    · exact ⟨u, List.mem_of_getElem? hu, (u.length_set j x).symm⟩

theorem Given.exists_length_eq (h : Given f given) {v : OrientedVector α} (hv : v ∈ f.vectors) :
    ∃ w ∈ given, w.length = v.length := by
  induction h generalizing v with
  | zeros space count length =>
    rw [vectors_zeros] at hv
    rw [List.eq_of_mem_replicate hv]
    exact ⟨_, List.mem_singleton_self _, rfl⟩
  | ofVectors space vs =>
    obtain ⟨w, hw, rfl⟩ := List.mem_map.1 hv
    exact ⟨w, hw, (w.length_inSpace space).symm⟩
  | subset => exact ⟨v, hv, rfl⟩
  | @set f given _ i w ih =>
    unfold VectorFamily.set at hv
    split
    · next hi =>
      rw [if_pos hi] at hv
      rcases List.mem_or_eq_of_mem_set hv with hv | rfl
      · obtain ⟨u, hu, hlength⟩ := ih hv
        exact ⟨u, List.mem_cons_of_mem w hu, hlength⟩
      · exact ⟨w, List.mem_cons_self, (w.length_inSpace f.space).symm⟩
    · next hi =>
      rw [if_neg hi] at hv
      exact ih hv
  | setEntry _ i j x ih =>
    obtain ⟨u, hu, hlength⟩ := exists_length_eq_of_mem_setEntry hv
    rw [← hlength]
    exact ih hu
  | @append f given _ w ih =>
    rcases List.mem_append.1 hv with hv | hv
    · obtain ⟨u, hu, hlength⟩ := ih hv
      exact ⟨u, List.mem_cons_of_mem w hu, hlength⟩
    · cases List.mem_singleton.1 hv
      exact ⟨w, List.mem_cons_self, (w.length_inSpace f.space).symm⟩
  | swap _ i j ih => exact ih (mem_of_mem_swap hv)

theorem Given.innerLength_eq_maxLength_iff (h : Given f given) (hne : f.vectors ≠ []) :
    f.innerLength = maxLength f.vectors ↔ ∃ v ∈ f.vectors, ∀ w ∈ given, w.length ≤ v.length := by
  have hle : maxLength f.vectors ≤ maxLength given := maxLength_le fun v hv => by
    obtain ⟨w, hw, hlength⟩ := h.exists_length_eq hv
    exact hlength ▸ length_le_maxLength hw
  simp only [h.innerLength_eq, ← maxLength_le_iff]
  constructor
  · intro heq
    obtain ⟨v, hv, hmax⟩ := exists_length_eq_maxLength hne
    exact ⟨v, hv, by omega⟩
  · rintro ⟨v, hv, hmax⟩
    exact Nat.le_antisymm (Nat.le_trans hmax (length_le_maxLength hv)) hle

end VectorFamily

namespace DenseMatrix

open VectorFamily

theorem ofFamily_eq_ok_iff {α : Type} {f : VectorFamily α} {m : DenseMatrix α} :
    ofFamily f = .ok m ↔ ⟨f.asRows⟩ = m ∧ ∀ v ∈ f.vectors, v.length = f.asRows.innerLength := by
  rw [← forall_length_asRows (P := (· = f.asRows.innerLength))]
  have hasRows : f.asRows = if f.space = .row then f else .ofVectors .row f.vectors := rfl
  simp only [ofFamily, ← hasRows]
  split
  · next row hrow =>
    have hlength : row.length ≠ f.asRows.innerLength := by simpa using List.find?_some hrow
    simp only [reduceCtorEq, false_iff]
    exact fun h => hlength (h.2 row (List.mem_of_find?_eq_some hrow))
  · next hnone =>
    have hall : ∀ v ∈ f.asRows.vectors, v.length = f.asRows.innerLength := by
      simpa using List.find?_eq_none.1 hnone
    simp only [Except.ok.injEq]
    exact (and_iff_left hall).symm

theorem exists_ofFamily_iff {α : Type} {f : VectorFamily α} (hne : f.vectors ≠ []) :
    (∃ m, ofFamily f = .ok m) ↔ (∀ v ∈ f.vectors, ∀ w ∈ f.vectors, v.length = w.length) ∧
      (f.space = .row → f.innerLength = maxLength f.vectors) := by
  simp only [ofFamily_eq_ok_iff, exists_and_right, exists_eq', true_and]
  rw [forall_length_eq_iff hne, innerLength_asRows_eq_iff]

theorem lists_of_ofFamily {α : Type} {f : VectorFamily α} {m : DenseMatrix α}
    (hm : ofFamily f = .ok m) : m.lists = f.vectors.map OrientedVector.items := by
  obtain ⟨rfl, -⟩ := ofFamily_eq_ok_iff.1 hm
  exact f.items_asRows

theorem shape_of_ofFamily {α : Type} {f : VectorFamily α} {m : DenseMatrix α}
    (hm : ofFamily f = .ok m) (hne : f.vectors ≠ []) : m.shape = ⟨f.count, maxLength f.vectors⟩ := by
  obtain ⟨rfl, hlength⟩ := ofFamily_eq_ok_iff.1 hm
  have hrows : f.asRows.count = f.count := by
    have hitems := congrArg List.length f.items_asRows
    simpa [count] using hitems
  have hcols : f.asRows.innerLength = maxLength f.vectors := ((forall_length_eq_iff hne).1 hlength).2
  simp only [shape, rowCount, colCount, hrows, hcols]

end DenseMatrix

/-- A family remembers the length of the longest vector it was given. That is the longest it holds
exactly when it holds one as long as any that it was given. A matrix is made of vectors of one
length, with a row for each; but if they are rows, only when the remembered length is theirs. -/
theorem longest_given_decides {α : Type} [Entry α] {f : VectorFamily α}
    {given : List (OrientedVector α)} (h : f.Given given) (hne : f.vectors ≠ []) :
    f.innerLength = VectorFamily.maxLength given ∧
    (f.innerLength = VectorFamily.maxLength f.vectors ↔
      ∃ v ∈ f.vectors, ∀ w ∈ given, w.length ≤ v.length) ∧
    ((∃ m, DenseMatrix.ofFamily f = .ok m) ↔
      (∀ v ∈ f.vectors, ∀ w ∈ f.vectors, v.length = w.length) ∧
        (f.space = .row → f.innerLength = VectorFamily.maxLength f.vectors)) ∧
    ∀ m, DenseMatrix.ofFamily f = .ok m →
      m.shape = ⟨f.count, VectorFamily.maxLength f.vectors⟩ ∧
        m.lists = f.vectors.map OrientedVector.items := by
  refine ⟨h.innerLength_eq, h.innerLength_eq_maxLength_iff hne, DenseMatrix.exists_ofFamily_iff hne, ?_⟩
  intro m hm
  exact ⟨DenseMatrix.shape_of_ofFamily hm hne, DenseMatrix.lists_of_ofFamily hm⟩

theorem longest_given_decides_columns :
    let f : VectorFamily (Scalar Float) :=
      ((VectorFamily.ofVectors .column [.zeros .column 2, .zeros .row 1]).set 0 (.zeros .row 1)).state
    (∃ given, f.Given given) ∧ f.vectors ≠ [] ∧ ∃ m, DenseMatrix.ofFamily f = .ok m := by
  intro f
  have hgiven : f.Given _ := (VectorFamily.Given.ofVectors .column _).set 0 _
  have hne : f.vectors ≠ [] := by decide +kernel
  refine ⟨⟨_, hgiven⟩, hne, ?_⟩
  exact (longest_given_decides hgiven hne).2.2.1.2 ⟨by decide +kernel, by decide +kernel⟩

/-- Rows of one length make none after a longer one has been overwritten, whose length is still
remembered. -/
theorem rows_refused_once_overwritten :
    let f : VectorFamily (Scalar Float) :=
      ((VectorFamily.ofVectors .row [.zeros .row 2, .zeros .row 1]).set 0 (.zeros .row 1)).state
    (∃ given, f.Given given) ∧ f.vectors ≠ [] ∧ f.innerLength ≠ VectorFamily.maxLength f.vectors ∧
      (∀ v ∈ f.vectors, ∀ w ∈ f.vectors, v.length = w.length) ∧
      ∃ e, DenseMatrix.ofFamily f = .error e := by
  intro f
  have hgiven : f.Given _ := (VectorFamily.Given.ofVectors .row _).set 0 _
  exact ⟨⟨_, hgiven⟩, by decide +kernel, by decide +kernel, by decide +kernel, _, rfl⟩

end MatrixCalculator
