import MatrixCalculator.Binary64
import MatrixCalculator.OrientedVector.Norm
import MatrixCalculator.Proofs.DenseMatrix.Enclosed
set_option autoImplicit false

/-!
The containers that a program can come to hold: those that constructors build and those that
operations make of what it holds already, in any order and as often as it likes. A change in place
counts with what it leaves behind, whether it was made or refused. One operation makes a well-formed
container of well-formed ones, so that all of them are well formed. Expressions have no place in the
list of operations: what they evaluate to is made by the operations their operators stand for.
-/

namespace MatrixCalculator

inductive Container (β : Type) where
  | sequence (s : RankedSeq (Scalar β))
  | vector (v : OrientedVector (Scalar β))
  | family (f : VectorFamily (Scalar β))
  | matrix (m : DenseMatrix (Scalar β))

variable {β : Type} [ElementaryFunctions β]

inductive Makes : List (Container β) → Container β → Prop
  -- Sequences.
  | sequenceZeros (n : Nat) : Makes [] (.sequence (.zeros n))
  | sequenceOfList (items : List (Scalar β)) : Makes [] (.sequence (.ofList items))
  | sequenceSet (s : RankedSeq (Scalar β)) (i : Nat) (x : Scalar β) :
    Makes [.sequence s] (.sequence (s.set i x).state)
  | sequenceAppend (s : RankedSeq (Scalar β)) (x : Scalar β) :
    Makes [.sequence s] (.sequence (s.append x))
  | sequenceSubset {s t : RankedSeq (Scalar β)} {first last : Nat} (h : s.subset first last = .ok t) :
    Makes [.sequence s] (.sequence t)
  | elements (v : OrientedVector (Scalar β)) : Makes [.vector v] (.sequence v.elements)
  -- Vectors.
  | vectorZeros (space : Space) (n : Nat) : Makes [] (.vector (.zeros space n))
  | vectorOfSeq (space : Space) (s : RankedSeq (Scalar β)) :
    Makes [.sequence s] (.vector (.ofSeq space s))
  | vectorOfList (space : Space) (items : List (Scalar β)) : Makes [] (.vector (.ofList space items))
  | vectorSet (v : OrientedVector (Scalar β)) (i : Nat) (x : Scalar β) :
    Makes [.vector v] (.vector (v.set i x).state)
  | vectorAppend (v : OrientedVector (Scalar β)) (x : Scalar β) :
    Makes [.vector v] (.vector (v.append x))
  | vectorTransposed (v : OrientedVector (Scalar β)) : Makes [.vector v] (.vector v.transposed)
  | vectorConjugated (v : OrientedVector (Scalar β)) : Makes [.vector v] (.vector v.conjugated)
  | vectorConjTransposed (v : OrientedVector (Scalar β)) :
    Makes [.vector v] (.vector v.conjTransposed)
  | vectorAdd {v w u : OrientedVector (Scalar β)} (h : v.add w = .ok u) :
    Makes [.vector v, .vector w] (.vector u)
  | vectorSub {v w u : OrientedVector (Scalar β)} (h : v.sub w = .ok u) :
    Makes [.vector v, .vector w] (.vector u)
  | vectorScale (v : OrientedVector (Scalar β)) (x : Scalar β) : Makes [.vector v] (.vector (v.scale x))
  | vectorDivide (v : OrientedVector (Scalar β)) (x : Scalar β) :
    Makes [.vector v] (.vector (v.divide x))
  | unit {v u : OrientedVector (Scalar β)} (h : v.unit = .ok u) : Makes [.vector v] (.vector u)
  | stored {f : VectorFamily (Scalar β)} {v : OrientedVector (Scalar β)} (h : v ∈ f.vectors) :
    Makes [.family f] (.vector v)
  | column {m : DenseMatrix (Scalar β)} {j : Nat} {v : OrientedVector (Scalar β)}
    (h : m.column? j = some v) : Makes [.matrix m] (.vector v)
  | mulColumn {m : DenseMatrix (Scalar β)} {v u : OrientedVector (Scalar β)}
    (h : m.mulColumn v = .ok u) : Makes [.matrix m, .vector v] (.vector u)
  | rowMul {m : DenseMatrix (Scalar β)} {v u : OrientedVector (Scalar β)}
    (h : DenseMatrix.rowMul v m = .ok u) : Makes [.vector v, .matrix m] (.vector u)
  -- Families of vectors.
  | familyZeros (space : Space) (count length : Nat) : Makes [] (.family (.zeros space count length))
  | familyOfVectors (space : Space) (vs : List (OrientedVector (Scalar β))) :
    Makes (vs.map .vector) (.family (.ofVectors space vs))
  | familySet (f : VectorFamily (Scalar β)) (i : Nat) (v : OrientedVector (Scalar β)) :
    Makes [.family f, .vector v] (.family (f.set i v).state)
  | familySetEntry (f : VectorFamily (Scalar β)) (i j : Nat) (x : Scalar β) :
    Makes [.family f] (.family (f.setEntry i j x).state)
  | familyAppend (f : VectorFamily (Scalar β)) (v : OrientedVector (Scalar β)) :
    Makes [.family f, .vector v] (.family (f.append v))
  | familySwap (f : VectorFamily (Scalar β)) (i j : Nat) :
    Makes [.family f] (.family (f.swap i j).state)
  | familySubset {f g : VectorFamily (Scalar β)} {first last : Nat} (h : f.subset first last = .ok g) :
    Makes [.family f] (.family g)
  | rows (m : DenseMatrix (Scalar β)) : Makes [.matrix m] (.family m.family)
  -- Matrices.
  | matrixZeros (rows cols : Nat) : Makes [] (.matrix (.zeros rows cols))
  | identity (n : Nat) : Makes [] (.matrix (.identity n))
  | matrixOfFamily {f : VectorFamily (Scalar β)} {m : DenseMatrix (Scalar β)}
    (h : DenseMatrix.ofFamily f = .ok m) : Makes [.family f] (.matrix m)
  | matrixOfRows {vs : List (OrientedVector (Scalar β))} {m : DenseMatrix (Scalar β)}
    (h : DenseMatrix.ofRows vs = .ok m) : Makes (vs.map .vector) (.matrix m)
  | matrixSet (m : DenseMatrix (Scalar β)) (i j : Nat) (x : Scalar β) :
    Makes [.matrix m] (.matrix (m.set i j x).state)
  | matrixSetRow (m : DenseMatrix (Scalar β)) (i : Nat) (v : OrientedVector (Scalar β)) :
    Makes [.matrix m, .vector v] (.matrix (m.setRow i v).state)
  | matrixSwapRows (m : DenseMatrix (Scalar β)) (i j : Nat) :
    Makes [.matrix m] (.matrix (m.swapRows i j).state)
  | matrixTransposed (m : DenseMatrix (Scalar β)) : Makes [.matrix m] (.matrix m.transposed)
  | matrixConjugated (m : DenseMatrix (Scalar β)) : Makes [.matrix m] (.matrix m.conjugated)
  | matrixConjTransposed (m : DenseMatrix (Scalar β)) : Makes [.matrix m] (.matrix m.conjTransposed)
  | minor {m a : DenseMatrix (Scalar β)} {k l : Nat} (h : m.minor k l = .ok a) :
    Makes [.matrix m] (.matrix a)
  | inverse {m a : DenseMatrix (Scalar β)} (h : m.inverse = .ok a) : Makes [.matrix m] (.matrix a)
  | augment {m n a : DenseMatrix (Scalar β)} (h : m.augment n = .ok a) :
    Makes [.matrix m, .matrix n] (.matrix a)
  | augmentColumn {m a : DenseMatrix (Scalar β)} {v : OrientedVector (Scalar β)}
    (h : m.augmentColumn v = .ok a) : Makes [.matrix m, .vector v] (.matrix a)
  | trim {m a : DenseMatrix (Scalar β)} {top bottom left right : Nat}
    (h : m.trim top bottom left right = .ok a) : Makes [.matrix m] (.matrix a)
  | matrixAdd {m n a : DenseMatrix (Scalar β)} (h : m.add n = .ok a) :
    Makes [.matrix m, .matrix n] (.matrix a)
  | matrixSub {m n a : DenseMatrix (Scalar β)} (h : m.sub n = .ok a) :
    Makes [.matrix m, .matrix n] (.matrix a)
  | matrixScale (m : DenseMatrix (Scalar β)) (x : Scalar β) : Makes [.matrix m] (.matrix (m.scale x))
  | matrixDivide (m : DenseMatrix (Scalar β)) (x : Scalar β) : Makes [.matrix m] (.matrix (m.divide x))
  | mul {m n a : DenseMatrix (Scalar β)} (h : m.mul n = .ok a) :
    Makes [.matrix m, .matrix n] (.matrix a)
  | power {m a : DenseMatrix (Scalar β)} {k : Int} (h : m.power k = .ok a) :
    Makes [.matrix m] (.matrix a)
  | outer {v w : OrientedVector (Scalar β)} {m : DenseMatrix (Scalar β)}
    (h : DenseMatrix.outer v w = .ok m) : Makes [.vector v, .vector w] (.matrix m)

/-- The containers that any sequence of constructors and operations leads to. -/
inductive Reachable : Container β → Prop
  | make {operands : List (Container β)} {c : Container β} (h : Makes operands c)
    (held : ∀ x ∈ operands, Reachable x) : Reachable c

namespace Container

def WellFormed : Container β → Prop
  | .sequence s => s.WellFormed
  | .vector v => v.WellFormed
  | .family f => f.WellFormed
  | .matrix m => m.WellFormed

end Container

theorem OrientedVector.wellFormed_of_unit {v u : OrientedVector (Scalar β)} (h : v.unit = .ok u) :
    u.WellFormed := by
  unfold unit at h
  split at h
  · cases h
  · cases h
    exact wellFormed_mapItems _ v

theorem Makes.wellFormed {operands : List (Container β)} {c : Container β} (h : Makes operands c)
    (held : ∀ x ∈ operands, x.WellFormed) : c.WellFormed := by
  cases h with
  | sequenceZeros n => exact RankedSeq.wellFormed_zeros n
  | sequenceOfList items => exact RankedSeq.wellFormed_ofList items
  | sequenceSet s i x => exact (held (.sequence s) (by simp)).set i x
  | sequenceAppend s x => exact (held (.sequence s) (by simp)).append x
  | sequenceSubset h => exact RankedSeq.wellFormed_of_subset h
  | elements v => exact (held (.vector v) (by simp)).elements
  | vectorZeros space n => exact OrientedVector.wellFormed_zeros space n
  | vectorOfSeq space s => exact OrientedVector.wellFormed_ofSeq space (held (.sequence s) (by simp))
  | vectorOfList space items => exact OrientedVector.wellFormed_ofList space items
  | vectorSet v i x => exact (held (.vector v) (by simp)).set i x
  | vectorAppend v x => exact (held (.vector v) (by simp)).append x
  | vectorTransposed v => exact (held (.vector v) (by simp)).transposed
  | vectorConjugated v => exact (held (.vector v) (by simp)).conjugated
  | vectorConjTransposed v => exact (held (.vector v) (by simp)).conjTransposed
  | vectorAdd h => exact OrientedVector.wellFormed_of_zipItems h
  | vectorSub h => exact OrientedVector.wellFormed_of_zipItems h
  | vectorScale v x => exact OrientedVector.wellFormed_mapItems _ v
  | vectorDivide v x => exact OrientedVector.wellFormed_mapItems _ v
  | unit h => exact OrientedVector.wellFormed_of_unit h
  | @stored f v h => exact (held (.family f) (by simp) v h).wellFormed
  | column h => exact DenseMatrix.wellFormed_of_column? h
  | @mulColumn m v _ h => exact ((held (.matrix m) (by simp)).mulColumn_inside v).of_eq_ok h
  | @rowMul m v _ h => exact ((held (.matrix m) (by simp)).rowMul_inside v).of_eq_ok h
  | familyZeros space count length => exact VectorFamily.wellFormed_zeros space count length
  | familyOfVectors space vs =>
    exact VectorFamily.wellFormed_ofVectors space fun v hv => held (.vector v) (List.mem_map_of_mem hv)
  | familySet f i v => exact (held (.family f) (by simp)).set i (held (.vector v) (by simp))
  | familySetEntry f i j x => exact (held (.family f) (by simp)).setEntry i j x
  | familyAppend f v => exact (held (.family f) (by simp)).append (held (.vector v) (by simp))
  | familySwap f i j => exact (held (.family f) (by simp)).swap i j
  | @familySubset f _ _ _ h => exact (held (.family f) (by simp)).subset h
  | rows m => exact (held (.matrix m) (by simp)).family
  | matrixZeros rows cols => exact DenseMatrix.wellFormed_zeros rows cols
  | identity n => exact DenseMatrix.wellFormed_identity n
  | @matrixOfFamily f _ h => exact (DenseMatrix.ofFamily_inside (held (.family f) (by simp))).of_eq_ok h
  | matrixOfRows h =>
    refine (DenseMatrix.ofRows_inside fun v hv => ?_).of_eq_ok h
    exact held (.vector v) (List.mem_map_of_mem hv)
  | matrixSet m i j x => exact (held (.matrix m) (by simp)).set i j x
  | matrixSetRow m i v => exact (held (.matrix m) (by simp)).setRow i (held (.vector v) (by simp))
  | matrixSwapRows m i j => exact (held (.matrix m) (by simp)).swapRows i j
  | matrixTransposed m => exact (held (.matrix m) (by simp)).transposed
  | matrixConjugated m => exact (held (.matrix m) (by simp)).conjugated
  | matrixConjTransposed m => exact (held (.matrix m) (by simp)).conjTransposed
  | @minor m _ k l h => exact ((held (.matrix m) (by simp)).minor_inside k l).of_eq_ok h
  | @inverse m _ h => exact (held (.matrix m) (by simp)).inverse_inside.of_eq_ok h
  | @augment m n _ h => exact (m.augment_inside n).of_eq_ok h
  | @augmentColumn m _ v h => exact ((held (.matrix m) (by simp)).augmentColumn_inside v).of_eq_ok h
  | @trim m _ top bottom left right h =>
    exact ((held (.matrix m) (by simp)).trim_inside top bottom left right).of_eq_ok h
  | @matrixAdd m n _ h =>
    have hm : m.WellFormed := held (.matrix m) (by simp)
    exact (hm.zipEntries_inside (held (.matrix n) (by simp)) _ _).of_eq_ok h
  | @matrixSub m n _ h =>
    have hm : m.WellFormed := held (.matrix m) (by simp)
    exact (hm.zipEntries_inside (held (.matrix n) (by simp)) _ _).of_eq_ok h
  | matrixScale m x => exact (held (.matrix m) (by simp)).mapEntries _
  | matrixDivide m x => exact (held (.matrix m) (by simp)).mapEntries _
  | @mul m n _ h =>
    have hm : m.WellFormed := held (.matrix m) (by simp)
    exact (hm.mul_inside (held (.matrix n) (by simp))).of_eq_ok h
  | @power m _ k h => exact ((held (.matrix m) (by simp)).power_inside k).of_eq_ok h
  | @outer v w _ h => exact (DenseMatrix.outer_inside v w).of_eq_ok h

theorem Reachable.wellFormed {c : Container β} (h : Reachable c) : c.WellFormed := by
  induction h with
  | make h _ ih => exact h.wellFormed ih

/-- Every container ever held is well formed: the vectors of a family fit its space, length and
rank, and the rows of a matrix are row vectors exactly as long as it is wide. So matrices have an
entry exactly at the places inside their grid, and no operation asks for one outside. -/
theorem reachable_enclosed :
    (∀ c : Container β, Reachable c → c.WellFormed) ∧
    (∀ m : DenseMatrix (Scalar β), Reachable (.matrix m) → m.Enclosed) ∧
    (∀ v w : OrientedVector (Scalar β), Inside DenseMatrix.WellFormed (DenseMatrix.outer v w)) ∧
    ∀ n, (List.range n).foldlM (fun (m : DenseMatrix (Scalar β)) i => (m.set i i 1).result)
      (.zeros n n) = .ok (.identity n) := by
  refine ⟨fun _ => Reachable.wellFormed, fun m h => ?_, DenseMatrix.outer_inside,
    DenseMatrix.foldlM_set_diagonal⟩
  have hm : m.WellFormed := h.wellFormed
  exact hm.enclosed

theorem reachable_enclosed_transposed :
    Reachable (.matrix ((.zeros 2 3 : DenseMatrix (Scalar Float)).set 1 2 .i).state.transposed) ∧
    ((.zeros 2 3 : DenseMatrix (Scalar Float)).set 1 2 .i).state.transposed.Enclosed := by
  have hzeros : Reachable (.matrix (.zeros 2 3 : DenseMatrix (Scalar Float))) :=
    .make (.matrixZeros 2 3) (by simp)
  have hset := Reachable.make (.matrixSet (.zeros 2 3 : DenseMatrix (Scalar Float)) 1 2 .i)
    (by simpa using hzeros)
  have htransposed := Reachable.make (.matrixTransposed _) (by simpa using hset)
  exact ⟨htransposed, reachable_enclosed.2.1 _ htransposed⟩

end MatrixCalculator
