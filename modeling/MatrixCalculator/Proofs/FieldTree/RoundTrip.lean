import MatrixCalculator.Proofs.Binary64.WholeNumber
import MatrixCalculator.Proofs.FieldTree.Rewriting
set_option autoImplicit false

/-!
Objects survive being written as trees and read back, whatever they remember: a rank or a length
that no longer fits the entries is stored as it stands and never counted again. In the other
direction, whatever tree is accepted can be written again, and means the same object then.
-/

namespace MatrixCalculator

open FieldTree (Spells Rewrites ofFields ofText members? members?_ofFields rewrites_of_members?)

class FiniteWords (β : Type) [ElementaryFunctions β] : Prop where
  isFinite_ofInt (n : Int) : FieldTree.fitsWord n = true →
    ElementaryFunctions.isFinite (ElementaryFunctions.ofInt n : β) = true

instance : FiniteWords Float where
  isFinite_ofInt n hn := by
    have hbounds : -2 ^ 63 ≤ n ∧ n < 2 ^ 64 := by
      simpa [FieldTree.fitsWord] using hn
    exact Binary64.isFinite_ofInt hbounds.1 hbounds.2

variable {β : Type} [ElementaryFunctions β]

/-- How objects of one kind correspond to their trees. -/
structure Kept {σ : Type} (Storable : σ → Prop) (encode : σ → FieldTree β)
    (decode : FieldTree β → Option σ) : Prop where
  /-- What can be stored comes back as it was. -/
  decode_encode {x : σ} : Storable x → decode (encode x) = some x
  /-- What is read could have been stored. -/
  storable {t : FieldTree β} {x : σ} : decode t = some x → Storable x
  /-- What is read and written again is read as the same object. -/
  reread {t : FieldTree β} {x : σ} : decode t = some x → decode (encode x) = some x :=
    fun h => decode_encode (storable h)
  /-- The tree written again is the tree that was read, but for what rewriting changes. -/
  rewrites {t : FieldTree β} {x : σ} : decode t = some x → Rewrites Spells t (encode x)

def RankedSeq.Storable (s : RankedSeq (Scalar β)) : Prop := ∀ a ∈ s.items, a.isFinite = true

def OrientedVector.Storable (v : OrientedVector (Scalar β)) : Prop := v.elements.Storable

structure VectorFamily.Storable (f : VectorFamily (Scalar β)) : Prop where
  vectors : ∀ v ∈ f.vectors, v.Storable
  innerLength_lt : f.innerLength < UInt64.size

def DenseMatrix.Storable (m : DenseMatrix (Scalar β)) : Prop := m.family.Storable

def Operand.Storable : Operand β → Prop
  | .scalar a => a.isFinite = true
  | .vector v => v.Storable
  | .matrix m => m.Storable

section Pieces

variable {t : FieldTree β}

omit [ElementaryFunctions β] in
theorem FieldTree.items?_eq_some_iff {ts : List (FieldTree β)} : t.items? = some ts ↔ t = .list ts := by
  unfold items?
  split
  · simp
  · next ht =>
    simp only [reduceCtorEq, false_iff]
    rintro rfl
    exact ht ts rfl

omit [ElementaryFunctions β] in
theorem FieldTree.tagged?_cases {tag : String} {held : Option (FieldTree β)}
    (h : t.tagged? = some (tag, held)) :
    (t = ofText tag ∧ held = none) ∨ ∃ s, t = .record [(some tag, s)] ∧ held = some s := by
  unfold tagged? at h
  split at h
  · cases h
    exact .inl ⟨rfl, rfl⟩
  · cases h
    exact .inr ⟨_, rfl, rfl⟩
  · cases h

theorem FieldTree.rewrites_of_tag? {tag : String} (h : t.tag? = some tag) :
    Rewrites Spells t (ofText tag) := by
  unfold tag? at h
  split at h
  · next ht =>
    cases h
    obtain ⟨rfl, -⟩ | ⟨s, -, hs⟩ := tagged?_cases ht
    · exact .same _
    · cases hs
  · next ht =>
    cases h
    obtain ⟨-, hs⟩ | ⟨s, rfl, hs⟩ := tagged?_cases ht
    · cases hs
    · cases hs
      exact .respelled (.emptyTag _) (.same _)
  · cases h

theorem Rank.kept : Kept (fun _ => True) (Rank.encode (β := β)) Rank.decode where
  decode_encode _ := Rank.decode_encode _
  storable _ := trivial
  rewrites {t r} h := by
    obtain ⟨tag, htag, hr⟩ := Option.bind_eq_some_iff.1 h
    have hname : tag = r.tag := by
      unfold ofTag? at hr
      split at hr <;> cases hr <;> rfl
    rw [Rank.encode, ← hname]
    exact FieldTree.rewrites_of_tag? htag

theorem Space.kept : Kept (fun _ => True) (Space.encode (β := β)) Space.decode where
  decode_encode _ := Space.decode_encode _
  storable _ := trivial
  rewrites {t s} h := by
    obtain ⟨tag, htag, hs⟩ := Option.bind_eq_some_iff.1 h
    have hname : tag = s.tag := by
      unfold ofTag? at hs
      split at hs <;> cases hs <;> rfl
    rw [Space.encode, ← hname]
    exact FieldTree.rewrites_of_tag? htag

theorem component?_kept [FiniteWords β] :
    Kept (fun x : β => ElementaryFunctions.isFinite x = true) .number FieldTree.component? where
  decode_encode h := by rw [FieldTree.component?, if_pos h]
  storable {t x} h := by
    unfold FieldTree.component? at h
    split at h
    · split at h <;> cases h
      assumption
    · split at h <;> cases h
      exact FiniteWords.isFinite_ofInt _ ‹_›
    · cases h
  rewrites {t x} h := by
    unfold FieldTree.component? at h
    split at h
    · split at h <;> cases h
      exact .same _
    · split at h <;> cases h
      exact .whole _
    · cases h

omit [ElementaryFunctions β] in
theorem FieldTree.eq_integer_of_count? {n : Nat} (h : t.count? = some n) :
    t = .integer n ∧ n < UInt64.size := by
  unfold count? at h
  split at h
  · split at h
    · next hk =>
      cases h
      rw [Int.toNat_of_nonneg hk.1]
      exact ⟨rfl, by omega⟩
    · cases h
  · cases h

theorem count?_kept :
    Kept (· < UInt64.size) (fun n => (.integer n : FieldTree β)) FieldTree.count? where
  decode_encode {n} h := by
    rw [FieldTree.count?, if_pos (by omega)]
    rfl
  storable h := (FieldTree.eq_integer_of_count? h).2
  rewrites h := by
    rw [(FieldTree.eq_integer_of_count? h).1]
    exact .same _

theorem Kept.items {σ : Type} {Storable : σ → Prop} {encode : σ → FieldTree β}
    {decode : FieldTree β → Option σ} (h : Kept Storable encode decode) :
    Kept (fun xs => ∀ x ∈ xs, Storable x) (fun xs => .list (xs.map encode))
      (fun t => t.items?.bind (·.mapM decode)) where
  decode_encode {xs} hxs := by
    refine mapM_eq_some_iff.2 ?_
    rw [List.forall₂_map_left_iff, List.forall₂_same]
    exact fun x hx => h.decode_encode (hxs x hx)
  storable {t xs} ht := by
    obtain ⟨ts, -, hts⟩ := Option.bind_eq_some_iff.1 ht
    have hread := mapM_eq_some_iff.1 hts
    clear ht hts
    induction hread with
    | nil => simp
    | cons hx _ ih => exact List.forall_mem_cons.2 ⟨h.storable hx, ih⟩
  rewrites {t xs} ht := by
    obtain ⟨ts, hlist, hts⟩ := Option.bind_eq_some_iff.1 ht
    rw [FieldTree.items?_eq_some_iff.1 hlist]
    refine .list ?_
    rw [List.forall₂_map_right_iff]
    exact (mapM_eq_some_iff.1 hts).imp fun _ _ => h.rewrites

end Pieces

section Objects

/-- A record is kept whose subtrees are read back in the order in which they are written. -/
theorem Kept.record {σ : Type} {Storable : σ → Prop} (names : List String)
    (parts : σ → List (FieldTree β)) {build : List (FieldTree β) → Option σ} (hn : names.Nodup)
    (hl : ∀ x, (parts x).length = names.length)
    (hbuild : ∀ x, Storable x → build (parts x) = some x)
    (hread : ∀ ts x, build ts = some x → Storable x ∧ List.Forall₂ (Rewrites Spells) ts (parts x)) :
    Kept Storable (fun x => ofFields (names.zip (parts x))) (fun t => (t.members? names).bind build) where
  decode_encode {x} hx := by
    rw [members?_ofFields hn (parts x) (hl x)]
    exact hbuild x hx
  storable {t x} h := by
    obtain ⟨ts, -, hts⟩ := Option.bind_eq_some_iff.1 h
    exact (hread ts x hts).1
  rewrites {t x} h := by
    obtain ⟨ts, hmembers, hts⟩ := Option.bind_eq_some_iff.1 h
    exact rewrites_of_members? hn hmembers (hread ts x hts).2

variable [FiniteWords β]

theorem Scalar.kept : Kept (fun a : Scalar β => a.isFinite = true) Scalar.encode Scalar.decode := by
  refine Kept.record ["re", "im"] (fun a : Scalar β => [.number a.re, .number a.im]) (by decide)
    (fun _ => rfl) (fun a h => ?_) (fun ts a h => ?_)
  · obtain ⟨hre, him⟩ := Bool.and_eq_true_iff.1 h
    simp [component?_kept.decode_encode hre, component?_kept.decode_encode him]
  · split at h
    · simp only [Option.bind_eq_bind, Option.bind_eq_some_iff] at h
      obtain ⟨re, hre, im, him, h⟩ := h
      cases h
      exact ⟨Bool.and_eq_true_iff.2 ⟨component?_kept.storable hre, component?_kept.storable him⟩,
        .cons (component?_kept.rewrites hre) (.cons (component?_kept.rewrites him) .nil)⟩
    · cases h

theorem RankedSeq.kept : Kept (β := β) RankedSeq.Storable RankedSeq.encode RankedSeq.decode := by
  refine Kept.record ["items", "rank"]
    (fun s : RankedSeq (Scalar β) => [.list (s.items.map Scalar.encode), s.rank.encode])
    (by decide) (fun _ => rfl) (fun s h => ?_) (fun ts s h => ?_)
  · have hitems : (s.items.map Scalar.encode).mapM Scalar.decode = some s.items :=
      Scalar.kept.items.decode_encode h
    simp [FieldTree.items?, hitems, Rank.decode_encode]
  · split at h
    · simp only [Option.bind_eq_bind, Option.bind_eq_some_iff] at h
      obtain ⟨us, hus, items, hmap, rank, hrank, h⟩ := h
      cases h
      have hitems := Option.bind_eq_some_iff.2 ⟨us, hus, hmap⟩
      exact ⟨Scalar.kept.items.storable hitems,
        .cons (Scalar.kept.items.rewrites hitems) (.cons (Rank.kept.rewrites hrank) .nil)⟩
    · cases h

theorem OrientedVector.kept :
    Kept (β := β) OrientedVector.Storable OrientedVector.encode OrientedVector.decode := by
  refine Kept.record ["space", "elements", "rank"]
    (fun v : OrientedVector (Scalar β) => [v.space.encode, v.elements.encode, v.rank.encode])
    (by decide) (fun _ => rfl) (fun v h => ?_) (fun ts v h => ?_)
  · simp [Space.decode_encode, RankedSeq.kept.decode_encode h, Rank.decode_encode]
  · split at h
    · simp only [Option.bind_eq_bind, Option.bind_eq_some_iff] at h
      obtain ⟨space, hspace, elements, helements, rank, hrank, h⟩ := h
      cases h
      exact ⟨RankedSeq.kept.storable helements, .cons (Space.kept.rewrites hspace)
        (.cons (RankedSeq.kept.rewrites helements) (.cons (Rank.kept.rewrites hrank) .nil))⟩
    · cases h

theorem VectorFamily.kept :
    Kept (β := β) VectorFamily.Storable VectorFamily.encode VectorFamily.decode := by
  refine Kept.record ["vects", "inner_len", "space", "rank"]
    (fun f : VectorFamily (Scalar β) => [.list (f.vectors.map OrientedVector.encode),
      .integer f.innerLength, f.space.encode, f.rank.encode])
    (by decide) (fun _ => rfl) (fun f h => ?_) (fun ts f h => ?_)
  · have hvectors : (f.vectors.map OrientedVector.encode).mapM OrientedVector.decode = some f.vectors :=
      OrientedVector.kept.items.decode_encode h.vectors
    have hcount : (FieldTree.integer f.innerLength : FieldTree β).count? = some f.innerLength :=
      count?_kept.decode_encode h.innerLength_lt
    simp [FieldTree.items?, hvectors, hcount, Space.decode_encode, Rank.decode_encode]
  · split at h
    · simp only [Option.bind_eq_bind, Option.bind_eq_some_iff] at h
      obtain ⟨us, hus, vectors, hmap, count, hcount, space, hspace, rank, hrank, h⟩ := h
      cases h
      have hvectors := Option.bind_eq_some_iff.2 ⟨us, hus, hmap⟩
      exact ⟨⟨OrientedVector.kept.items.storable hvectors, count?_kept.storable hcount⟩,
        .cons (OrientedVector.kept.items.rewrites hvectors) (.cons (count?_kept.rewrites hcount)
          (.cons (Space.kept.rewrites hspace) (.cons (Rank.kept.rewrites hrank) .nil)))⟩
    · cases h

theorem DenseMatrix.kept : Kept (β := β) DenseMatrix.Storable DenseMatrix.encode DenseMatrix.decode := by
  refine Kept.record ["elements"] (fun m : DenseMatrix (Scalar β) => [m.family.encode])
    (by decide) (fun _ => rfl) (fun m h => ?_) (fun ts m h => ?_)
  · simp [VectorFamily.kept.decode_encode h]
  · split at h
    · simp only [Option.bind_eq_bind, Option.bind_eq_some_iff] at h
      obtain ⟨family, hfamily, h⟩ := h
      cases h
      exact ⟨VectorFamily.kept.storable hfamily, .cons (VectorFamily.kept.rewrites hfamily) .nil⟩
    · cases h

theorem Kind.eq_name_of_ofTag? {tag : String} {k : Kind} (h : Kind.ofTag? tag = some k) :
    tag = k.name := by
  unfold ofTag? at h
  split at h <;> cases h <;> rfl

omit [FiniteWords β] in
theorem FieldTree.rewrites_of_tagged? {t s u : FieldTree β} {tag : String}
    (h : t.tagged? = some (tag, some s)) (hs : Rewrites Spells s u) :
    Rewrites Spells t (ofFields [(tag, u)]) := by
  obtain ⟨-, hheld⟩ | ⟨held, rfl, hheld⟩ := tagged?_cases h <;> cases hheld
  have hknown : [tag].mapM (field? [(some tag, s)]) = some [s] := by simp [field?]
  exact Rewrites.fields hknown (.cons hs .nil)

omit [FiniteWords β] in
theorem Operand.decode_cases {t : FieldTree β} {x : Operand β} (h : decode t = some x) :
    ∃ s, (∃ a, t.tagged? = some (Kind.scalar.name, some s) ∧ Scalar.decode s = some a ∧ x = .scalar a) ∨
      (∃ v, t.tagged? = some (Kind.vector.name, some s) ∧ OrientedVector.decode s = some v ∧
        x = .vector v) ∨
      ∃ m, t.tagged? = some (Kind.matrix.name, some s) ∧ DenseMatrix.decode s = some m ∧
        x = .matrix m := by
  simp only [decode, Option.bind_eq_bind, Option.bind_eq_some_iff] at h
  obtain ⟨⟨tag, held⟩, htag, k, hk, h⟩ := h
  have hname : tag = k.name := Kind.eq_name_of_ofTag? hk
  rw [hname] at htag
  cases k <;> simp only [Option.bind_eq_some_iff] at h <;> obtain ⟨s, hs, y, hy, hx⟩ := h <;>
    cases hs <;> cases hx
  case scalar => exact ⟨s, .inl ⟨y, htag, hy, rfl⟩⟩
  case vector => exact ⟨s, .inr (.inl ⟨y, htag, hy, rfl⟩)⟩
  case matrix => exact ⟨s, .inr (.inr ⟨y, htag, hy, rfl⟩)⟩

theorem Operand.kept : Kept (β := β) Operand.Storable Operand.encode Operand.decode where
  decode_encode {x} h := by
    cases x with
    | scalar a =>
      have ha : Scalar.decode a.encode = some a := Scalar.kept.decode_encode h
      simp [decode, encode, ofFields, FieldTree.tagged?, Kind.name, Kind.ofTag?, ha]
    | vector v =>
      have hv : OrientedVector.decode v.encode = some v := OrientedVector.kept.decode_encode h
      simp [decode, encode, ofFields, FieldTree.tagged?, Kind.name, Kind.ofTag?, hv]
    | matrix m =>
      have hm : DenseMatrix.decode m.encode = some m := DenseMatrix.kept.decode_encode h
      simp [decode, encode, ofFields, FieldTree.tagged?, Kind.name, Kind.ofTag?, hm]
  storable {t x} h := by
    obtain ⟨s, ⟨a, -, ha, rfl⟩ | ⟨v, -, hv, rfl⟩ | ⟨m, -, hm, rfl⟩⟩ := decode_cases h
    · exact Scalar.kept.storable ha
    · exact OrientedVector.kept.storable hv
    · exact DenseMatrix.kept.storable hm
  rewrites {t x} h := by
    obtain ⟨s, ⟨a, ht, ha, rfl⟩ | ⟨v, ht, hv, rfl⟩ | ⟨m, ht, hm, rfl⟩⟩ := decode_cases h
    · exact FieldTree.rewrites_of_tagged? ht (Scalar.kept.rewrites ha)
    · exact FieldTree.rewrites_of_tagged? ht (OrientedVector.kept.rewrites hv)
    · exact FieldTree.rewrites_of_tagged? ht (DenseMatrix.kept.rewrites hm)

end Objects

end MatrixCalculator
