import Mathlib.Data.List.Forall2
import MatrixCalculator.FieldTree.Codec
set_option autoImplicit false

/-!
What a tree may turn into when the object it stands for is written again. Fields that the object
does not know are dropped, and whole numbers that stand for components become components; the fields
that stay may change places. Beside these, a tree can be another spelling of a tree with names: the
fields of a record may stand in a list, and a tag may stand as a record with nothing under it.
-/

namespace MatrixCalculator

theorem mapM_eq_some_iff {σ τ : Type} {f : σ → Option τ} {xs : List σ} {ys : List τ} :
    xs.mapM f = some ys ↔ List.Forall₂ (fun x y => f x = some y) xs ys := by
  induction xs generalizing ys with
  | nil => simp [eq_comm]
  | cons x xs ih =>
    simp only [List.mapM_cons, List.forall₂_cons_left_iff, Option.bind_eq_bind, Option.bind_eq_some_iff, ih]
    simp [eq_comm]

namespace FieldTree

variable {β : Type}

/-- The first tree is another spelling of the second one. -/
inductive Spells : FieldTree β → FieldTree β → Prop
  | positional {names : List String} {ts : List (FieldTree β)} (h : ts.length = names.length) :
    Spells (.list ts) (ofFields (names.zip ts))
  | emptyTag (tag : String) : Spells (.record [(some tag, .null)]) (ofText tag)

/-- What is left of a tree when unknown fields are dropped and whole numbers are read as components,
where spellings of the kind `Also` may be changed as well. -/
inductive Rewrites [ElementaryFunctions β] (Also : FieldTree β → FieldTree β → Prop) :
    FieldTree β → FieldTree β → Prop
  | same (t : FieldTree β) : Rewrites Also t t
  | whole (n : Int) : Rewrites Also (.integer n) (.number (ElementaryFunctions.ofInt n))
  | list {ts us : List (FieldTree β)} (h : List.Forall₂ (Rewrites Also) ts us) :
    Rewrites Also (.list ts) (.list us)
  | fields {fields : List (Option String × FieldTree β)} {names : List String}
    {ts us : List (FieldTree β)} (known : names.mapM (field? fields) = some ts)
    (h : List.Forall₂ (Rewrites Also) ts us) :
    Rewrites Also (.record fields) (ofFields (names.zip us))
  | respelled {t s u : FieldTree β} (spelled : Also t s) (h : Rewrites Also s u) :
    Rewrites Also t u

section Fields

variable {names : List String} {ts : List (FieldTree β)} {name : String} {t : FieldTree β}

theorem filter_eq_nil_of_not_mem (h : name ∉ names) :
    ((names.zip ts).map fun (name, t) => (some name, t)).filter (·.1 == some name) = [] := by
  refine List.filter_eq_nil_iff.2 fun field hfield => ?_
  obtain ⟨⟨other, t⟩, hmem, rfl⟩ := List.mem_map.1 hfield
  have hother : other ∈ names := (List.of_mem_zip hmem).1
  simp only [beq_iff_eq, Option.some.injEq]
  rintro rfl
  exact h hother

theorem field?_of_mem_zip (hn : names.Nodup) (h : (name, t) ∈ names.zip ts) :
    field? ((names.zip ts).map fun (name, t) => (some name, t)) name = some t := by
  induction names generalizing ts with
  | nil => simp at h
  | cons other names ih =>
    cases ts with
    | nil => simp at h
    | cons u ts =>
      obtain ⟨hother, hn⟩ := List.nodup_cons.1 hn
      rcases List.mem_cons.1 h with h | h
      · cases h
        simp [field?, filter_eq_nil_of_not_mem hother]
      · have hne : other ≠ name := by
          rintro rfl
          exact hother (List.of_mem_zip h).1
        simpa [field?, hne] using ih hn h

theorem mapM_field?_zip (hn : names.Nodup) (hl : ts.length = names.length) :
    names.mapM (field? ((names.zip ts).map fun (name, t) => (some name, t))) = some ts :=
  mapM_eq_some_iff.2 (List.forall₂_iff_zip.2 ⟨hl.symm, field?_of_mem_zip hn⟩)

end Fields

theorem members?_ofFields {names : List String} (hn : names.Nodup) (ts : List (FieldTree β))
    (hl : ts.length = names.length) : members? names (ofFields (names.zip ts)) = some ts := by
  simp only [members?, ofFields, mapM_field?_zip hn hl]
  rw [if_pos (by simp)]

/-- A tree with the fields of the given names, in either spelling, and what is left of it. -/
theorem rewrites_of_members? [ElementaryFunctions β] {names : List String} {t : FieldTree β}
    {ts us : List (FieldTree β)} (hn : names.Nodup) (h : members? names t = some ts)
    (hs : List.Forall₂ (Rewrites Spells) ts us) : Rewrites Spells t (ofFields (names.zip us)) := by
  unfold members? at h
  split at h
  · split at h
    · exact .fields h hs
    · cases h
  · split at h
    · next hl =>
      cases h
      exact .respelled (.positional hl) (.fields (mapM_field?_zip hn hl) hs)
    · cases h
  · cases h

end FieldTree

end MatrixCalculator
