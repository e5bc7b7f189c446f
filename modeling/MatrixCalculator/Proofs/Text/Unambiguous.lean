import Mathlib
import MatrixCalculator.Text
import MatrixCalculator.Proofs.Binary64.Sides
import MatrixCalculator.Proofs.Decimal.Plain
set_option autoImplicit false

/-!
What the text of a vector tells. The two parts of a complex scalar are divided by the last sign of its
text, and scalars by commas, which no scalar contains; the last character tells the space. So vectors of
finite scalars with one text have one space, one length and entries that compare equal.
-/

namespace MatrixCalculator

section Division

variable {α : Type} {p : α → Prop}

theorem append_cons_inj_of_first {xs ys zs ws : List α} {a b : α} (h : xs ++ a :: zs = ys ++ b :: ws)
    (hxs : ∀ x ∈ xs, ¬ p x) (hys : ∀ y ∈ ys, ¬ p y) (ha : p a) (hb : p b) :
    xs = ys ∧ a = b ∧ zs = ws := by
  induction xs generalizing ys with
  | nil =>
    cases ys with
    | nil => exact ⟨rfl, (List.cons.inj h).1, (List.cons.inj h).2⟩
    | cons y ys => exact absurd ((List.cons.inj h).1 ▸ ha) (hys y List.mem_cons_self)
  | cons x xs ih =>
    cases ys with
    | nil => exact absurd ((List.cons.inj h).1 ▸ hb) (hxs x List.mem_cons_self)
    | cons y ys =>
      obtain ⟨hhead, htail⟩ := List.cons.inj h
      obtain ⟨rfl, hab, hrest⟩ := ih htail (fun x hx => hxs x (List.mem_cons_of_mem _ hx))
        (fun y hy => hys y (List.mem_cons_of_mem _ hy))
      exact ⟨by rw [hhead], hab, hrest⟩

theorem append_cons_inj_of_last {xs ys zs ws : List α} {a b : α} (h : xs ++ a :: zs = ys ++ b :: ws)
    (hzs : ∀ z ∈ zs, ¬ p z) (hws : ∀ w ∈ ws, ¬ p w) (ha : p a) (hb : p b) :
    xs = ys ∧ a = b ∧ zs = ws := by
  have hreverse : zs.reverse ++ a :: xs.reverse = ws.reverse ++ b :: ys.reverse := by
    simpa using congrArg List.reverse h
  obtain ⟨hzs', hab, hxs⟩ := append_cons_inj_of_first hreverse (fun z hz => hzs z (List.mem_reverse.1 hz))
    (fun w hw => hws w (List.mem_reverse.1 hw)) ha hb
  exact ⟨List.reverse_injective hxs, hab, List.reverse_injective hzs'⟩

/-- Pieces without the mark that separators begin with are read off their enumeration. -/
theorem intercalate_injective {mark : α} {sep : List α} {xs ys : List (List α)}
    (hxs : ∀ t ∈ xs, t ≠ [] ∧ mark ∉ t) (hys : ∀ t ∈ ys, t ≠ [] ∧ mark ∉ t)
    (h : (mark :: sep).intercalate xs = (mark :: sep).intercalate ys) : xs = ys := by
  have hmark (t t' : List α) (ts : List (List α)) : mark ∈ (mark :: sep).intercalate (t :: t' :: ts) := by
    simp [List.intercalate_cons_cons]
  have hne {ts : List (List α)} {t : List α} (ht : t ≠ []) : (mark :: sep).intercalate (t :: ts) ≠ [] := by
    cases ts with
    | nil => simpa using ht
    | cons t' ts => simp [List.intercalate_cons_cons]
  induction xs generalizing ys with
  | nil =>
    cases ys with
    | nil => rfl
    | cons y ys => exact absurd h.symm (hne (hys y List.mem_cons_self).1)
  | cons x xs ih =>
    cases ys with
    | nil => exact absurd h (hne (hxs x List.mem_cons_self).1)
    | cons y ys =>
      have hx := (hxs x List.mem_cons_self).2
      have hy := (hys y List.mem_cons_self).2
      cases xs with
      | nil =>
        cases ys with
        | nil => simpa using h
        | cons y' ys =>
          rw [List.intercalate_singleton] at h
          exact absurd (h ▸ hmark y y' ys) hx
      | cons x' xs =>
        cases ys with
        | nil =>
          rw [List.intercalate_singleton] at h
          exact absurd (h ▸ hmark x x' xs) hy
        | cons y' ys =>
          rw [List.intercalate_cons_cons, List.intercalate_cons_cons, List.append_assoc, List.append_assoc,
            List.cons_append, List.cons_append] at h
          obtain ⟨rfl, -, hrest⟩ := append_cons_inj_of_first (p := (· = mark)) h
            (fun c hc heq => hx (heq ▸ hc)) (fun c hc heq => hy (heq ▸ hc)) rfl rfl
          rw [ih (fun t ht => hxs t (List.mem_cons_of_mem _ ht)) (fun t ht => hys t (List.mem_cons_of_mem _ ht))
            (List.append_cancel_left hrest)]

end Division

/-- The text of a number: digits and points, after a hyphen if it lies below zero. -/
inductive Numeral : List Char → Prop where
  | plain {body : List Char} (nonempty : body ≠ []) (body_plain : ∀ c ∈ body, c.isDigit = true ∨ c = '.') :
      Numeral body
  | signed {body : List Char} (nonempty : body ≠ []) (body_plain : ∀ c ∈ body, c.isDigit = true ∨ c = '.') :
      Numeral ('-' :: body)

def IsSign (c : Char) : Prop := c = '+' ∨ c = '-'

theorem not_isSign_of_plain {c : Char} (h : c.isDigit = true ∨ c = '.') : ¬ IsSign c := by
  rintro (rfl | rfl) <;> exact absurd h (by decide)

namespace Numeral

variable {t : List Char}

theorem ne_nil (h : Numeral t) : t ≠ [] := by
  cases h with
  | plain nonempty => exact nonempty
  | signed => exact List.cons_ne_nil _ _

theorem mem (h : Numeral t) {c : Char} (hc : c ∈ t) : c.isDigit = true ∨ c = '.' ∨ c = '-' := by
  cases h with
  | plain _ body_plain => exact (body_plain c hc).imp_right .inl
  | signed _ body_plain =>
    rcases List.mem_cons.1 hc with rfl | hc
    · exact .inr (.inr rfl)
    · exact (body_plain c hc).imp_right .inl

theorem unit_not_mem (h : Numeral t) : 'i' ∉ t := fun hc => absurd (h.mem hc) (by decide)

theorem not_isSign_of_mem_tail (h : Numeral t) {c : Char} (hc : c ∈ t.tail) : ¬ IsSign c := by
  cases h with
  | plain _ body_plain => exact not_isSign_of_plain (body_plain c (List.mem_of_mem_tail hc))
  | signed _ body_plain => exact not_isSign_of_plain (body_plain c hc)

def withSign (t : List Char) : List Char := if t.head? = some '-' then t else '+' :: t

theorem exists_withSign_eq (h : Numeral t) :
    ∃ c body, withSign t = c :: body ∧ IsSign c ∧ ∀ d ∈ body, ¬ IsSign d := by
  unfold withSign
  cases h with
  | plain nonempty body_plain =>
    have hhead : t.head? ≠ some '-' := fun heq =>
      absurd (body_plain '-' (List.mem_of_mem_head? heq)) (by decide)
    rw [if_neg hhead]
    exact ⟨'+', t, rfl, .inl rfl, fun d hd => not_isSign_of_plain (body_plain d hd)⟩
  | @signed body _ body_plain =>
    exact ⟨'-', body, rfl, .inr rfl, fun d hd => not_isSign_of_plain (body_plain d hd)⟩

theorem withSign_injective {s t : List Char} (h : withSign s = withSign t) : s = t := by
  unfold withSign at h
  split at h <;> split at h
  · exact h
  · next hs _ =>
    rw [h] at hs
    cases hs
  · next _ ht =>
    rw [← h] at ht
    cases ht
  · exact (List.cons.inj h).2

end Numeral

inductive Parts where
  | real (re : List Char)
  | imaginary (im : List Char)
  | both (re im : List Char)

namespace Parts

def text : Parts → List Char
  | real re => re
  | imaginary im => im ++ ['i']
  | both re im => re ++ Numeral.withSign im ++ ['i']

inductive Legible : Parts → Prop where
  | real {re : List Char} (h : Numeral re) : Legible (.real re)
  | imaginary {im : List Char} (h : Numeral im) : Legible (.imaginary im)
  | both {re im : List Char} (hre : Numeral re) (him : Numeral im) : Legible (.both re im)

theorem Legible.mem_text {p : Parts} (h : p.Legible) {c : Char} (hc : c ∈ p.text) :
    c.isDigit = true ∨ c ∈ ['.', '-', '+', 'i'] := by
  have hnumeral {t : List Char} (ht : Numeral t) (hc : c ∈ t) : c.isDigit = true ∨ c ∈ ['.', '-', '+', 'i'] := by
    rcases ht.mem hc with hdigit | rfl | rfl
    · exact .inl hdigit
    · simp
    · simp
  cases h with
  | real h => exact hnumeral h hc
  | imaginary h =>
    rcases List.mem_append.1 hc with hc | hc
    · exact hnumeral h hc
    · simp_all
  | both hre him =>
    simp only [text, Numeral.withSign, List.mem_append] at hc
    rcases hc with (hc | hc) | hc
    · exact hnumeral hre hc
    · split at hc
      · exact hnumeral him hc
      · rcases List.mem_cons.1 hc with rfl | hc
        · simp
        · exact hnumeral him hc
    · simp_all

theorem Legible.text_ne_nil {p : Parts} (h : p.Legible) : p.text ≠ [] := by
  cases h with
  | real h => exact h.ne_nil
  | imaginary h => simp [text]
  | both hre him => simp [text]

/-- A number alone is not taken for two: its sign is at the front. -/
theorem imaginary_ne_both {im re im' : List Char} (h : Numeral im) (hre : Numeral re) (him : Numeral im') :
    im ≠ re ++ Numeral.withSign im' := by
  rintro rfl
  obtain ⟨c, body, hsigned, hc, -⟩ := him.exists_withSign_eq
  obtain ⟨first, rest, rfl⟩ := List.exists_cons_of_ne_nil hre.ne_nil
  refine h.not_isSign_of_mem_tail ?_ hc
  simp [hsigned]

/-- The text of a scalar is put together in one way. -/
theorem Legible.text_injective {p q : Parts} (hp : p.Legible) (hq : q.Legible) (h : p.text = q.text) : p = q := by
  have hunit {t s : List Char} (ht : Numeral t) : t ≠ s ++ ['i'] := by
    rintro rfl
    exact ht.unit_not_mem (by simp)
  cases hp with
  | real hre =>
    cases hq with
    | real => exact congrArg _ h
    | imaginary => exact absurd h (hunit hre)
    | both => exact absurd h (hunit hre)
  | imaginary him =>
    cases hq with
    | real hre => exact absurd h.symm (hunit hre)
    | imaginary => exact congrArg _ (List.append_cancel_right h)
    | both hre' him' => exact absurd (List.append_cancel_right h) (imaginary_ne_both him hre' him')
  | both hre him =>
    cases hq with
    | real hre' => exact absurd h.symm (hunit hre')
    | imaginary him' => exact absurd (List.append_cancel_right h).symm (imaginary_ne_both him' hre him)
    | both hre' him' =>
      have hsum := List.append_cancel_right h
      obtain ⟨c, body, hsigned, hc, hbody⟩ := him.exists_withSign_eq
      obtain ⟨c', body', hsigned', hc', hbody'⟩ := him'.exists_withSign_eq
      rw [hsigned, hsigned'] at hsum
      obtain ⟨rfl, rfl, rfl⟩ := append_cons_inj_of_last hsum hbody hbody' hc hc'
      rw [Numeral.withSign_injective (hsigned.trans hsigned'.symm)]

end Parts

namespace Scalar

variable {a b : Scalar Float}

def partText (x : Float) : List Char := (NumberText.text x).toList

theorem numeral_partText {x : Float} (h : x.isFinite = true) : Numeral (partText x) := by
  obtain ⟨body, htext, hform⟩ := Decimal.exists_toList_ofFloat h
  change Numeral (Decimal.ofFloat x).toList
  rw [htext]
  split
  · exact .signed hform.nonempty fun c hc => hform.isDigit_or_point hc
  · exact .plain hform.nonempty fun c hc => hform.isDigit_or_point hc

theorem head?_partText {x : Float} (h : x.isFinite = true) (hzero : ¬ Component.isZero x = true) :
    (partText x).head? = some '-' ↔ x < 0 := by
  obtain ⟨body, htext, hform⟩ := Decimal.exists_toList_ofFloat h
  have hbody : body.head? ≠ some '-' := fun hhead =>
    Decimal.hyphen_not_mem hform (List.mem_of_mem_head? hhead)
  change (Decimal.ofFloat x).toList.head? = some '-' ↔ x < 0
  rw [htext]
  rcases Binary64.side_of_zero (Binary64.isNaN_of_isFinite h) (Bool.eq_false_iff.2 hzero) with
    ⟨-, hlt, -, hsign⟩ | ⟨hlt, -, -, hsign⟩
  · rw [if_neg (Bool.eq_false_iff.1 hsign)]
    exact iff_of_false hbody hlt
  · rw [if_pos hsign]
    exact iff_of_true rfl hlt

def parts (a : Scalar Float) : Parts :=
  if Component.isZero a.im then .real (partText a.re)
  else if Component.isZero a.re then .imaginary (partText a.im)
  else .both (partText a.re) (partText a.im)

theorem parts_eq (a : Scalar Float) :
    (Component.isZero a.im = true ∧ a.parts = .real (partText a.re)) ∨
    (Component.isZero a.re = true ∧ a.parts = .imaginary (partText a.im)) ∨
    a.parts = .both (partText a.re) (partText a.im) := by
  unfold parts
  split
  · next hreal => exact .inl ⟨hreal, rfl⟩
  · split
    · next himaginary => exact .inr (.inl ⟨himaginary, rfl⟩)
    · exact .inr (.inr rfl)

theorem legible_parts (h : a.isFinite = true) : a.parts.Legible := by
  obtain ⟨hre, him⟩ := Bool.and_eq_true_iff.1 h
  unfold parts
  split
  · exact .real (numeral_partText hre)
  · split
    · exact .imaginary (numeral_partText him)
    · exact .both (numeral_partText hre) (numeral_partText him)

theorem toList_text (h : a.isFinite = true) : a.text.toList = a.parts.text := by
  obtain ⟨hre, him⟩ := Bool.and_eq_true_iff.1 h
  unfold text parts
  split
  · rfl
  · next hzero =>
    split
    · simp [Parts.text, partText]
    · have hsign := head?_partText him hzero
      have hlt : ElementaryFunctions.lt a.im 0 = true ↔ a.im < 0 := decide_eq_true_iff
      rw [← hsign] at hlt
      simp only [Parts.text, Numeral.withSign, ← hlt]
      split <;> simp [partText]

theorem same_of_isZero {x y : Float} (hx : Component.isZero x = true) (hy : Component.isZero y = true) :
    Component.same x y = true := by
  obtain ⟨s, hs⟩ := (Binary64.isZero_iff_unpack x).1 hx
  obtain ⟨t, ht⟩ := (Binary64.isZero_iff_unpack y).1 hy
  change x.toModel.unpack.beq y.toModel.unpack = true
  rw [hs, ht]
  rfl

theorem same_of_partText_eq {x y : Float} (hx : x.isFinite = true) (hy : y.isFinite = true)
    (h : partText x = partText y) : Component.same x y = true := by
  obtain rfl := Decimal.ofFloat_injective hx hy (String.toList_inj.1 h)
  exact Binary64.beq_self_of_number (Binary64.isNaN_of_isFinite hx)

theorem same_of_text_eq (ha : a.isFinite = true) (hb : b.isFinite = true) (h : a.text = b.text) :
    a.same b = true := by
  have hparts : a.parts = b.parts := by
    refine (legible_parts ha).text_injective (legible_parts hb) ?_
    rw [← toList_text ha, ← toList_text hb, h]
  obtain ⟨hare, haim⟩ := Bool.and_eq_true_iff.1 ha
  obtain ⟨hbre, hbim⟩ := Bool.and_eq_true_iff.1 hb
  rw [same, Bool.and_eq_true_iff]
  rcases parts_eq a with ⟨hzero, hp⟩ | ⟨hzero, hp⟩ | hp <;>
    rcases parts_eq b with ⟨hzero', hq⟩ | ⟨hzero', hq⟩ | hq <;>
    rw [hp, hq] at hparts
  case inl.inl => exact ⟨same_of_partText_eq hare hbre (Parts.real.inj hparts), same_of_isZero hzero hzero'⟩
  case inr.inl.inr.inl =>
    exact ⟨same_of_isZero hzero hzero', same_of_partText_eq haim hbim (Parts.imaginary.inj hparts)⟩
  case inr.inr.inr.inr =>
    obtain ⟨hre, him⟩ := Parts.both.inj hparts
    exact ⟨same_of_partText_eq hare hbre hre, same_of_partText_eq haim hbim him⟩
  all_goals cases hparts

theorem text_legible (h : a.isFinite = true) : a.text.toList ≠ [] ∧ ',' ∉ a.text.toList := by
  rw [toList_text h]
  refine ⟨(legible_parts h).text_ne_nil, fun hcomma => ?_⟩
  exact absurd ((legible_parts h).mem_text hcomma) (by decide)

end Scalar

namespace OrientedVector

variable {v w : OrientedVector (Scalar Float)}

def enumeration (v : OrientedVector (Scalar Float)) : List Char :=
  [',', ' '].intercalate (v.items.map fun x => x.text.toList)

def closing : Space → List Char
  | .row => "]".toList
  | .column => "]'".toList

theorem toList_text (v : OrientedVector (Scalar Float)) :
    v.text.toList = '[' :: v.enumeration ++ closing v.space := by
  have hlisted : ("[" ++ ", ".intercalate (v.items.map Scalar.text) ++ "]").toList =
      '[' :: v.enumeration ++ [']'] := by
    simp [enumeration, String.toList_intercalate, Function.comp_def]
  unfold text
  cases v.space with
  | row => exact hlisted
  | column =>
    dsimp only
    rw [String.toList_append, hlisted]
    simp [closing]

theorem items_of_enumeration_eq (hv : ∀ x ∈ v.items, x.isFinite = true) (hw : ∀ x ∈ w.items, x.isFinite = true)
    (h : v.enumeration = w.enumeration) : v.items.map Scalar.text = w.items.map Scalar.text := by
  have hlegible {u : OrientedVector (Scalar Float)} (hu : ∀ x ∈ u.items, x.isFinite = true) :
      ∀ t ∈ u.items.map fun x => x.text.toList, t ≠ [] ∧ ',' ∉ t := by
    intro t ht
    obtain ⟨x, hx, rfl⟩ := List.mem_map.1 ht
    exact Scalar.text_legible (hu x hx)
  have htexts := intercalate_injective (hlegible hv) (hlegible hw) h
  have hinjective : Function.Injective String.toList := fun s t => String.toList_inj.1
  refine hinjective.list_map ?_
  rw [List.map_map, List.map_map]
  exact htexts

theorem sameItems_of_text_eq {xs ys : List (Scalar Float)} (hxs : ∀ x ∈ xs, x.isFinite = true)
    (hys : ∀ y ∈ ys, y.isFinite = true) (h : xs.map Scalar.text = ys.map Scalar.text) :
    RankedSeq.sameItems xs ys = true := by
  induction xs generalizing ys with
  | nil =>
    cases ys with
    | nil => rfl
    | cons y ys => cases h
  | cons x xs ih =>
    cases ys with
    | nil => cases h
    | cons y ys =>
      obtain ⟨hfirst, hrest⟩ := List.cons.inj h
      refine Bool.and_eq_true_iff.2 ⟨?_, ?_⟩
      · exact Scalar.same_of_text_eq (hxs x List.mem_cons_self) (hys y List.mem_cons_self) hfirst
      · exact ih (fun x hx => hxs x (List.mem_cons_of_mem _ hx))
          (fun y hy => hys y (List.mem_cons_of_mem _ hy)) hrest

/-- The text of a vector of finite scalars tells its space, its length and each of its entries. -/
theorem identified_by_text (hv : ∀ x ∈ v.items, x.isFinite = true) (hw : ∀ x ∈ w.items, x.isFinite = true)
    (h : v.text = w.text) :
    v.space = w.space ∧ v.length = w.length ∧ RankedSeq.sameItems v.items w.items = true := by
  have htext := congrArg String.toList h
  rw [toList_text, toList_text] at htext
  obtain ⟨hspace, henumeration⟩ : v.space = w.space ∧ v.enumeration = w.enumeration := by
    have hend := congrArg List.reverse htext
    cases hsv : v.space <;> cases hsw : w.space
    case row.row => exact ⟨rfl, by simpa [hsv, hsw] using htext⟩
    case column.column => exact ⟨rfl, by simpa [hsv, hsw] using htext⟩
    all_goals simp [hsv, hsw, closing] at hend
  have htexts := items_of_enumeration_eq hv hw henumeration
  have hlength := congrArg List.length htexts
  rw [List.length_map, List.length_map] at hlength
  exact ⟨hspace, hlength, sameItems_of_text_eq hv hw htexts⟩

theorem identified_by_text_column :
    (ofList .column [⟨0.1, -0⟩, ⟨-0, -2.5⟩] : OrientedVector (Scalar Float)).text = "[0.1, -2.5i]'" ∧
      RankedSeq.sameItems [⟨0.1, -0⟩, ⟨-0, -2.5⟩]
        ([⟨0.1, 0⟩, ⟨0, -2.5⟩] : List (Scalar Float)) = true := by
  have hcolumn : (ofList .column [⟨0.1, -0⟩, ⟨-0, -2.5⟩] : OrientedVector (Scalar Float)).text =
      "[0.1, -2.5i]'" := by
    decide +kernel
  have hcolumn' : (ofList .column [⟨0.1, 0⟩, ⟨0, -2.5⟩] : OrientedVector (Scalar Float)).text =
      "[0.1, -2.5i]'" := by
    decide +kernel
  exact ⟨hcolumn, (identified_by_text (by decide) (by decide) (hcolumn.trans hcolumn'.symm)).2.2⟩

end OrientedVector

end MatrixCalculator
