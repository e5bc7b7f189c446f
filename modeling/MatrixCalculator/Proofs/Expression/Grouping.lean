import Mathlib.Data.List.Induction
import MatrixCalculator.Proofs.Expression.Reading
set_option autoImplicit false

/-!
Which parentheses are open after some tokens. `OpenAt` says it by counting; `openGroups` lists the
places, innermost first, by reading once from left to right. Operators have no part in either.
-/

namespace MatrixCalculator

variable {β : Type}

def Token.isParenthesis (p : Parenthesis) : Token β → Bool
  | .symbol name => name == p.symbol
  | _ => false

def parentheses (p : Parenthesis) (tokens : List (Token β)) : Nat :=
  tokens.countP (Token.isParenthesis p)

/-- An opening parenthesis stands at place `j`, and no initial part of what follows it has more
closing parentheses than opening ones. -/
def OpenAt (tokens : List (Token β)) (j : Nat) : Prop :=
  tokens[j]? = some (.symbol Parenthesis.opening.symbol) ∧
  ∀ inner, inner <+: tokens.drop (j + 1) →
    parentheses .closing inner ≤ parentheses .opening inner

def regroup (index : Nat) (groups : List Nat) (t : Token β) : List Nat :=
  if t.isParenthesis .opening then index :: groups
  else if t.isParenthesis .closing then groups.tail
  else groups

def openGroups (tokens : List (Token β)) : List Nat :=
  tokens.zipIdx.foldl (fun groups p => regroup p.2 groups p.1) []

theorem openGroups_append (tokens : List (Token β)) (t : Token β) :
    openGroups (tokens ++ [t]) = regroup tokens.length (openGroups tokens) t := by
  simp [openGroups, List.zipIdx_append]

theorem Token.isParenthesis_iff {p : Parenthesis} {t : Token β} :
    t.isParenthesis p = true ↔ t = .symbol p.symbol := by
  cases t <;> simp [isParenthesis]

theorem Token.not_closing_of_opening {t : Token β} (h : t.isParenthesis .opening = true) :
    t.isParenthesis .closing = false := by
  rw [isParenthesis_iff.1 h]
  exact Bool.eq_false_iff.2 (by simp [isParenthesis, Parenthesis.symbol])

theorem parentheses_append (p : Parenthesis) (xs ys : List (Token β)) :
    parentheses p (xs ++ ys) = parentheses p xs + parentheses p ys := List.countP_append

theorem parentheses_singleton (p : Parenthesis) (t : Token β) :
    parentheses p [t] = (t.isParenthesis p).toNat := by
  cases h : t.isParenthesis p <;> simp [parentheses, h]

theorem lt_length_of_openAt {tokens : List (Token β)} {j : Nat} (h : OpenAt tokens j) :
    j < tokens.length := (List.getElem?_eq_some_iff.1 h.1).1

theorem openAt_length {tokens : List (Token β)} {t : Token β} :
    OpenAt (tokens ++ [t]) tokens.length ↔ t.isParenthesis .opening = true := by
  rw [Token.isParenthesis_iff]
  refine ⟨fun h => by simpa using h.1, fun h => ⟨by simp [h], fun inner hi => ?_⟩⟩
  have hnil : inner = [] := by simpa using hi
  rw [hnil]
  exact Nat.le_refl 0

theorem drop_succ_append {tokens : List (Token β)} {t : Token β} {j : Nat} (hj : j < tokens.length) :
    (tokens ++ [t]).drop (j + 1) = tokens.drop (j + 1) ++ [t] := List.drop_append_of_le_length hj

/-- A further token closes nothing, unless it makes the closing parentheses too many. -/
theorem openAt_append {tokens : List (Token β)} {t : Token β} {j : Nat} (hj : j < tokens.length) :
    OpenAt (tokens ++ [t]) j ↔ OpenAt tokens j ∧
      parentheses .closing (tokens.drop (j + 1) ++ [t]) ≤
        parentheses .opening (tokens.drop (j + 1) ++ [t]) := by
  simp only [OpenAt, List.getElem?_append_left hj, drop_succ_append hj, List.prefix_concat_iff, and_assoc]
  refine and_congr_right fun _ => ⟨fun h => ⟨fun inner hi => h inner (.inr hi), h _ (.inl rfl)⟩, ?_⟩
  rintro ⟨h, hlast⟩ inner (rfl | hi)
  · exact hlast
  · exact h inner hi

/-- The groups are the open ones, innermost first, and each has as many unclosed openings after it
as there are groups before it in the list. -/
structure Tracks (tokens : List (Token β)) (groups : List Nat) : Prop where
  descending : groups.Pairwise (· > ·)
  mem_iff : ∀ j, j ∈ groups ↔ OpenAt tokens j
  depth : ∀ d j, groups[d]? = some j →
    parentheses .opening (tokens.drop (j + 1)) = parentheses .closing (tokens.drop (j + 1)) + d

namespace Tracks

variable {tokens : List (Token β)} {groups : List Nat} {t : Token β}

theorem lt_length (h : Tracks tokens groups) {j : Nat} (hj : j ∈ groups) : j < tokens.length :=
  lt_length_of_openAt ((h.mem_iff j).1 hj)

theorem opening (h : Tracks tokens groups) (ht : t.isParenthesis .opening = true) :
    Tracks (tokens ++ [t]) (tokens.length :: groups) := by
  have hc := Token.not_closing_of_opening ht
  refine ⟨List.pairwise_cons.2 ⟨fun j hj => h.lt_length hj, h.descending⟩, fun j => ?_, fun d j hd => ?_⟩
  · rcases Nat.lt_trichotomy j tokens.length with hj | rfl | hj
    · rw [List.mem_cons, openAt_append hj, h.mem_iff]
      refine ⟨fun hm => ?_, fun hm => .inr hm.1⟩
      have ho := hm.resolve_left (Nat.ne_of_lt hj)
      have hall := ho.2 _ List.prefix_rfl
      simp only [parentheses_append, parentheses_singleton, ht, hc, Bool.toNat_true, Bool.toNat_false]
      exact ⟨ho, by omega⟩
    · exact iff_of_true List.mem_cons_self (openAt_length.2 ht)
    · refine iff_of_false (fun hm => ?_) (fun ho => ?_)
      · rcases List.mem_cons.1 hm with rfl | hm
        · omega
        · have := h.lt_length hm
          omega
      · have := lt_length_of_openAt ho
        simp at this
        omega
  · cases d with
    | zero =>
      obtain rfl : tokens.length = j := by simpa using hd
      simp [parentheses]
    | succ d =>
      have hd : groups[d]? = some j := by simpa using hd
      have hj := h.lt_length (List.mem_of_getElem? hd)
      have := h.depth d j hd
      rw [drop_succ_append hj]
      simp only [parentheses_append, parentheses_singleton, ht, hc, Bool.toNat_true, Bool.toNat_false]
      omega

theorem not_openAt_of_length_le (ht : t.isParenthesis .opening = false) {j : Nat}
    (hj : tokens.length ≤ j) : ¬ OpenAt (tokens ++ [t]) j := by
  intro ho
  have hl := lt_length_of_openAt ho
  obtain rfl : tokens.length = j := by
    simp at hl
    omega
  rw [openAt_length.1 ho] at ht
  cases ht

theorem closing (h : Tracks tokens groups) (ht : t.isParenthesis .opening = false)
    (hc : t.isParenthesis .closing = true) : Tracks (tokens ++ [t]) groups.tail := by
  refine ⟨h.descending.tail, fun j => ?_, fun d j hd => ?_⟩
  · rcases Nat.lt_or_ge j tokens.length with hj | hj
    · rw [openAt_append hj, ← h.mem_iff, List.mem_iff_getElem?, List.mem_iff_getElem?]
      simp only [List.getElem?_tail, parentheses_append, parentheses_singleton, ht, hc,
        Bool.toNat_true, Bool.toNat_false]
      constructor
      · rintro ⟨d, hd⟩
        have := h.depth (d + 1) j hd
        exact ⟨⟨d + 1, hd⟩, by omega⟩
      · rintro ⟨⟨d, hd⟩, hle⟩
        have := h.depth d j hd
        obtain ⟨d', rfl⟩ : ∃ d', d = d' + 1 := ⟨d - 1, by omega⟩
        exact ⟨d', hd⟩
    · refine iff_of_false (fun hm => ?_) (not_openAt_of_length_le ht hj)
      have := h.lt_length (List.mem_of_mem_tail hm)
      omega
  · rw [List.getElem?_tail] at hd
    have hj := h.lt_length (List.mem_of_getElem? hd)
    have := h.depth (d + 1) j hd
    rw [drop_succ_append hj]
    simp only [parentheses_append, parentheses_singleton, ht, hc, Bool.toNat_true, Bool.toNat_false]
    omega

theorem other (h : Tracks tokens groups) (ht : t.isParenthesis .opening = false)
    (hc : t.isParenthesis .closing = false) : Tracks (tokens ++ [t]) groups := by
  refine ⟨h.descending, fun j => ?_, fun d j hd => ?_⟩
  · rcases Nat.lt_or_ge j tokens.length with hj | hj
    · rw [openAt_append hj, h.mem_iff]
      simp only [parentheses_append, parentheses_singleton, ht, hc, Bool.toNat_false, Nat.add_zero]
      exact ⟨fun ho => ⟨ho, ho.2 _ List.prefix_rfl⟩, And.left⟩
    · refine iff_of_false (fun hm => ?_) (not_openAt_of_length_le ht hj)
      have := h.lt_length hm
      omega
  · have hj := h.lt_length (List.mem_of_getElem? hd)
    rw [drop_succ_append hj]
    simp only [parentheses_append, parentheses_singleton, ht, hc, Bool.toNat_false, Nat.add_zero]
    exact h.depth d j hd

end Tracks

theorem tracks_openGroups (tokens : List (Token β)) : Tracks tokens (openGroups tokens) := by
  induction tokens using List.reverseRecOn with
  | nil => refine ⟨.nil, fun j => ?_, ?_⟩ <;> simp [openGroups, OpenAt]
  | append_singleton tokens t ih =>
    rw [openGroups_append, regroup]
    cases ht : t.isParenthesis .opening with
    | true => exact ih.opening ht
    | false =>
      cases hc : t.isParenthesis .closing with
      | true => exact ih.closing ht hc
      | false => exact ih.other ht hc

theorem exists_openAt_iff {tokens : List (Token β)} :
    (∃ j, OpenAt tokens j) ↔ openGroups tokens ≠ [] := by
  simp only [← (tracks_openGroups tokens).mem_iff]
  exact ⟨fun ⟨_, hj⟩ => List.ne_nil_of_mem hj, List.exists_mem_of_ne_nil _⟩

end MatrixCalculator
