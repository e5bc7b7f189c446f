import MatrixCalculator.Scalar
set_option autoImplicit false

/-!
Conjugation of scalars. It undoes itself and keeps the rank wherever negation undoes itself and
keeps zeros and other numbers apart.
-/

namespace MatrixCalculator

/-- Negation undoes itself and turns nothing into zero that was not. -/
class LawfulNegation (β : Type) [Component β] : Prop where
  isZero_zero : Component.isZero (0 : β) = true
  isZero_neg (x : β) : Component.isZero (-x) = Component.isZero x
  neg_neg (x : β) : - -x = x

namespace Scalar

variable {β : Type} [Component β] [LawfulNegation β]

theorem conj_zero : (0 : Scalar β).conj = 0 := if_pos LawfulNegation.isZero_zero

theorem isReal_conj (x : Scalar β) : x.conj.isReal = x.isReal := by
  unfold conj
  split
  · rfl
  · exact LawfulNegation.isZero_neg x.im

theorem rank_conj (x : Scalar β) : x.conj.rank = x.rank := by
  have h := x.isReal_conj
  unfold isReal at h
  rw [rank, rank, h]

theorem conj_conj (x : Scalar β) : x.conj.conj = x := by
  have h := x.isReal_conj
  by_cases hreal : x.isReal = true
  · rw [conj, if_pos (h.trans hreal), conj, if_pos hreal]
  · rw [conj, h, if_neg hreal, conj, if_neg hreal, LawfulNegation.neg_neg]

theorem map_conj_map_conj (xs : List (Scalar β)) : (xs.map conj).map conj = xs := by
  rw [List.map_map, List.map_congr_left fun x _ => x.conj_conj, List.map_id']

end Scalar

end MatrixCalculator
