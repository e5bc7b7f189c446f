set_option autoImplicit false

/-!
How much of the complex plane a number or a container of numbers has used. Complex dominates real:
`join` is the least rank above two ranks, and `joinAll` the least rank above a list of them.
-/

namespace MatrixCalculator

inductive Rank where
  | real
  | complex
  deriving DecidableEq, Repr, Inhabited

def Rank.join : Rank → Rank → Rank
  | .real, r => r
  | .complex, _ => .complex

def Rank.joinAll : List Rank → Rank
  | [] => .real
  | r :: rs => r.join (joinAll rs)

instance : LE Rank := ⟨fun r s => r = .complex → s = .complex⟩

instance (r s : Rank) : Decidable (r ≤ s) := inferInstanceAs (Decidable (r = .complex → s = .complex))

theorem Rank.le_refl (r : Rank) : r ≤ r := id

theorem Rank.le_trans {r s t : Rank} (h : r ≤ s) (k : s ≤ t) : r ≤ t := k ∘ h

theorem Rank.le_join_left (r s : Rank) : r ≤ r.join s := by
  cases r <;> cases s <;> decide

theorem Rank.le_join_right (r s : Rank) : s ≤ r.join s := by
  cases r <;> cases s <;> decide

theorem Rank.join_eq_complex {r s : Rank} : r.join s = .complex ↔ r = .complex ∨ s = .complex := by
  cases r <;> cases s <;> decide

theorem Rank.le_join_of_le {r s : Rank} (h : r ≤ s) (t : Rank) : r ≤ s.join t :=
  le_trans h (s.le_join_left t)

theorem Rank.join_le_join {r s : Rank} (h : r ≤ s) (t : Rank) : r.join t ≤ s.join t := by
  intro hr
  rw [join_eq_complex] at hr ⊢
  exact hr.imp_left h

theorem Rank.joinAll_eq_complex {rs : List Rank} : joinAll rs = .complex ↔ .complex ∈ rs := by
  induction rs with
  | nil => simp [joinAll]
  | cons r rs ih => rw [joinAll, join_eq_complex, ih, List.mem_cons, eq_comm]

theorem Rank.le_joinAll {r : Rank} {rs : List Rank} (h : r ∈ rs) : r ≤ joinAll rs := by
  rintro rfl
  exact joinAll_eq_complex.2 h

end MatrixCalculator
