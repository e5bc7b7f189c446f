set_option autoImplicit false

/-!
Runs over a list in which every step may be refused. A run without a refusal is the plain run.
-/

namespace MatrixCalculator

theorem mapM_of_ok {ε α β : Type} {f : α → Except ε β} {g : α → β} {xs : List α}
    (h : ∀ x ∈ xs, f x = .ok (g x)) : xs.mapM f = .ok (xs.map g) := by
  induction xs with
  | nil => rfl
  | cons x xs ih =>
    rw [List.mapM_cons, h x List.mem_cons_self, ih fun y hy => h y (List.mem_cons_of_mem x hy)]
    rfl

/-- Each step need only be free of refusals where the steps before it lead. -/
theorem foldlM_of_invariant {ε σ α : Type} {f : σ → α → Except ε σ} {g : σ → α → σ} {P : σ → Prop}
    {xs : List α} (h : ∀ s, P s → ∀ x ∈ xs, f s x = .ok (g s x) ∧ P (g s x)) {s : σ} (hs : P s) :
    xs.foldlM f s = .ok (xs.foldl g s) := by
  induction xs generalizing s with
  | nil => rfl
  | cons x xs ih =>
    obtain ⟨hstep, hnext⟩ := h s hs x List.mem_cons_self
    rw [List.foldlM_cons, hstep, List.foldl_cons]
    exact ih (fun t ht y hy => h t ht y (List.mem_cons_of_mem x hy)) hnext

theorem foldlM_of_ok {ε σ α : Type} {f : σ → α → Except ε σ} {g : σ → α → σ} {xs : List α}
    (h : ∀ s, ∀ x ∈ xs, f s x = .ok (g s x)) (s : σ) : xs.foldlM f s = .ok (xs.foldl g s) :=
  foldlM_of_invariant (P := fun _ => True) (fun t _ x hx => ⟨h t x hx, trivial⟩) trivial

end MatrixCalculator
