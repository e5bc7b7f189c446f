import MatrixCalculator.Checked
set_option autoImplicit false

/-!
How a run ends that may be refused: in a state with a property, or with a reason of a certain kind.
A refusal has a place: everything before it went well.
-/

namespace MatrixCalculator

variable {ε σ τ α : Type} {P : σ → Prop} {Q : τ → Prop} {E : ε → Prop}

def Ends (P : σ → Prop) (E : ε → Prop) : Except ε σ → Prop
  | .ok s => P s
  | .error e => E e

theorem Ends.bind {x : Except ε σ} {f : σ → Except ε τ} (hx : Ends P E x)
    (hf : ∀ s, P s → Ends Q E (f s)) : Ends Q E (x >>= f) := by
  cases x with
  | ok s => exact hf s hx
  | error e => exact hx

theorem Ends.mono {P' : σ → Prop} {E' : ε → Prop} {x : Except ε σ} (hx : Ends P E x)
    (hP : ∀ s, P s → P' s) (hE : ∀ e, E e → E' e) : Ends P' E' x := by
  cases x with
  | ok s => exact hP s hx
  | error e => exact hE e hx

theorem ends_true (x : Except ε σ) : Ends (fun _ => True) (fun _ => True) x := by
  cases x <;> trivial

theorem Ends.map {x : Except ε σ} {f : σ → τ} (hx : Ends P E x) (hf : ∀ s, P s → Q (f s)) :
    Ends Q E (f <$> x) := by
  cases x with
  | ok s => exact hf s hx
  | error e => exact hx

theorem ends_eq_ok (x : Except ε σ) : Ends (x = .ok ·) (fun _ => True) x := by
  cases x with
  | ok s => rfl
  | error e => trivial

/-- What one step keeps, a run over a list keeps. -/
theorem Ends.foldlM {f : σ → α → Except ε σ} {xs : List α}
    (hf : ∀ s, ∀ x ∈ xs, P s → Ends P E (f s x)) {s : σ} (hs : P s) :
    Ends P E (xs.foldlM f s) := by
  induction xs generalizing s with
  | nil => exact hs
  | cons x xs ih =>
    rw [List.foldlM_cons]
    refine (hf s x List.mem_cons_self hs).bind fun t ht => ?_
    exact ih (fun s y hy => hf s y (List.mem_cons_of_mem x hy)) ht

theorem Ends.mapM {f : α → Except ε σ} {xs : List α} (hf : ∀ x ∈ xs, Ends P E (f x)) :
    Ends (fun ys => ys.length = xs.length ∧ ∀ y ∈ ys, P y) E (xs.mapM f) := by
  induction xs with
  | nil => exact ⟨rfl, by simp⟩
  | cons x xs ih =>
    rw [List.mapM_cons]
    refine (hf x List.mem_cons_self).bind fun y hy => ?_
    refine (ih fun z hz => hf z (List.mem_cons_of_mem x hz)).bind fun ys hys => ?_
    exact ⟨congrArg Nat.succ hys.1, List.forall_mem_cons.2 ⟨hy, hys.2⟩⟩

theorem Ends.and {P' : σ → Prop} {E' : ε → Prop} {x : Except ε σ} (hx : Ends P E x)
    (hx' : Ends P' E' x) : Ends (fun s => P s ∧ P' s) (fun e => E e ∧ E' e) x := by
  cases x with
  | ok s => exact ⟨hx, hx'⟩
  | error e => exact ⟨hx, hx'⟩

theorem Ends.of_eq_ok {x : Except ε σ} {s : σ} (h : Ends P E x) (hx : x = .ok s) : P s := by
  subst hx
  exact h

theorem Ends.exists_ok {x : Except ε σ} (h : Ends P (fun _ => False) x) : ∃ s, x = .ok s ∧ P s := by
  cases x with
  | ok s => exact ⟨s, rfl, h⟩
  | error e => exact h.elim

theorem bind_eq_ok_iff {x : Except ε σ} {f : σ → Except ε τ} {t : τ} :
    x.bind f = .ok t ↔ ∃ s, x = .ok s ∧ f s = .ok t := by
  cases x <;> simp [Except.bind]

theorem map_eq_ok_iff {x : Except ε σ} {f : σ → τ} {t : τ} :
    x.map f = .ok t ↔ ∃ s, x = .ok s ∧ f s = t := by
  cases x <;> simp [Except.map]

theorem foldlM_eq_error_iff {f : σ → α → Except ε σ} {xs : List α} {s : σ} {e : ε} :
    xs.foldlM f s = .error e ↔ ∃ before x after t, xs = before ++ x :: after ∧
      before.foldlM f s = .ok t ∧ f t x = .error e := by
  constructor
  · intro h
    induction xs generalizing s with
    | nil => cases h
    | cons x xs ih =>
      rw [List.foldlM_cons] at h
      cases hx : f s x with
      | error e' =>
        rw [hx] at h
        cases h
        exact ⟨[], x, xs, s, rfl, rfl, hx⟩
      | ok t =>
        rw [hx] at h
        obtain ⟨before, y, after, u, rfl, hbefore, hy⟩ := ih h
        refine ⟨x :: before, y, after, u, rfl, ?_, hy⟩
        rw [List.foldlM_cons, hx]
        exact hbefore
  · rintro ⟨before, x, after, t, rfl, hbefore, hx⟩
    rw [List.foldlM_append, hbefore]
    simp [bind, Except.bind, hx]

end MatrixCalculator
