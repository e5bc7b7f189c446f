import MatrixCalculator.Error
set_option autoImplicit false

/-!
What an in-place change leaves behind: the container as it stands afterwards and, when the change
was refused, the reason. A refused change still has a state, so that "nothing was touched" is a
statement about it.
-/

namespace MatrixCalculator

structure Update (σ : Type) where
  state : σ
  refusal : Option Error

def Update.done {σ : Type} (s : σ) : Update σ := ⟨s, none⟩

def Update.refused {σ : Type} (e : Error) (s : σ) : Update σ := ⟨s, some e⟩

def Update.map {σ τ : Type} (f : σ → τ) (u : Update σ) : Update τ := ⟨f u.state, u.refusal⟩

def Update.result {σ : Type} (u : Update σ) : Except Error σ :=
  match u.refusal with
  | none => .ok u.state
  | some e => .error e

theorem Update.result_eq_ok {σ : Type} {u : Update σ} {s : σ} :
    u.result = .ok s ↔ u.refusal = none ∧ u.state = s := by
  unfold result
  split <;> simp [*]

theorem Update.refusal_map {σ τ : Type} (f : σ → τ) (u : Update σ) :
    (u.map f).refusal = u.refusal := rfl

end MatrixCalculator
