import Mathlib.Data.List.Nodup
import MatrixCalculator.Proofs.Expression.Conservation
import MatrixCalculator.Proofs.Expression.Running
set_option autoImplicit false

/-!
Variables of compiled programs find their inputs. Ids are what variables are told apart by, so those
that are registered and those among the tokens have to agree on the kind that goes with an id.
-/

namespace MatrixCalculator

variable {β : Type}

/-- An id goes with one kind, as it does wherever each variable is made with an id of its own. -/
def Consistent (registered : List Variable) (tokens : List (Token β)) : Prop :=
  ∀ v, .variable v ∈ tokens → ∀ w ∈ registered, w.id = v.id → w.kind = v.kind

theorem consistent_of_mem {registered : List Variable} {tokens : List (Token β)}
    (distinct : (registered.map Variable.id).Nodup)
    (known : ∀ v, .variable v ∈ tokens → v ∈ registered) : Consistent registered tokens := by
  intro v hv w hw hid
  rw [List.inj_on_of_nodup_map distinct hw (known v hv) hid]

def Slot.Bound (inputs : List (Operand β)) : Slot β → Prop
  | .constant _ | .operation _ => True
  | .variable v position => ∃ x, inputs[position]? = some x ∧ Slot.input inputs v position = .ok x

variable [ElementaryFunctions β] {registered : List Variable} {tokens : List (Token β)}
  {inputs : List (Operand β)} {p : Program β}

theorem registered_of_compile (compiled : compile registered tokens = .ok p) :
    p.registered = registered := by
  obtain ⟨-, emitted, waiting, -, rfl⟩ := compile_eq_ok_iff.1 compiled
  rfl

theorem registered_of_mem_compile (consistent : Consistent registered tokens)
    (compiled : compile registered tokens = .ok p) {v : Variable} {position : Nat}
    (h : .variable v position ∈ p.slots) : registered[position]? = some v := by
  obtain ⟨t, ht, hholds⟩ := holds_of_mem_compile compiled h rfl
  cases hholds with
  | @«variable» v w position found same =>
    have hkind := consistent v ht w (List.mem_of_getElem? found) same
    have hw : w = v := by cases v; cases w; simp_all
    exact hw ▸ found

theorem bound_of_compile (consistent : Consistent registered tokens)
    (kinds : inputs.map Operand.kind = registered.map Variable.kind)
    (compiled : compile registered tokens = .ok p) : ∀ slot ∈ p.slots, slot.Bound inputs := by
  intro slot hslot
  cases slot with
  | constant x => trivial
  | «variable» v position =>
    exact Slot.input_eq_ok kinds (registered_of_mem_compile consistent compiled hslot)
  | operation op => trivial

end MatrixCalculator
