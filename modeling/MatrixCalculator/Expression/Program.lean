import MatrixCalculator.Expression.Token
set_option autoImplicit false

/-!
Postfix programs: the slots to run from left to right, and the variables they were compiled against.
-/

namespace MatrixCalculator

inductive Slot (β : Type) where
  | constant (x : Operand β)
  /-- A variable and the place of its operand among the inputs. -/
  | variable (v : Variable) (position : Nat)
  | operation (op : Operator)
  deriving DecidableEq, Repr

inductive SlotKind where
  | constant
  | variable
  | operation
  deriving DecidableEq, Repr

def Slot.kind {β : Type} : Slot β → SlotKind
  | .constant _ => .constant
  | .variable _ _ => .variable
  | .operation _ => .operation

structure Program (β : Type) where
  registered : List Variable
  slots : List (Slot β)
  deriving DecidableEq, Repr

namespace Program

variable {β : Type}

def length (p : Program β) : Nat := p.slots.length

def isEmpty (p : Program β) : Bool := p.slots.isEmpty

def variableCount (p : Program β) : Nat := p.registered.length

def slotKind? (p : Program β) (i : Nat) : Option SlotKind := p.slots[i]?.map Slot.kind

def checkKinds : List Variable → List (Operand β) → Except Error Unit
  | v :: vs, x :: xs => do
    v.accepts x
    checkKinds vs xs
  | _, _ => .ok ()

/-- One input of the right kind for each registered variable, used by the program or not. -/
def checkInputs (p : Program β) (inputs : List (Operand β)) : Except Error Unit :=
  if inputs.length = p.variableCount then checkKinds p.registered inputs
  else .error (.arityMismatch p.variableCount inputs.length)

theorem checkKinds_eq_ok {vs : List Variable} {xs : List (Operand β)} (h : xs.length = vs.length) :
    checkKinds vs xs = .ok () ↔ xs.map Operand.kind = vs.map Variable.kind := by
  induction vs generalizing xs with
  | nil => simp_all [checkKinds]
  | cons v vs ih =>
    cases xs with
    | nil => simp at h
    | cons x xs =>
      by_cases hk : x.kind = v.kind
      · simpa [checkKinds, Variable.accepts, hk, bind, Except.bind] using ih (Nat.succ.inj h)
      · simp [checkKinds, Variable.accepts, hk, bind, Except.bind]

theorem checkInputs_eq_ok {p : Program β} {xs : List (Operand β)} :
    p.checkInputs xs = .ok () ↔ xs.map Operand.kind = p.registered.map Variable.kind := by
  unfold checkInputs
  split
  · next h => exact checkKinds_eq_ok h
  · next h =>
    refine iff_of_false (by simp) fun hk => h ?_
    simpa [variableCount] using congrArg List.length hk

end Program

end MatrixCalculator
