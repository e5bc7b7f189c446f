import MatrixCalculator.Capacity
import MatrixCalculator.Expression.Evaluate
set_option autoImplicit false

/-!
Whether a run of a program stays within what can be stored. The run is followed slot by slot; it
stays within the limit when it ends, with a result or an error, before a product is due that cannot
be stored.
-/

namespace MatrixCalculator

variable {β : Type} [ElementaryFunctions β]

/-- Only products can have a shape far greater than those of their operands. -/
def BinaryOp.storable {β : Type} : BinaryOp → Operand β → Operand β → Bool
  | .multiply, .matrix m, .matrix n => m.productStorable n
  | .multiply, .vector v, .matrix m => DenseMatrix.rowProductStorable v m
  | _, _, _ => true

def Slot.storable {β : Type} (stack : List (Operand β)) : Slot β → Bool
  | .operation (.binary op) =>
    match stack with
    | right :: left :: _ => op.storable left right
    | _ => true
  | _ => true

def Slot.allStorable (inputs : List (Operand β)) : List (Operand β) → List (Slot β) → Bool
  | _, [] => true
  | stack, slot :: slots =>
    slot.storable stack &&
      match slot.execute inputs stack with
      | .ok stack => allStorable inputs stack slots
      | .error _ => true

/-- Whether a run on these inputs stays within the limit; one that is refused at the door does. -/
def Program.storable (p : Program β) (inputs : List (Operand β)) : Bool :=
  match p.checkInputs inputs with
  | .ok () => Slot.allStorable inputs [] p.slots
  | .error _ => true

end MatrixCalculator
