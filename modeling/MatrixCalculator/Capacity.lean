import MatrixCalculator.DenseMatrix
set_option autoImplicit false

/-!
How much can be stored. Lists have no greatest length, but a machine runs out of addresses: nothing
that is stored has more than `maxItems` items. A grid without rows stores nothing, however wide it
is; turning it, or multiplying by it, can ask for more rows or entries than there is room for. The
operations are defined all the same, and the checks here tell beforehand when not to start one.
-/

namespace MatrixCalculator

/-- The greatest number of items that a list in memory may have. -/
def maxItems : Nat := 0x200000000000000

def Shape.storable (s : Shape) : Bool :=
  s.rows ≤ maxItems && (s.rows == 0 || s.cols ≤ maxItems)

def Shape.flipped (s : Shape) : Shape := ⟨s.cols, s.rows⟩

namespace DenseMatrix

variable {α : Type}

def turnable (m : DenseMatrix α) : Bool := m.shape.flipped.storable

/-- Whether the product can be stored, or is refused before anything is. -/
def productStorable (a b : DenseMatrix α) : Bool :=
  a.colCount != b.rowCount || Shape.storable ⟨a.rowCount, b.colCount⟩

def rowProductStorable (v : OrientedVector α) (m : DenseMatrix α) : Bool :=
  v.space != .row || v.length != m.rowCount || Shape.storable ⟨1, m.colCount⟩

end DenseMatrix

theorem Shape.storable_of_le {s : Shape} (hr : s.rows ≤ maxItems) (hc : s.cols ≤ maxItems) :
    s.storable = true := by
  simp [storable, hr, hc]

end MatrixCalculator
