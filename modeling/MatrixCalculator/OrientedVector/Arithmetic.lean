import MatrixCalculator.OrientedVector
set_option autoImplicit false

/-!
Sums, scaling and the inner product of vectors. Sums want one space and one length; the inner
product takes a row and a column of one length, and adds its terms from the left, starting at zero.
-/

namespace MatrixCalculator.OrientedVector

variable {α : Type} [Entry α]

def mapItems (f : α → α) (v : OrientedVector α) : OrientedVector α :=
  ofList v.space (v.items.map f)

def zipItems (operation : Operation) (f : α → α → α) (v w : OrientedVector α) :
    Except Error (OrientedVector α) :=
  if v.space = w.space ∧ v.length = w.length then .ok (ofList v.space (v.items.zipWith f w.items))
  else .error (.dimensionMismatch operation v.shape w.shape)

def add (v w : OrientedVector α) : Except Error (OrientedVector α) :=
  zipItems .vectorAddition (· + ·) v w

def sub (v w : OrientedVector α) : Except Error (OrientedVector α) :=
  zipItems .vectorSubtraction (· - ·) v w

def scale (v : OrientedVector α) (s : α) : OrientedVector α := v.mapItems (· * s)

def divide (v : OrientedVector α) (s : α) : OrientedVector α := v.mapItems (· / s)

/-- The sum of the products of the entries in equal places, whatever the spaces. -/
def dot (v w : OrientedVector α) : α :=
  (v.items.zip w.items).foldl (fun acc p => acc + p.1 * p.2) 0

def inner (v w : OrientedVector α) : Except Error α :=
  if v.space = .row ∧ w.space = .column ∧ v.length = w.length then .ok (v.dot w)
  else .error (.dimensionMismatch .innerProduct v.shape w.shape)

end MatrixCalculator.OrientedVector
