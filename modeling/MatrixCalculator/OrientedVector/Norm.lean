import MatrixCalculator.OrientedVector.Arithmetic
set_option autoImplicit false

/-!
Length, direction and angle of vectors of scalars. The norm is the root of the sum of the products
of each entry with its conjugate; a norm that compares equal to zero has no direction and no angle.
-/

namespace MatrixCalculator.OrientedVector

variable {β : Type} [ElementaryFunctions β]

def normSquared (v : OrientedVector (Scalar β)) : Scalar β :=
  v.items.foldl (fun acc x => acc + x * x.conj) 0

def norm (v : OrientedVector (Scalar β)) : Scalar β := v.normSquared.sqrt

def unit (v : OrientedVector (Scalar β)) : Except Error (OrientedVector (Scalar β)) :=
  if v.norm.isZero then .error .zeroNorm else .ok (v.divide v.norm)

/-- The cosine of the angle is the dot product over the product of the norms; the spaces of the
two vectors do not matter. -/
def angle (v w : OrientedVector (Scalar β)) : Except Error (Scalar β) :=
  if v.length = w.length then
    let norms := v.norm * w.norm
    if norms.isZero then .error .zeroNorm else .ok (v.dot w / norms).acos
  else .error (.dimensionMismatch .vectorAngle v.shape w.shape)

end MatrixCalculator.OrientedVector
