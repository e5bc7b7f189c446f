import MatrixCalculator.Binary64.Library
import MatrixCalculator.Binary64.Hypotenuse
import MatrixCalculator.Binary64.Logarithm
set_option autoImplicit false

/-!
The library that calculations run with. Roots are rounded once, to nearest; on the real axis angles are
exact, a zero or a half turn with the sign of the ordinate.
-/

namespace MatrixCalculator.Binary64

/-- The angle of the point with ordinate `y` and abscissa `x`. The sign of a zero ordinate tells
on which side of the negative axis the point lies. -/
def angle (y x : Float) : Float :=
  if y == 0 && !x.isNaN then
    if isNegative x then (if isNegative y then -pi else pi) else y
  else Float.atan2 y x

instance : Library where
  abs := Float.abs
  sqrt := Float.sqrt
  truncated := truncated
  exp := Float.exp
  ln := ln
  sin := Float.sin
  cos := Float.cos
  tan := Float.tan
  asin := Float.asin
  acos := Float.acos
  atan := Float.atan
  sinh := Float.sinh
  cosh := Float.cosh
  tanh := Float.tanh
  asinh := Float.asinh
  acosh := Float.acosh
  atanh := Float.atanh
  atan2 := angle
  hypot := hypotenuse
  pow := Float.pow

end MatrixCalculator.Binary64
