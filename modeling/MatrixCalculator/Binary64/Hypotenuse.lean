import MatrixCalculator.Binary64.Fields
set_option autoImplicit false

/-!
The hypotenuse over two legs. Each leg is squared exactly, as a rounded square and its remainder;
the parts are added from the smallest to the greatest before the root is taken. Legs whose squares
could leave the range are scaled by a power of two first.
-/

namespace MatrixCalculator.Binary64

/-- The square of a number as a rounded square and the remainder it misses. The factor splits the
number into two halves whose products are exact. -/
def squareExact (x : Float) : Float × Float :=
  let c := x * 134217729
  let high := x - c + c
  let low := x - high
  let square := x * x
  (square, high * high - square + 2 * high * low + low * low)

def rootOfSquares (x y : Float) : Float :=
  let (xs, xr) := squareExact x
  let (ys, yr) := squareExact y
  (yr + xr + ys + xs).sqrt

def scaleUp : Float := Float.ofBits 0x6bb0000000000000

def scaleDown : Float := Float.ofBits 0x1430000000000000

def orderedHypotenuse (x y : Float) : Float :=
  if exponentBits y = 0x7ff then y
  else if exponentBits x = 0x7ff || y == 0 then x
  else if exponentBits x - exponentBits y > 64 then x + y
  else if exponentBits x > 1023 + 510 then scaleUp * rootOfSquares (x * scaleDown) (y * scaleDown)
  else if exponentBits y < 1023 - 450 then scaleDown * rootOfSquares (x * scaleUp) (y * scaleUp)
  else rootOfSquares x y

/-- An infinite leg makes the hypotenuse infinite, whatever the other leg is. -/
def hypotenuse (x y : Float) : Float :=
  let x := x.abs
  let y := y.abs
  if x.isInf || y.isInf then Float.ofBits 0x7ff0000000000000
  else if x.toBits < y.toBits then orderedHypotenuse y x else orderedHypotenuse x y

end MatrixCalculator.Binary64
