import MatrixCalculator.Component
import MatrixCalculator.Binary64.Integral
set_option autoImplicit false

/-!
64-bit floating numbers as components of scalars. Arithmetic and comparison are those of the numbers
themselves, rounded once, to nearest. The functions come from a mathematical library; which one it is
stays open here.
-/

namespace MatrixCalculator.Binary64

def pi : Float := 3.141592653589793

/-- The functions that a mathematical library provides. -/
class Library where
  abs : Float → Float
  sqrt : Float → Float
  truncated : Float → Float
  exp : Float → Float
  ln : Float → Float
  sin : Float → Float
  cos : Float → Float
  tan : Float → Float
  asin : Float → Float
  acos : Float → Float
  atan : Float → Float
  sinh : Float → Float
  cosh : Float → Float
  tanh : Float → Float
  asinh : Float → Float
  acosh : Float → Float
  atanh : Float → Float
  /-- The ordinate comes first. -/
  atan2 : Float → Float → Float
  hypot : Float → Float → Float
  pow : Float → Float → Float

/-- The number is cut by the library first; a word holds what is left as far as it can. -/
def wholePart [Library] (x : Float) : Int := toWord (Library.truncated x)

instance : Component Float where
  same x y := x == y

instance [Library] : ElementaryFunctions Float where
  lt x y := x < y
  le x y := x ≤ y
  isFinite := Float.isFinite
  ofInt := Float.ofInt
  truncated := Library.truncated
  wholePart := wholePart
  pi := pi
  infinity := Float.ofBits 0x7ff0000000000000
  abs := Library.abs
  sqrt := Library.sqrt
  exp := Library.exp
  ln := Library.ln
  sin := Library.sin
  cos := Library.cos
  tan := Library.tan
  asin := Library.asin
  acos := Library.acos
  atan := Library.atan
  sinh := Library.sinh
  cosh := Library.cosh
  tanh := Library.tanh
  asinh := Library.asinh
  acosh := Library.acosh
  atanh := Library.atanh
  atan2 := Library.atan2
  hypot := Library.hypot
  pow := Library.pow

end MatrixCalculator.Binary64
