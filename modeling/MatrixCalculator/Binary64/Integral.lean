import MatrixCalculator.Binary64.Fields
set_option autoImplicit false

/-!
Whole parts of 64-bit floating numbers. Below 2^52 a number is cut through a machine word; from
there on every number is whole.
-/

namespace MatrixCalculator.Binary64

/-- The number without its fraction. A zero that results keeps the sign. -/
def truncated (x : Float) : Float :=
  if x.abs < 4503599627370496 then
    let whole := x.abs.toUInt64.toFloat
    if isNegative x then -whole else whole
  else x

/-- The cast to a signed 64-bit word: the number is cut towards zero and held between -2^63 and
2^63 - 1; what is not a number counts as zero. -/
def toWord (x : Float) : Int :=
  let magnitude : Int := x.abs.toUInt64.toNat
  if isNegative x then max (-magnitude) Int64.minValue.toInt
  else min magnitude Int64.maxValue.toInt

end MatrixCalculator.Binary64
