set_option autoImplicit false

/-!
The natural logarithm. The argument is brought to the form (1 + f)·2^k with 1 + f between √½ and √2;
with s = f/(2 + f) the logarithm of 1 + f is an odd series in s, cut after s^15, and k times the
logarithm of two is added in two parts, a short one that multiplies exactly and what it misses.
-/

namespace MatrixCalculator.Binary64

/-- The coefficients of the series in z = s², from z to z^7. -/
def seriesAt (z : Float) : Float :=
  let w := z * z
  let even := w * (Float.ofBits 0x3fd999999997fa04
    + w * (Float.ofBits 0x3fcc71c51d8e78af + w * Float.ofBits 0x3fc39a09d078c69f))
  let odd := z * (Float.ofBits 0x3fe5555555555593 + w * (Float.ofBits 0x3fd2492494229359
    + w * (Float.ofBits 0x3fc7466496cb03de + w * Float.ofBits 0x3fc2f112df3e5244)))
  odd + even

def ln2High : Float := Float.ofBits 0x3fe62e42fee00000

def ln2Low : Float := Float.ofBits 0x3dea39ef35793c76

/-- The logarithm of the positive normal number `x` times two to the power `k`. -/
def lnNormal (x : Float) (k : Int) : Float :=
  -- The upper half of the word, moved so that its exponent field steps up at √2 and not at 2.
  let upper := (x.toBits >>> 32).toNat + (0x3ff00000 - 0x3fe6a09e)
  let shift : Int := k + (upper / 0x100000 : Nat) - 0x3ff
  let lower := x.toBits.toNat % 0x100000000
  let reduced := (upper % 0x100000 + 0x3fe6a09e) * 0x100000000 + lower
  let f := Float.ofBits reduced.toUInt64 - 1
  let halfSquare := 0.5 * f * f
  let s := f / (2 + f)
  let tail := seriesAt (s * s)
  let turns := Float.ofInt shift
  s * (halfSquare + tail) + turns * ln2Low - halfSquare + f + turns * ln2High

def ln (x : Float) : Float :=
  if x.isNaN then x
  else if x == 0 then -(Float.ofBits 0x7ff0000000000000)
  else if x < 0 then Float.ofBits 0x7ff8000000000000
  else if x.isInf then x
  else if x == 1 then 0
  else if x < Float.ofBits 0x0010000000000000 then lnNormal (x * 18014398509481984) (-54)
  else lnNormal x 0

end MatrixCalculator.Binary64
