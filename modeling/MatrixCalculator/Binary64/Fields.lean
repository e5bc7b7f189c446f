set_option autoImplicit false

/-!
The fields of a 64-bit floating number: a sign, eleven bits of exponent and fifty-two of fraction.
-/

namespace MatrixCalculator.Binary64

def isNegative (x : Float) : Bool := x.toBits >>> 63 == 1

def exponentBits (x : Float) : Nat := (x.toBits >>> 52).toNat % 0x800

def fractionBits (x : Float) : Nat := x.toBits.toNat % 0x10000000000000

end MatrixCalculator.Binary64
