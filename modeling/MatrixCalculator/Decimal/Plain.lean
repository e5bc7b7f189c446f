import MatrixCalculator.Binary64.Fields
import MatrixCalculator.Decimal.Shortest
set_option autoImplicit false

/-!
Numbers in plain decimal notation: never an exponent, a point only where a fraction follows, and as
many zeros as the magnitude asks for.
-/

namespace MatrixCalculator.Decimal

def Digits.plain (d : Digits) : String :=
  let written := toString d.whole
  if 0 ≤ d.exponent then written ++ "".pushn '0' d.exponent.toNat
  else
    let places := (-d.exponent).toNat
    let padded := ("".pushn '0' (places + 1 - written.length) ++ written).toList
    let cut := padded.length - places
    String.ofList (padded.take cut) ++ "." ++ String.ofList (padded.drop cut)

/-- A 64-bit number in plain notation; a zero keeps its sign. -/
def ofFloat (x : Float) : String :=
  if x.isNaN then "NaN"
  else
    let sign := if Binary64.isNegative x then "-" else ""
    let field := Binary64.exponentBits x
    let fraction := Binary64.fractionBits x
    if field = 0x7ff then sign ++ "inf"
    else if field = 0 then
      if fraction = 0 then sign ++ "0" else sign ++ (shortest fraction (-1074) false).plain
    else
      let whole := fraction + 0x10000000000000
      sign ++ (shortest whole (field - 1075) (fraction == 0 && field != 1)).plain

end MatrixCalculator.Decimal
