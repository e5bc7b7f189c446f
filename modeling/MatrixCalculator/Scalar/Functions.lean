import MatrixCalculator.Scalar
set_option autoImplicit false

/-!
The elementary functions on complex scalars. A real argument inside the real domain of a function
goes straight to the function on components; everything else is computed on the principal branch.
-/

namespace MatrixCalculator.Scalar

open ElementaryFunctions (lt le)

variable {β : Type} [ElementaryFunctions β]

def isFinite (a : Scalar β) : Bool :=
  ElementaryFunctions.isFinite a.re && ElementaryFunctions.isFinite a.im

def modulus (a : Scalar β) : β :=
  if a.isReal then ElementaryFunctions.abs a.re else ElementaryFunctions.hypot a.re a.im

def argument (a : Scalar β) : β := ElementaryFunctions.atan2 a.im a.re

def exp (a : Scalar β) : Scalar β :=
  let scale := ElementaryFunctions.exp a.re
  if a.isReal then ofReal scale
  else ⟨scale * ElementaryFunctions.cos a.im, scale * ElementaryFunctions.sin a.im⟩

def ln (a : Scalar β) : Scalar β :=
  if a.isReal && lt 0 a.re then ofReal (ElementaryFunctions.ln a.re)
  else ⟨ElementaryFunctions.ln a.modulus, a.argument⟩

def sqrt (a : Scalar β) : Scalar β :=
  if a.isReal then
    if le 0 a.re then ofReal (ElementaryFunctions.sqrt a.re)
    else ⟨0, ElementaryFunctions.sqrt (-a.re)⟩
  else
    let r := a.modulus
    let re := ElementaryFunctions.sqrt ((r + a.re) / Component.two)
    let im := ElementaryFunctions.sqrt ((r - a.re) / Component.two)
    ⟨re, if lt a.im 0 then -im else im⟩

/-- Zero to the power zero is one, and zero to any power with a positive real part is zero. -/
def pow (a b : Scalar β) : Scalar β :=
  if a.isReal && b.isReal
      && (le 0 a.re || Component.same (ElementaryFunctions.truncated b.re) b.re) then
    ofReal (ElementaryFunctions.pow a.re b.re)
  else if b.isZero then 1
  else if a.isZero then
    if lt 0 b.re then 0 else ofReal ElementaryFunctions.infinity
  else exp (b * a.ln)

def sin (a : Scalar β) : Scalar β :=
  if a.isReal then ofReal (ElementaryFunctions.sin a.re)
  else ⟨ElementaryFunctions.sin a.re * ElementaryFunctions.cosh a.im,
    ElementaryFunctions.cos a.re * ElementaryFunctions.sinh a.im⟩

def cos (a : Scalar β) : Scalar β :=
  if a.isReal then ofReal (ElementaryFunctions.cos a.re)
  else ⟨ElementaryFunctions.cos a.re * ElementaryFunctions.cosh a.im,
    -ElementaryFunctions.sin a.re * ElementaryFunctions.sinh a.im⟩

def tan (a : Scalar β) : Scalar β :=
  if a.isReal then ofReal (ElementaryFunctions.tan a.re) else a.sin / a.cos

def inUnitInterval (a : Scalar β) : Bool := le (-1) a.re && le a.re 1

/-- Off the real domain, the arc sine of z is -i ln(iz + sqrt(1 - z²)). -/
def asin (a : Scalar β) : Scalar β :=
  if a.isReal && a.inUnitInterval then ofReal (ElementaryFunctions.asin a.re)
  else
    let iz := i * a
    let root := (1 - a * a).sqrt
    (⟨0, -1⟩ : Scalar β) * (iz + root).ln

def acos (a : Scalar β) : Scalar β :=
  if a.isReal && a.inUnitInterval then ofReal (ElementaryFunctions.acos a.re)
  else ofReal (ElementaryFunctions.pi / Component.two) - a.asin

/-- Off the real axis, the arc tangent of z is (i/2)(ln(1 - iz) - ln(1 + iz)). -/
def atan (a : Scalar β) : Scalar β :=
  if a.isReal then ofReal (ElementaryFunctions.atan a.re)
  else
    let iz := i * a
    (⟨0, 1 / Component.two⟩ : Scalar β) * ((1 - iz).ln - (1 + iz).ln)

def sinh (a : Scalar β) : Scalar β :=
  if a.isReal then ofReal (ElementaryFunctions.sinh a.re)
  else ⟨ElementaryFunctions.sinh a.re * ElementaryFunctions.cos a.im,
    ElementaryFunctions.cosh a.re * ElementaryFunctions.sin a.im⟩

def cosh (a : Scalar β) : Scalar β :=
  if a.isReal then ofReal (ElementaryFunctions.cosh a.re)
  else ⟨ElementaryFunctions.cosh a.re * ElementaryFunctions.cos a.im,
    ElementaryFunctions.sinh a.re * ElementaryFunctions.sin a.im⟩

def tanh (a : Scalar β) : Scalar β :=
  if a.isReal then ofReal (ElementaryFunctions.tanh a.re) else a.sinh / a.cosh

/-- Off the real axis, the area sine of z is ln(z + sqrt(z² + 1)). -/
def asinh (a : Scalar β) : Scalar β :=
  if a.isReal then ofReal (ElementaryFunctions.asinh a.re)
  else (a + (a * a + 1).sqrt).ln

/-- Off the real domain, the area cosine of z is ln(z + sqrt(z + 1) sqrt(z - 1)). -/
def acosh (a : Scalar β) : Scalar β :=
  if a.isReal && le 1 a.re then ofReal (ElementaryFunctions.acosh a.re)
  else (a + (a + 1).sqrt * (a - 1).sqrt).ln

/-- Off the real domain, the area tangent of z is (ln(1 + z) - ln(1 - z))/2. -/
def atanh (a : Scalar β) : Scalar β :=
  if a.isReal && (lt (-1) a.re && lt a.re 1) then ofReal (ElementaryFunctions.atanh a.re)
  else ofReal (1 / Component.two) * ((1 + a).ln - (1 - a).ln)

end MatrixCalculator.Scalar
