set_option autoImplicit false

/-!
The fewest decimal digits that still tell a binary number from its neighbours. A positive number
stands between two bounds, half way to the numbers next to it; any decimal between the bounds reads
back as it. Grids of decimals are tried from the coarsest on, and the first grid with a point
between the bounds gives the digits. All arithmetic is exact.
-/

namespace MatrixCalculator.Decimal

/-- A decimal number: its digits read as a whole number, times a power of ten. -/
structure Digits where
  whole : Nat
  exponent : Int
  deriving DecidableEq, Repr

/-- A positive number and its bounds over a common denominator. The bounds themselves read back
as the number when `closed` holds. -/
structure Window where
  low : Nat
  value : Nat
  high : Nat
  denominator : Nat
  closed : Bool
  deriving DecidableEq, Repr

def Window.holds (w : Window) (n : Nat) : Bool :=
  if w.closed then w.low ≤ n && n ≤ w.high else w.low < n && n < w.high

def Window.inUnits (w : Window) (k : Int) : Window :=
  let up := Nat.pow 10 (-k).toNat
  { w with
    low := w.low * up
    value := w.value * up
    high := w.high * up
    denominator := w.denominator * Nat.pow 10 k.toNat }

/-- The point of the unit grid in the window that lies nearest to the value; of two equally near
the greater one. -/
def Window.nearest? (w : Window) : Option Nat :=
  let below := w.value / w.denominator
  let above := below + 1
  let hitBelow := w.holds (below * w.denominator)
  let hitAbove := w.holds (above * w.denominator)
  if hitBelow && hitAbove then
    if w.value - below * w.denominator < above * w.denominator - w.value then some below
    else some above
  else if hitBelow then some below
  else if hitAbove then some above
  else none

def Window.search (w : Window) : (steps : Nat) → (k : Int) → Digits
  | 0, k => ⟨(w.inUnits k).value / (w.inUnits k).denominator, k⟩
  | steps + 1, k =>
    match (w.inUnits k).nearest? with
    | some n => ⟨n, k⟩
    | none => w.search steps (k - 1)

/-- The window of the positive number `m` times two to the power `q`. Below a power of two the
neighbours are half as far apart, unless the exponent is the least one. -/
def Window.ofBinary (m : Nat) (q : Int) (narrowBelow : Bool) : Window :=
  let up := Nat.pow 2 (q - 2).toNat
  { low := (4 * m - if narrowBelow then 1 else 2) * up
    value := 4 * m * up
    high := (4 * m + 2) * up
    denominator := Nat.pow 2 (2 - q).toNat
    closed := m % 2 == 0 }

def decimalCeiling (m : Nat) (q : Int) : Int := (Nat.log2 m + 1 + q) * 30103 / 100000 + 1

/-- Seventeen digits tell any two 64-bit numbers apart, so twenty steps are enough. -/
def shortest (m : Nat) (q : Int) (narrowBelow : Bool) : Digits :=
  (Window.ofBinary m q narrowBelow).search 20 (decimalCeiling m q)

end MatrixCalculator.Decimal
