set_option autoImplicit false

/-!
What the two components of a complex scalar have to offer. `Component` is the arithmetic that the
field operations need; `ElementaryFunctions` adds order, roots and the transcendental functions.
Neither class asks for a law, so that rounded and exact numbers can both take the part.
-/

namespace MatrixCalculator

class Component (β : Type) extends Zero β, One β, Add β, Sub β, Mul β, Div β, Neg β where
  /-- The comparison that calculations make. On rounded numbers it need not be equality:
  the two zeros agree, and what is not a number differs from itself. -/
  same : β → β → Bool

class ElementaryFunctions (β : Type) extends Component β where
  lt : β → β → Bool
  le : β → β → Bool
  isFinite : β → Bool
  ofInt : Int → β
  /-- The number without its fraction. -/
  truncated : β → β
  /-- The whole part, held within the range of a signed 64-bit word. -/
  wholePart : β → Int
  pi : β
  infinity : β
  abs : β → β
  sqrt : β → β
  exp : β → β
  ln : β → β
  sin : β → β
  cos : β → β
  tan : β → β
  asin : β → β
  acos : β → β
  atan : β → β
  sinh : β → β
  cosh : β → β
  tanh : β → β
  asinh : β → β
  acosh : β → β
  atanh : β → β
  /-- The angle of the point with ordinate `y` and abscissa `x`, arguments in that order. -/
  atan2 : β → β → β
  hypot : β → β → β
  pow : β → β → β

def Component.isZero {β : Type} [Component β] (x : β) : Bool := same x 0

def Component.two {β : Type} [Component β] : β := 1 + 1

def ElementaryFunctions.compare {β : Type} [ElementaryFunctions β] (x y : β) : Option Ordering :=
  if lt x y then some .lt
  else if lt y x then some .gt
  else if Component.same x y then some .eq
  else none

end MatrixCalculator
