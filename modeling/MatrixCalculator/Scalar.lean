import MatrixCalculator.Component
import MatrixCalculator.Rank
set_option autoImplicit false

/-!
Complex scalars and their field operations. The rank of a scalar is derived: it is real when the
imaginary part compares equal to zero. Products and quotients of reals take a shorter path, which
keeps them exact where the components are.
-/

namespace MatrixCalculator

structure Scalar (β : Type) where
  re : β
  im : β
  deriving DecidableEq, Repr

namespace Scalar

variable {β : Type} [Component β]

def ofReal (x : β) : Scalar β := ⟨x, 0⟩

def i : Scalar β := ⟨0, 1⟩

def rank (a : Scalar β) : Rank := if Component.isZero a.im then .real else .complex

def isReal (a : Scalar β) : Bool := Component.isZero a.im

def isZero (a : Scalar β) : Bool := Component.isZero a.re && Component.isZero a.im

def same (a b : Scalar β) : Bool := Component.same a.re b.re && Component.same a.im b.im

def add (a b : Scalar β) : Scalar β := ⟨a.re + b.re, a.im + b.im⟩

def sub (a b : Scalar β) : Scalar β := ⟨a.re - b.re, a.im - b.im⟩

def mul (a b : Scalar β) : Scalar β :=
  if a.isReal && b.isReal then ofReal (a.re * b.re)
  else ⟨a.re * b.re - a.im * b.im, a.re * b.im + a.im * b.re⟩

/-- A real divisor divides each component, so dividing by zero follows the components' own rule. -/
def div (a b : Scalar β) : Scalar β :=
  if b.isReal then ⟨a.re / b.re, a.im / b.re⟩
  else
    let d := b.re * b.re + b.im * b.im
    ⟨(a.re * b.re + a.im * b.im) / d, (a.im * b.re - a.re * b.im) / d⟩

def neg (a : Scalar β) : Scalar β := ⟨-a.re, -a.im⟩

def conj (a : Scalar β) : Scalar β := if a.isReal then a else ⟨a.re, -a.im⟩

instance : Zero (Scalar β) := ⟨ofReal 0⟩
instance : One (Scalar β) := ⟨ofReal 1⟩
instance : Add (Scalar β) := ⟨add⟩
instance : Sub (Scalar β) := ⟨sub⟩
instance : Mul (Scalar β) := ⟨mul⟩
instance : Div (Scalar β) := ⟨div⟩
instance : Neg (Scalar β) := ⟨neg⟩

theorem rank_eq_real {a : Scalar β} : a.rank = .real ↔ a.isReal = true := by
  simp only [rank, isReal]; split <;> simp_all

end Scalar

end MatrixCalculator
