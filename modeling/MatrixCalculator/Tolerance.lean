import MatrixCalculator.Text
set_option autoImplicit false

/-!
Whether two numbers agree up to a tolerance, and the report when they do not. Two results that are
not numbers agree, and so do infinities of one sign.
-/

namespace MatrixCalculator.Tolerance

def standard : Float := 1e-10

def sameInfinity (left right : Float) : Bool :=
  left.isInf && right.isInf && Binary64.isNegative left == Binary64.isNegative right

def agree (left right tolerance : Float) : Bool :=
  (left.isNaN && right.isNaN) || sameInfinity left right || (left - right).abs < tolerance

def report (left right tolerance : Float) : String :=
  "assertion failed: `(left ≈ right)` (left: `" ++ NumberText.text left ++ "`, right: `"
    ++ NumberText.text right ++ "`, epsilon: `" ++ NumberText.text tolerance ++ "`)"

/-- Passes, or fails with the label, or with a report of the three numbers where none is given. -/
def check (left right tolerance : Float) (label : Option String) : Except String Unit :=
  if agree left right tolerance then .ok ()
  else .error (label.getD (report left right tolerance))

end MatrixCalculator.Tolerance
