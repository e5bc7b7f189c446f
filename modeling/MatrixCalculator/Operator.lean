set_option autoImplicit false

/-!
The operators of an expression: their names, how tightly they bind, and how a name is looked up.
A name that no table knows is kept as an unknown operator, so that running the expression can
report it; only a name too long to keep is refused.
-/

namespace MatrixCalculator

inductive UnaryOp where
  | sqrt | conj
  | sin | cos | tan | asin | acos | atan
  | sinh | cosh | tanh | asinh | acosh | atanh
  deriving DecidableEq, Repr

def UnaryOp.name : UnaryOp → String
  | .sqrt => "Sqrt"
  | .conj => "Conj"
  | .sin => "Sin"
  | .cos => "Cos"
  | .tan => "Tan"
  | .asin => "Asin"
  | .acos => "Acos"
  | .atan => "Atan"
  | .sinh => "Sinh"
  | .cosh => "Cosh"
  | .tanh => "Tanh"
  | .asinh => "Asinh"
  | .acosh => "Acosh"
  | .atanh => "Atanh"

def UnaryOp.all : List UnaryOp :=
  [.sqrt, .conj, .sin, .cos, .tan, .asin, .acos, .atan, .sinh, .cosh, .tanh, .asinh, .acosh, .atanh]

def UnaryOp.ofName? (name : String) : Option UnaryOp := all.find? (·.name == name)

inductive BinaryOp where
  | add | subtract | multiply | divide | power
  deriving DecidableEq, Repr

def BinaryOp.symbol : BinaryOp → String
  | .add => "+"
  | .subtract => "-"
  | .multiply => "*"
  | .divide => "/"
  | .power => "^"

def BinaryOp.all : List BinaryOp := [.add, .subtract, .multiply, .divide, .power]

def BinaryOp.ofName? (name : String) : Option BinaryOp := all.find? (·.symbol == name)

def BinaryOp.precedence : BinaryOp → Nat
  | .power => 3
  | .multiply | .divide => 2
  | .add | .subtract => 1

inductive Operator where
  | unary (op : UnaryOp)
  | binary (op : BinaryOp)
  | unknown (name : String)
  deriving DecidableEq, Repr

/-- The longest name an unknown operator may keep, in bytes of its UTF-8 form. -/
def Operator.maxNameBytes : Nat := 16

def Operator.ofName? (name : String) : Option Operator :=
  match UnaryOp.ofName? name, BinaryOp.ofName? name with
  | some op, _ => some (.unary op)
  | none, some op => some (.binary op)
  | none, none => if name.utf8ByteSize ≤ maxNameBytes then some (.unknown name) else none

def Operator.name : Operator → String
  | .unary op => op.name
  | .binary op => op.symbol
  | .unknown name => name

def Operator.isUnary : Operator → Bool
  | .unary _ => true
  | _ => false

/-- Unary functions bind tightest and unknown names loosest. -/
def Operator.precedence : Operator → Nat
  | .unary _ => 255
  | .binary op => op.precedence
  | .unknown _ => 0

def Operator.isRightAssociative : Operator → Bool
  | .binary .power => true
  | _ => false

theorem UnaryOp.name_of_ofName? {name : String} {op : UnaryOp} (h : ofName? name = some op) :
    op.name = name := by
  simpa using List.find?_some h

theorem BinaryOp.symbol_of_ofName? {name : String} {op : BinaryOp} (h : ofName? name = some op) :
    op.symbol = name := by
  simpa using List.find?_some h

theorem Operator.name_of_ofName? {name : String} {op : Operator} (h : ofName? name = some op) :
    op.name = name := by
  unfold ofName? at h
  split at h
  · next u hu => cases h; exact UnaryOp.name_of_ofName? hu
  · next b hb => cases h; exact BinaryOp.symbol_of_ofName? hb
  · split at h <;> cases h; rfl

end MatrixCalculator
