import MatrixCalculator.FieldTree
set_option autoImplicit false

/-!
Field trees from JSON text, with 64-bit numbers as components. The whole text must be one value with
blanks around it. A decimal is read to the nearest number; one beyond the range is read as infinite,
which no decoder accepts. Readers take what they need from the front and return the rest; the depth
budget of the nested ones is the length of the text, which every level shortens.
-/

namespace MatrixCalculator.FieldTree

def isBlank (c : Char) : Bool := c == ' ' || c == '\t' || c == '\n' || c == '\r'

def skipBlanks (cs : List Char) : List Char := cs.dropWhile isBlank

def hexDigit? (c : Char) : Option Nat :=
  if '0' ≤ c ∧ c ≤ '9' then some (c.toNat - '0'.toNat)
  else if 'a' ≤ c ∧ c ≤ 'f' then some (c.toNat - 'a'.toNat + 10)
  else if 'A' ≤ c ∧ c ≤ 'F' then some (c.toNat - 'A'.toNat + 10)
  else none

/-- A piece of a quoted text: a character, or a 16-bit unit that was written as an escape. -/
inductive Piece where
  | char (c : Char)
  | unit (n : Nat)
  deriving DecidableEq, Repr

def escaped? : Char → Option Char
  | '"' => some '"'
  | '\\' => some '\\'
  | '/' => some '/'
  | 'b' => some '\x08'
  | 'f' => some '\x0c'
  | 'n' => some '\n'
  | 'r' => some '\r'
  | 't' => some '\t'
  | _ => none

def readPieces : List Char → Option (List Piece × List Char)
  | [] => none
  | '"' :: rest => some ([], rest)
  | '\\' :: 'u' :: a :: b :: c :: d :: rest => do
    let n := (← hexDigit? a) * 4096 + (← hexDigit? b) * 256 + (← hexDigit? c) * 16 + (← hexDigit? d)
    let (pieces, rest) ← readPieces rest
    return (.unit n :: pieces, rest)
  | '\\' :: e :: rest => do
    let c ← escaped? e
    let (pieces, rest) ← readPieces rest
    return (.char c :: pieces, rest)
  | c :: rest =>
    if c.toNat < 32 ∨ c = '\\' then none
    else do
      let (pieces, rest) ← readPieces rest
      return (.char c :: pieces, rest)

def isLeading (n : Nat) : Bool := 0xd800 ≤ n && n < 0xdc00

def isTrailing (n : Nat) : Bool := 0xdc00 ≤ n && n < 0xe000

/-- Joins leading and trailing units to characters; a unit of a pair that stands alone names none. -/
def joinPieces : List Piece → Option (List Char)
  | [] => some []
  | .char c :: ps => do return c :: (← joinPieces ps)
  | .unit m :: .unit n :: ps =>
    if isLeading m && isTrailing n then do
      return Char.ofNat (0x10000 + (m - 0xd800) * 0x400 + (n - 0xdc00)) :: (← joinPieces ps)
    else if isLeading m || isTrailing m then none
    else do return Char.ofNat m :: (← joinPieces (.unit n :: ps))
  | .unit m :: ps =>
    if isLeading m || isTrailing m then none else do return Char.ofNat m :: (← joinPieces ps)

def readText (cs : List Char) : Option (Option String × List Char) := do
  let (pieces, rest) ← readPieces cs
  return ((joinPieces pieces).map String.ofList, rest)

def digitsValue (ds : List Char) : Nat := ds.foldl (fun n d => 10 * n + (d.toNat - '0'.toNat)) 0

def readDigits (cs : List Char) : Option (List Char × List Char) :=
  match cs.takeWhile Char.isDigit with
  | [] => none
  | ds => some (ds, cs.dropWhile Char.isDigit)

/-- The number nearest to `m` times ten to the power `e`. Far outside the range the answer is known
without computing the power. -/
def decimalValue (m : Nat) (e : Int) : Float :=
  let magnitude := (toString m).length + e
  if m = 0 ∨ magnitude < -400 then 0
  else if 400 < magnitude then Float.ofBits 0x7ff0000000000000
  else Float.ofScientific m (e < 0) e.natAbs

def readFraction : List Char → Option (List Char × List Char)
  | '.' :: rest => readDigits rest
  | cs => some ([], cs)

def readExponent : List Char → Option (Option Int × List Char)
  | c :: rest =>
    if c = 'e' ∨ c = 'E' then do
      let (negative, rest) := match rest with
        | '-' :: r => (true, r)
        | '+' :: r => (false, r)
        | r => (false, r)
      let (ds, rest) ← readDigits rest
      let n : Int := digitsValue ds
      return (some (if negative then -n else n), rest)
    else some (none, c :: rest)
  | [] => some (none, [])

/-- A number after its sign. A whole number within a machine word stays whole, except that minus
zero and anything with a fraction or an exponent is a component. -/
def readNumber (negative : Bool) (cs : List Char) : Option (FieldTree Float × List Char) := do
  let (ds, rest) ← readDigits cs
  if 1 < ds.length ∧ ds.head? = some '0' then none
  let (fraction, rest) ← readFraction rest
  let (exponent, rest) ← readExponent rest
  let whole : Int := if negative then -(digitsValue ds : Int) else digitsValue ds
  if fraction.isEmpty ∧ exponent.isNone ∧ fitsWord whole ∧ ¬ (negative ∧ whole = 0) then
    return (.integer whole, rest)
  else
    let x := decimalValue (digitsValue (ds ++ fraction)) (exponent.getD 0 - fraction.length)
    return (.number (if negative then -x else x), rest)

mutual

def readValue : (depth : Nat) → List Char → Option (FieldTree Float × List Char)
  | 0, _ => none
  | depth + 1, cs =>
    match skipBlanks cs with
    | 'n' :: 'u' :: 'l' :: 'l' :: rest => some (.null, rest)
    | 't' :: 'r' :: 'u' :: 'e' :: rest => some (.bool true, rest)
    | 'f' :: 'a' :: 'l' :: 's' :: 'e' :: rest => some (.bool false, rest)
    | '"' :: rest => do
      let (s, rest) ← readText rest
      return (.text s, rest)
    | '[' :: rest =>
      match skipBlanks rest with
      | ']' :: rest => some (.list [], rest)
      | rest => do
        let (items, rest) ← readItems depth rest
        return (.list items, rest)
    | '\x7b' :: rest =>
      match skipBlanks rest with
      | '\x7d' :: rest => some (.record [], rest)
      | rest => do
        let (fields, rest) ← readFields depth rest
        return (.record fields, rest)
    | '-' :: rest => readNumber true rest
    | rest => readNumber false rest

def readItems : (depth : Nat) → List Char → Option (List (FieldTree Float) × List Char)
  | 0, _ => none
  | depth + 1, cs => do
    let (item, rest) ← readValue depth cs
    match skipBlanks rest with
    | ']' :: rest => return ([item], rest)
    | ',' :: rest =>
      let (items, rest) ← readItems depth rest
      return (item :: items, rest)
    | _ => none

def readFields :
    (depth : Nat) → List Char → Option (List (Option String × FieldTree Float) × List Char)
  | 0, _ => none
  | depth + 1, cs =>
    match skipBlanks cs with
    | '"' :: rest => do
      let (name, rest) ← readText rest
      match skipBlanks rest with
      | ':' :: rest =>
        let (value, rest) ← readValue depth rest
        match skipBlanks rest with
        | '\x7d' :: rest => return ([(name, value)], rest)
        | ',' :: rest =>
          let (fields, rest) ← readFields depth rest
          return ((name, value) :: fields, rest)
        | _ => none
      | _ => none
    | _ => none

end

def ofJson (s : String) : Option (FieldTree Float) :=
  let cs := s.toList
  match readValue (cs.length + 1) cs with
  | some (t, rest) => if (skipBlanks rest).isEmpty then some t else none
  | none => none

end MatrixCalculator.FieldTree
