set_option autoImplicit false

/-!
Trees of named fields, the form in which objects are stored. A number is kept as a whole number when
it is written as one, and as a component otherwise.
-/

namespace MatrixCalculator

inductive FieldTree (β : Type) where
  | null
  | bool (b : Bool)
  | integer (n : Int)
  | number (x : β)
  /-- A text, or nothing when it names a character that does not exist. -/
  | text (s : Option String)
  | list (items : List (FieldTree β))
  | record (fields : List (Option String × FieldTree β))

namespace FieldTree

variable {β : Type}

def ofText (s : String) : FieldTree β := .text (some s)

def ofFields (fields : List (String × FieldTree β)) : FieldTree β :=
  .record (fields.map fun (name, t) => (some name, t))

def fitsWord (n : Int) : Bool := Int64.minValue.toInt ≤ n && n < UInt64.size

/-- The subtree under a name that stands exactly once. -/
def field? (fields : List (Option String × FieldTree β)) (name : String) : Option (FieldTree β) :=
  match fields.filter (·.1 == some name) with
  | [(_, t)] => some t
  | _ => none

/-- The subtrees under the given names: a record has each name once, and other names beside them
are passed over; a list has the subtrees in the order of the names. -/
def members? (names : List String) : FieldTree β → Option (List (FieldTree β))
  | .record fields =>
    if fields.all (·.1.isSome) then names.mapM (field? fields) else none
  | .list items => if items.length = names.length then some items else none
  | _ => none

def tagged? : FieldTree β → Option (String × Option (FieldTree β))
  | .text (some tag) => some (tag, none)
  | .record [(some tag, t)] => some (tag, some t)
  | _ => none

def tag? (t : FieldTree β) : Option String :=
  match t.tagged? with
  | some (tag, none) => some tag
  | some (tag, some .null) => some tag
  | _ => none

end FieldTree

end MatrixCalculator
