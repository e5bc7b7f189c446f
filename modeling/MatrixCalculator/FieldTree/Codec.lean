import MatrixCalculator.FieldTree
import MatrixCalculator.Operand
set_option autoImplicit false

/-!
Objects as field trees and back. Every field is written and read as it stands: a remembered rank or
length that no longer fits the entries is kept, not computed anew. A whole number may stand for a
component, but a component never for a whole number.
-/

namespace MatrixCalculator

open FieldTree (ofText ofFields)

variable {β : Type}

def Rank.tag : Rank → String
  | .real => "Real"
  | .complex => "Complex"

def Rank.ofTag? : String → Option Rank
  | "Real" => some .real
  | "Complex" => some .complex
  | _ => none

def Space.tag : Space → String
  | .row => "Row"
  | .column => "Column"

def Space.ofTag? : String → Option Space
  | "Row" => some .row
  | "Column" => some .column
  | _ => none

def Kind.ofTag? : String → Option Kind
  | "Value" => some .scalar
  | "Vector" => some .vector
  | "Matrix" => some .matrix
  | _ => none

def Rank.encode (r : Rank) : FieldTree β := ofText r.tag

def Rank.decode (t : FieldTree β) : Option Rank := t.tag?.bind Rank.ofTag?

def Space.encode (s : Space) : FieldTree β := ofText s.tag

def Space.decode (t : FieldTree β) : Option Space := t.tag?.bind Space.ofTag?

def Kind.encode (k : Kind) : FieldTree β := ofText k.name

def Kind.decode (t : FieldTree β) : Option Kind := t.tag?.bind Kind.ofTag?

theorem Rank.decode_encode (r : Rank) : Rank.decode (r.encode : FieldTree β) = some r := by
  cases r <;> rfl

theorem Space.decode_encode (s : Space) : Space.decode (s.encode : FieldTree β) = some s := by
  cases s <;> rfl

theorem Kind.decode_encode (k : Kind) : Kind.decode (k.encode : FieldTree β) = some k := by
  cases k <;> rfl

/-- A finite component; a whole number of a machine word stands for the component it names. -/
def FieldTree.component? [ElementaryFunctions β] : FieldTree β → Option β
  | .number x => if ElementaryFunctions.isFinite x then some x else none
  | .integer n => if fitsWord n then some (ElementaryFunctions.ofInt n) else none
  | _ => none

def FieldTree.count? : FieldTree β → Option Nat
  | .integer n => if 0 ≤ n ∧ n < UInt64.size then some n.toNat else none
  | _ => none

def FieldTree.items? : FieldTree β → Option (List (FieldTree β))
  | .list ts => some ts
  | _ => none

def Scalar.encode (a : Scalar β) : FieldTree β := ofFields [("re", .number a.re), ("im", .number a.im)]

def RankedSeq.encode (s : RankedSeq (Scalar β)) : FieldTree β :=
  ofFields [("items", .list (s.items.map Scalar.encode)), ("rank", s.rank.encode)]

def OrientedVector.encode (v : OrientedVector (Scalar β)) : FieldTree β :=
  ofFields [("space", v.space.encode), ("elements", v.elements.encode), ("rank", v.rank.encode)]

def VectorFamily.encode (f : VectorFamily (Scalar β)) : FieldTree β :=
  ofFields [("vects", .list (f.vectors.map OrientedVector.encode)),
    ("inner_len", .integer f.innerLength), ("space", f.space.encode), ("rank", f.rank.encode)]

def DenseMatrix.encode (m : DenseMatrix (Scalar β)) : FieldTree β :=
  ofFields [("elements", m.family.encode)]

def Operand.encode : Operand β → FieldTree β
  | .scalar a => ofFields [(Kind.scalar.name, a.encode)]
  | .vector v => ofFields [(Kind.vector.name, v.encode)]
  | .matrix m => ofFields [(Kind.matrix.name, m.encode)]

variable [ElementaryFunctions β]

def Scalar.decode (t : FieldTree β) : Option (Scalar β) := do
  match ← t.members? ["re", "im"] with
  | [re, im] => return ⟨← re.component?, ← im.component?⟩
  | _ => none

def RankedSeq.decode (t : FieldTree β) : Option (RankedSeq (Scalar β)) := do
  match ← t.members? ["items", "rank"] with
  | [items, rank] => return ⟨← (← items.items?).mapM Scalar.decode, ← Rank.decode rank⟩
  | _ => none

def OrientedVector.decode (t : FieldTree β) : Option (OrientedVector (Scalar β)) := do
  match ← t.members? ["space", "elements", "rank"] with
  | [space, elements, rank] =>
    return ⟨← Space.decode space, ← RankedSeq.decode elements, ← Rank.decode rank⟩
  | _ => none

def VectorFamily.decode (t : FieldTree β) : Option (VectorFamily (Scalar β)) := do
  match ← t.members? ["vects", "inner_len", "space", "rank"] with
  | [vectors, innerLength, space, rank] =>
    return ⟨← (← vectors.items?).mapM OrientedVector.decode, ← innerLength.count?,
      ← Space.decode space, ← Rank.decode rank⟩
  | _ => none

def DenseMatrix.decode (t : FieldTree β) : Option (DenseMatrix (Scalar β)) := do
  match ← t.members? ["elements"] with
  | [family] => return ⟨← VectorFamily.decode family⟩
  | _ => none

def Operand.decode (t : FieldTree β) : Option (Operand β) := do
  let (tag, held) ← t.tagged?
  match ← Kind.ofTag? tag with
  | .scalar => return .scalar (← Scalar.decode (← held))
  | .vector => return .vector (← OrientedVector.decode (← held))
  | .matrix => return .matrix (← DenseMatrix.decode (← held))

end MatrixCalculator
