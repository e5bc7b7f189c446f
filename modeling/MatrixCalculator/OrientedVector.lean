import MatrixCalculator.RankedSeq
set_option autoImplicit false

/-!
Row and column vectors. A vector keeps a rank of its own beside that of its sequence: both rise with
the entries stored, but conjugation rebuilds the sequence and may lower its rank, while the vector
keeps its own. The rank of the vector alone decides whether conjugation has anything to do.
-/

namespace MatrixCalculator

inductive Space where
  | row
  | column
  deriving DecidableEq, Repr

def Space.flipped : Space → Space
  | .row => .column
  | .column => .row

structure OrientedVector (α : Type) where
  space : Space
  elements : RankedSeq α
  rank : Rank
  deriving DecidableEq, Repr

namespace OrientedVector

variable {α : Type} [Entry α]

def zeros (space : Space) (n : Nat) : OrientedVector α := ⟨space, .zeros n, .real⟩

def ofSeq {α : Type} (space : Space) (s : RankedSeq α) : OrientedVector α := ⟨space, s, s.rank⟩

def ofList (space : Space) (items : List α) : OrientedVector α := ofSeq space (.ofList items)

def items {α : Type} (v : OrientedVector α) : List α := v.elements.items

def length {α : Type} (v : OrientedVector α) : Nat := v.elements.length

def isEmpty {α : Type} (v : OrientedVector α) : Bool := v.elements.isEmpty

def shape {α : Type} (v : OrientedVector α) : Shape :=
  match v.space with
  | .row => ⟨1, v.length⟩
  | .column => ⟨v.length, 1⟩

def get? {α : Type} (v : OrientedVector α) (i : Nat) : Option α := v.elements.get? i

def entry {α : Type} (v : OrientedVector α) (i : Nat) : Except Error α :=
  match v.get? i with
  | some x => .ok x
  | none => .error (.indexOutOfBounds i v.length)

def set (v : OrientedVector α) (i : Nat) (x : α) : Update (OrientedVector α) :=
  let u := v.elements.set i x
  match u.refusal with
  | none => .done { v with elements := u.state, rank := v.rank.join (Entry.rank x) }
  | some e => .refused e { v with elements := u.state }

def append (v : OrientedVector α) (x : α) : OrientedVector α :=
  { v with elements := v.elements.append x, rank := v.rank.join (Entry.rank x) }

def indexOf? (v : OrientedVector α) (x : α) : Option Nat := v.elements.indexOf? x

def transposed {α : Type} (v : OrientedVector α) : OrientedVector α :=
  { v with space := v.space.flipped }

def inSpace {α : Type} (space : Space) (v : OrientedVector α) : OrientedVector α :=
  if v.space = space then v else v.transposed

def conjugated (v : OrientedVector α) : OrientedVector α :=
  match v.rank with
  | .real => v
  | .complex => { v with elements := .ofList (v.items.map Entry.conj) }

def conjTransposed (v : OrientedVector α) : OrientedVector α := v.conjugated.transposed

def same (v w : OrientedVector α) : Bool :=
  v.space == w.space && v.elements.same w.elements && v.rank == w.rank

@[simp] theorem length_zeros (space : Space) (n : Nat) :
    (zeros space n : OrientedVector α).length = n := RankedSeq.length_zeros n

@[simp] theorem length_ofList (space : Space) (items : List α) :
    (ofList space items).length = items.length := rfl

@[simp] theorem items_inSpace {α : Type} (space : Space) (v : OrientedVector α) :
    (v.inSpace space).items = v.items := by
  unfold inSpace
  split <;> rfl

@[simp] theorem length_inSpace {α : Type} (space : Space) (v : OrientedVector α) :
    (v.inSpace space).length = v.length := congrArg List.length (items_inSpace space v)

@[simp] theorem rank_inSpace {α : Type} (space : Space) (v : OrientedVector α) :
    (v.inSpace space).rank = v.rank := by
  unfold inSpace
  split <;> rfl

@[simp] theorem space_inSpace {α : Type} (space : Space) (v : OrientedVector α) :
    (v.inSpace space).space = space := by
  unfold inSpace
  split
  · assumption
  · next h => cases space <;> cases hv : v.space <;> simp_all [transposed, Space.flipped]

@[simp] theorem length_set (v : OrientedVector α) (i : Nat) (x : α) :
    (v.set i x).state.length = v.length := by
  unfold set
  dsimp only
  split <;> exact RankedSeq.length_set v.elements i x

theorem refusal_set (v : OrientedVector α) (i : Nat) (x : α) :
    (v.set i x).refusal = if i < v.length then none else some (.indexOutOfBounds i v.length) := by
  unfold set
  dsimp only
  rw [RankedSeq.refusal_set]
  by_cases h : i < v.elements.length <;> simp [h, length, Update.done, Update.refused]

@[simp] theorem space_set (v : OrientedVector α) (i : Nat) (x : α) :
    (v.set i x).state.space = v.space := by
  unfold set
  dsimp only
  split <;> rfl

theorem elements_set (v : OrientedVector α) (i : Nat) (x : α) :
    (v.set i x).state.elements = (v.elements.set i x).state := by
  unfold set
  dsimp only
  split <;> rfl

theorem rank_set (v : OrientedVector α) (i : Nat) (x : α) :
    (v.set i x).state.rank = if i < v.length then v.rank.join (Entry.rank x) else v.rank := by
  by_cases h : i < v.elements.length <;>
    simp [set, RankedSeq.refusal_set, length, h, Update.done, Update.refused]

@[simp] theorem space_conjugated (v : OrientedVector α) : v.conjugated.space = v.space := by
  unfold conjugated
  split <;> rfl

@[simp] theorem length_conjugated (v : OrientedVector α) : v.conjugated.length = v.length := by
  unfold conjugated
  split
  · rfl
  · exact List.length_map _

theorem entry_eq_ok {α : Type} {v : OrientedVector α} {i : Nat} {x : α} :
    v.entry i = .ok x ↔ v.get? i = some x := by
  unfold entry
  split <;> simp [*]

end OrientedVector

end MatrixCalculator
