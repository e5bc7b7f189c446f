import MatrixCalculator.Checked
import MatrixCalculator.VectorFamily
set_option autoImplicit false

/-!
Dense matrices, stored as a family of row vectors. The width is the length the family remembers, so
a matrix without rows still has columns. Entries are read in one of two ways: `entry` refuses an
index outside the grid, and whole rows and columns are taken as lists.
-/

namespace MatrixCalculator

structure DenseMatrix (α : Type) where
  family : VectorFamily α
  deriving DecidableEq, Repr

namespace DenseMatrix

variable {α : Type} [Entry α]

def zeros (rows cols : Nat) : DenseMatrix α := ⟨.zeros .row rows cols⟩

/-- The matrix with the given rows, at least `cols` wide. -/
def ofLists (cols : Nat) (rows : List (List α)) : DenseMatrix α :=
  ⟨(VectorFamily.ofVectors .row (rows.map (OrientedVector.ofList .row))).widened cols⟩

def ofFn (rows cols : Nat) (f : Nat → Nat → α) : DenseMatrix α :=
  ofLists cols ((List.range rows).map fun i => (List.range cols).map (f i))

/-- Builds a matrix from entries that may be refused; the first refusal, row by row, wins. -/
def ofFnM (rows cols : Nat) (f : Nat → Nat → Except Error α) : Except Error (DenseMatrix α) := do
  let grid ← (List.range rows).mapM fun i => (List.range cols).mapM (f i)
  return ofLists cols grid

def rowCount {α : Type} (m : DenseMatrix α) : Nat := m.family.count

def colCount {α : Type} (m : DenseMatrix α) : Nat := m.family.innerLength

def shape {α : Type} (m : DenseMatrix α) : Shape := ⟨m.rowCount, m.colCount⟩

def entryCount {α : Type} (m : DenseMatrix α) : Nat := m.rowCount * m.colCount

def isSquare {α : Type} (m : DenseMatrix α) : Bool := m.rowCount == m.colCount

def rank {α : Type} (m : DenseMatrix α) : Rank := m.family.rank

def lists {α : Type} (m : DenseMatrix α) : List (List α) := m.family.vectors.map OrientedVector.items

/-- A family of rows becomes a matrix as it stands, one of columns is turned first. The rows must
all be as long as the family remembers. -/
def ofFamily {α : Type} (f : VectorFamily α) : Except Error (DenseMatrix α) :=
  let g := if f.space = .row then f else .ofVectors .row f.vectors
  match g.vectors.find? (·.length != g.innerLength) with
  | some row => .error (.dimensionMismatch .matrixConstruction ⟨1, g.innerLength⟩ ⟨1, row.length⟩)
  | none => .ok ⟨g⟩

def ofRows {α : Type} (rows : List (OrientedVector α)) : Except Error (DenseMatrix α) :=
  ofFamily (.ofVectors .row rows)

def row? {α : Type} (m : DenseMatrix α) (i : Nat) : Option (OrientedVector α) := m.family.get? i

def get? {α : Type} (m : DenseMatrix α) (i j : Nat) : Option α := (m.row? i).bind (·.get? j)

def row {α : Type} (m : DenseMatrix α) (i : Nat) : Except Error (OrientedVector α) :=
  match m.row? i with
  | some r => .ok r
  | none => .error (.indexOutOfBounds i m.rowCount)

def entry {α : Type} (m : DenseMatrix α) (i j : Nat) : Except Error α := do
  (← m.row i).entry j

def columnItems {α : Type} (m : DenseMatrix α) (j : Nat) : List α := m.lists.filterMap (·[j]?)

def column? (m : DenseMatrix α) (j : Nat) : Option (OrientedVector α) :=
  if j < m.colCount then some (.ofList .column (m.columnItems j)) else none

def set (m : DenseMatrix α) (i j : Nat) (x : α) : Update (DenseMatrix α) :=
  (m.family.setEntry i j x).map DenseMatrix.mk

def setRow {α : Type} (m : DenseMatrix α) (i : Nat) (v : OrientedVector α) : Update (DenseMatrix α) :=
  if v.length = m.colCount then (m.family.set i v).map DenseMatrix.mk
  else .refused (.dimensionMismatch .matrixSetRow ⟨1, m.colCount⟩ v.shape) m

def swapRows {α : Type} (m : DenseMatrix α) (i j : Nat) : Update (DenseMatrix α) :=
  (m.family.swap i j).map DenseMatrix.mk

/-- The identity is the zero matrix with a one stored at each place of the diagonal. -/
def identity (n : Nat) : DenseMatrix α :=
  (List.range n).foldl (fun m i => (m.set i i 1).state) (zeros n n)

def isIdentity (m : DenseMatrix α) : Bool :=
  m.isSquare && m.lists.zipIdx.all fun (row, i) => row.zipIdx.all fun (x, j) =>
    if i = j then Entry.same x 1 else Entry.isZero x

def mapEntries (f : α → α) (m : DenseMatrix α) : DenseMatrix α :=
  ofLists m.colCount (m.lists.map (·.map f))

def transposed (m : DenseMatrix α) : DenseMatrix α :=
  ofLists m.rowCount ((List.range m.colCount).map m.columnItems)

/-- A matrix of real rank is its own conjugate. -/
def conjugated (m : DenseMatrix α) : DenseMatrix α :=
  match m.rank with
  | .real => m
  | .complex => m.mapEntries Entry.conj

def conjTransposed (m : DenseMatrix α) : DenseMatrix α := m.conjugated.transposed

def same (m n : DenseMatrix α) : Bool := m.family.same n.family

def requireSquare {α : Type} (m : DenseMatrix α) (operation : Operation) : Except Error Unit :=
  if m.isSquare then .ok () else .error (.notSquare operation m.shape)

@[simp] theorem shape_zeros (rows cols : Nat) :
    (zeros rows cols : DenseMatrix α).shape = ⟨rows, cols⟩ := by
  simp [zeros, shape, rowCount, colCount, VectorFamily.zeros, VectorFamily.count]

@[simp] theorem lists_ofLists (cols : Nat) (rows : List (List α)) :
    (ofLists cols rows).lists = rows := by
  simp only [lists, ofLists, VectorFamily.widened, VectorFamily.ofVectors, List.map_map]
  refine List.map_id'' (fun row => ?_) rows
  exact OrientedVector.items_inSpace .row _

@[simp] theorem rowCount_ofLists (cols : Nat) (rows : List (List α)) :
    (ofLists cols rows).rowCount = rows.length := by
  simp [rowCount, ofLists, VectorFamily.widened, VectorFamily.ofVectors, VectorFamily.count]

theorem colCount_ofLists {cols : Nat} {rows : List (List α)} (h : ∀ row ∈ rows, row.length = cols) :
    (ofLists cols rows).colCount = cols := by
  refine Nat.max_eq_right (VectorFamily.maxLength_le fun v hv => ?_)
  obtain ⟨row, hrow, rfl⟩ := List.mem_map.1 hv
  exact Nat.le_of_eq (h row hrow)

@[simp] theorem shape_ofFn (rows cols : Nat) (f : Nat → Nat → α) :
    (ofFn rows cols f).shape = ⟨rows, cols⟩ := by
  have hc : (ofFn rows cols f).colCount = cols := by
    refine colCount_ofLists fun row hrow => ?_
    obtain ⟨i, -, rfl⟩ := List.mem_map.1 hrow
    simp
  rw [shape, hc, ofFn, rowCount_ofLists, List.length_map, List.length_range]

theorem entry_eq_ok {α : Type} {m : DenseMatrix α} {i j : Nat} {x : α} :
    m.entry i j = .ok x ↔ m.get? i j = some x := by
  unfold entry row get?
  cases m.row? i with
  | none => simp [bind, Except.bind]
  | some r => exact OrientedVector.entry_eq_ok

theorem ofFnM_of_ok {rows cols : Nat} {f : Nat → Nat → Except Error α} {g : Nat → Nat → α}
    (h : ∀ i < rows, ∀ j < cols, f i j = .ok (g i j)) : ofFnM rows cols f = .ok (ofFn rows cols g) := by
  have hg : (List.range rows).mapM (fun i => (List.range cols).mapM (f i)) =
      .ok ((List.range rows).map fun i => (List.range cols).map (g i)) :=
    mapM_of_ok fun i hi => mapM_of_ok fun j hj =>
      h i (List.mem_range.1 hi) j (List.mem_range.1 hj)
  rw [ofFnM, hg]
  rfl

end DenseMatrix

end MatrixCalculator
