import MatrixCalculator.Operator.Apply
import MatrixCalculator.Proofs.DenseMatrix.Power
set_option autoImplicit false

/-!
Operators on forms. The form of an operand is its kind with the space and length of a vector or the
shape of a matrix. The forms of its operands decide the form of what an operator returns and the
error with which it refuses; entries only matter to a negative power of a matrix.
-/

namespace MatrixCalculator

inductive Form where
  | scalar
  | vector (space : Space) (length : Nat)
  | matrix (shape : Shape)
  deriving DecidableEq, Repr

def Space.shape : Space → Nat → Shape
  | .row, n => ⟨1, n⟩
  | .column, n => ⟨n, 1⟩

namespace Form

def kind : Form → Kind
  | .scalar => .scalar
  | .vector _ _ => .vector
  | .matrix _ => .matrix

/-- Sums want operands of one form; the operations name the sums of vectors and of matrices. -/
def sum (op : BinaryOp) (vectors matrices : Operation) : Form → Form → Except Error Form
  | .scalar, .scalar => .ok .scalar
  | .vector s m, .vector t n =>
    if s = t ∧ m = n then .ok (.vector s m)
    else .error (.dimensionMismatch vectors (s.shape m) (t.shape n))
  | .matrix s, .matrix t =>
    if s = t then .ok (.matrix s) else .error (.dimensionMismatch matrices s t)
  | f, g => .error (.unsupportedOperands (.binary op) f.kind (some g.kind))

/-- A scalar may stand on either side; every other product is one of rows with columns. -/
def product : Form → Form → Except Error Form
  | .scalar, g => .ok g
  | f, .scalar => .ok f
  | .vector .row m, .vector .column n =>
    if m = n then .ok .scalar
    else .error (.dimensionMismatch .innerProduct (Space.row.shape m) (Space.column.shape n))
  | .vector .column m, .vector .row n => .ok (.matrix ⟨m, n⟩)
  | .vector s m, .vector t n => .error (.dimensionMismatch .vectorProduct (s.shape m) (t.shape n))
  | .vector s n, .matrix t =>
    if s = .row ∧ n = t.rows then .ok (.vector .row t.cols)
    else .error (.dimensionMismatch .vectorMatrixProduct (s.shape n) t)
  | .matrix s, .vector t n =>
    if t = .column ∧ n = s.cols then .ok (.vector .column s.rows)
    else .error (.dimensionMismatch .matrixVectorProduct s (t.shape n))
  | .matrix s, .matrix t =>
    if s.cols = t.rows then .ok (.matrix ⟨s.rows, t.cols⟩)
    else .error (.dimensionMismatch .matrixProduct s t)

def quotient : Form → Form → Except Error Form
  | f, .scalar => .ok f
  | f, g => .error (.unsupportedOperands (.binary .divide) f.kind (some g.kind))

def power : Form → Form → Except Error Form
  | .scalar, .scalar => .ok .scalar
  | .matrix s, .scalar =>
    if s.rows = s.cols then .ok (.matrix s) else .error (.notSquare .matrixPower s)
  | f, g => .error (.unsupportedOperands (.binary .power) f.kind (some g.kind))

end Form

def BinaryOp.form : BinaryOp → Form → Form → Except Error Form
  | .add => Form.sum .add .vectorAddition .matrixAddition
  | .subtract => Form.sum .subtract .vectorSubtraction .matrixSubtraction
  | .multiply => Form.product
  | .divide => Form.quotient
  | .power => Form.power

def UnaryOp.form : UnaryOp → Form → Except Error Form
  | _, .scalar => .ok .scalar
  | .conj, f => .ok f
  | op, f => .error (.unsupportedOperands (.unary op) f.kind none)

def Foretells {α : Type} : Except Error α → Prop := Ends (fun _ => True) (· ≠ .singularMatrix)

theorem Foretells.map {α γ : Type} {x : Except Error α} (h : Foretells x) (f : α → γ) :
    Foretells (x.map f) := by
  cases x with
  | ok a => trivial
  | error e => exact h

theorem Form.sum_foretells (op : BinaryOp) (vectors matrices : Operation) (f g : Form) :
    Foretells (Form.sum op vectors matrices f g) := by
  unfold Form.sum
  split
  · trivial
  · split
    · trivial
    · nofun
  · split
    · trivial
    · nofun
  · nofun

theorem Form.product_foretells (f g : Form) : Foretells (Form.product f g) := by
  unfold Form.product
  split
  · trivial
  · trivial
  · split
    · trivial
    · nofun
  · trivial
  · nofun
  all_goals
    split
    · trivial
    · nofun

theorem Form.quotient_foretells (f g : Form) : Foretells (Form.quotient f g) := by
  unfold Form.quotient
  split
  · trivial
  · nofun

theorem Form.power_foretells (f g : Form) : Foretells (Form.power f g) := by
  unfold Form.power
  split
  · trivial
  · split
    · trivial
    · nofun
  · nofun

theorem BinaryOp.form_foretells (op : BinaryOp) (f g : Form) : Foretells (op.form f g) := by
  cases op with
  | add => exact Form.sum_foretells ..
  | subtract => exact Form.sum_foretells ..
  | multiply => exact Form.product_foretells f g
  | divide => exact Form.quotient_foretells f g
  | power => exact Form.power_foretells f g

theorem UnaryOp.form_foretells (op : UnaryOp) (f : Form) : Foretells (op.form f) := by
  unfold UnaryOp.form
  split
  · trivial
  · trivial
  · nofun

namespace Operand

variable {β : Type}

def form : Operand β → Form
  | .scalar _ => .scalar
  | .vector v => .vector v.space v.length
  | .matrix m => .matrix m.shape

def Regular : Operand β → Prop
  | .matrix m => m.Regular
  | _ => True

@[simp] theorem kind_form (x : Operand β) : x.form.kind = x.kind := by
  cases x <;> rfl

end Operand

theorem OrientedVector.space_ofList {α : Type} [Entry α] (space : Space) (items : List α) :
    (ofList space items).space = space := rfl

theorem OrientedVector.shape_eq {α : Type} (v : OrientedVector α) :
    v.shape = v.space.shape v.length := by
  unfold shape
  cases v.space <;> rfl

section

variable {β : Type}

/-- A result of the expected form, or the expected error. -/
def Follows (expected : Except Error Form) : Except Error (Operand β) → Prop :=
  Ends (fun x => x.Regular ∧ expected = .ok x.form) (expected = .error ·)

theorem follows_vector {expected : Except Error Form} {v : OrientedVector (Scalar β)}
    (h : expected = .ok (.vector v.space v.length)) : Follows expected (.ok (.vector v)) :=
  ⟨trivial, h⟩

theorem follows_matrix {expected : Except Error Form} {m : DenseMatrix (Scalar β)} {s : Shape}
    (hm : m.HasShape s) (h : expected = .ok (.matrix s)) : Follows expected (.ok (.matrix m)) :=
  ⟨hm.regular, by rw [h, Operand.form, hm.shape_eq]⟩

end

variable {β : Type} [ElementaryFunctions β]

namespace OrientedVector

theorem zipItems_follows (op : BinaryOp) (vectors matrices : Operation)
    (f : Scalar β → Scalar β → Scalar β) (v w : OrientedVector (Scalar β)) :
    Follows (Form.sum op vectors matrices (.vector v.space v.length) (.vector w.space w.length))
      (Operand.vector <$> v.zipItems vectors f w) := by
  simp only [zipItems, Form.sum, shape_eq]
  by_cases h : v.space = w.space ∧ v.length = w.length
  · have hitems : v.items.length = w.items.length := h.2
    have hl : (ofList v.space (v.items.zipWith f w.items)).length = v.length := by
      rw [length_ofList, List.length_zipWith, ← hitems, Nat.min_self]
      rfl
    rw [if_pos h, if_pos h]
    exact follows_vector (by rw [hl]; rfl)
  · rw [if_neg h, if_neg h]
    rfl

theorem product_follows (v w : OrientedVector (Scalar β)) :
    Follows (Form.product (.vector v.space v.length) (.vector w.space w.length)) (v.product w) := by
  cases hv : v.space <;> cases hw : w.space <;> simp only [product, hv, hw, Form.product, shape_eq]
  · rfl
  · by_cases h : v.length = w.length
    · have hinner : v.space = .row ∧ w.space = .column ∧ v.length = w.length := ⟨hv, hw, h⟩
      rw [if_pos h, inner, if_pos hinner]
      exact ⟨trivial, rfl⟩
    · have hinner : ¬ (v.space = .row ∧ w.space = .column ∧ v.length = w.length) :=
        fun hc => h hc.2.2
      rw [if_neg h, inner, if_neg hinner, shape_eq, shape_eq, hv, hw]
      rfl
  · rw [DenseMatrix.outer_eq hv hw]
    exact follows_matrix (DenseMatrix.hasShape_ofFn ..) rfl
  · rfl

theorem mapItems_follows (f : Scalar β → Scalar β) (v : OrientedVector (Scalar β)) :
    Follows (.ok (.vector v.space v.length)) (.ok (.vector (v.mapItems f))) := by
  refine follows_vector ?_
  rw [mapItems, length_ofList, List.length_map]
  rfl

theorem conjugated_follows (v : OrientedVector (Scalar β)) :
    Follows (.ok (.vector v.space v.length)) (.ok (.vector v.conjugated)) :=
  follows_vector (by rw [length_conjugated, space_conjugated])

end OrientedVector

namespace DenseMatrix

variable {m n : DenseMatrix (Scalar β)}

theorem zipEntries_follows (op : BinaryOp) (vectors matrices : Operation)
    (f : Scalar β → Scalar β → Scalar β) (hm : m.Regular) (hn : n.Regular) :
    Follows (Form.sum op vectors matrices (.matrix m.shape) (.matrix n.shape))
      (Operand.matrix <$> zipEntries matrices f m n) := by
  simp only [Form.sum]
  by_cases h : m.shape = n.shape
  · rw [zipEntries_of_shape_eq ⟨hm, h⟩ ⟨hn, rfl⟩, if_pos h]
    exact follows_matrix (hasShape_ofFn ..) (by rw [h])
  · rw [zipEntries, if_neg h, if_neg h]
    rfl

theorem mul_follows (hm : m.Regular) (hn : n.Regular) :
    Follows (Form.product (.matrix m.shape) (.matrix n.shape)) (Operand.matrix <$> m.mul n) := by
  simp only [Form.product]
  by_cases h : m.shape.cols = n.shape.rows
  · rw [mul_of_shape_eq hm.hasShape hn.hasShape h, if_pos h]
    exact follows_matrix (hasShape_ofFn ..) rfl
  · have hne : m.colCount ≠ n.rowCount := h
    rw [if_neg h, mul, if_neg hne]
    rfl

theorem mulColumn_follows (hm : m.Regular) (v : OrientedVector (Scalar β)) :
    Follows (Form.product (.matrix m.shape) (.vector v.space v.length))
      (Operand.vector <$> m.mulColumn v) := by
  simp only [Form.product]
  by_cases h : v.space = .column ∧ v.length = m.shape.cols
  · rw [mulColumn_of_length_eq hm.hasShape h.1 h.2, if_pos h]
    exact follows_vector (by simp [OrientedVector.space_ofList])
  · have hne : ¬ (v.space = .column ∧ v.length = m.colCount) := h
    rw [if_neg h, mulColumn, if_neg hne, OrientedVector.shape_eq]
    rfl

theorem rowMul_follows (hm : m.Regular) (v : OrientedVector (Scalar β)) :
    Follows (Form.product (.vector v.space v.length) (.matrix m.shape))
      (Operand.vector <$> rowMul v m) := by
  simp only [Form.product]
  by_cases h : v.space = .row ∧ v.length = m.shape.rows
  · rw [rowMul_of_length_eq hm.hasShape h.1 h.2, if_pos h]
    exact follows_vector (by simp [OrientedVector.space_ofList])
  · have hne : ¬ (v.space = .row ∧ v.length = m.rowCount) := h
    rw [if_neg h, rowMul, if_neg hne, OrientedVector.shape_eq]
    rfl

theorem mapEntries_follows (hm : m.Regular) (f : Scalar β → Scalar β) :
    Follows (.ok (.matrix m.shape)) (.ok (.matrix (m.mapEntries f))) :=
  follows_matrix (hm.hasShape.mapEntries f) rfl

theorem conjugated_follows (hm : m.Regular) :
    Follows (.ok (.matrix m.shape)) (.ok (.matrix m.conjugated)) :=
  follows_matrix hm.hasShape.conjugated rfl

theorem power_follows (hm : m.Regular) (k : Int) :
    Follows (Form.power (.matrix m.shape) .scalar) (Operand.matrix <$> m.power k) ∨
      (m.isSquare = true ∧ k < 0 ∧ m.inverse = .error .singularMatrix) ∧
        m.power k = .error .singularMatrix := by
  simp only [Form.power]
  by_cases h : m.shape.rows = m.shape.cols
  · have hs : m.shape = ⟨m.shape.cols, m.shape.cols⟩ := congrArg (Shape.mk · m.shape.cols) h
    have hpower := power_ends ⟨hm, hs⟩ k
    rw [if_pos h]
    cases hp : m.power k with
    | ok p =>
      rw [hp] at hpower
      exact .inl (follows_matrix hpower (congrArg (Except.ok ∘ Form.matrix) hs))
    | error e =>
      rw [hp] at hpower
      obtain ⟨rfl, hk, hinverse⟩ := hpower
      exact .inr ⟨⟨beq_iff_eq.2 h, hk, hinverse⟩, rfl⟩
  · rw [if_neg h, power_of_not_square h]
    exact .inl rfl

end DenseMatrix

theorem UnaryOp.apply_follows (op : UnaryOp) {x : Operand β} (hx : x.Regular) :
    Follows (op.form x.form) (op.apply x) := by
  cases x with
  | scalar a => cases op <;> exact ⟨trivial, rfl⟩
  | vector v =>
    cases op with
    | conj => exact v.conjugated_follows
    | _ => rfl
  | matrix m =>
    cases op with
    | conj => exact DenseMatrix.conjugated_follows hx
    | _ => rfl

namespace BinaryOp

variable {x y : Operand β}

/-- A negative power of a square matrix in which elimination meets a zero pivot. -/
def Singular : BinaryOp → Operand β → Operand β → Prop
  | .power, .matrix m, .scalar s =>
    m.isSquare = true ∧ ElementaryFunctions.wholePart s.re < 0 ∧ m.inverse = .error .singularMatrix
  | _, _, _ => False

theorem add_follows (hx : x.Regular) (hy : y.Regular) :
    Follows (BinaryOp.add.form x.form y.form) (BinaryOp.add.apply x y) := by
  cases x <;> cases y
  case scalar.scalar => exact ⟨trivial, rfl⟩
  case vector.vector v w => exact v.zipItems_follows .add _ .matrixAddition _ w
  case matrix.matrix m n => exact DenseMatrix.zipEntries_follows .add .vectorAddition _ _ hx hy
  all_goals rfl

theorem subtract_follows (hx : x.Regular) (hy : y.Regular) :
    Follows (BinaryOp.subtract.form x.form y.form) (BinaryOp.subtract.apply x y) := by
  cases x <;> cases y
  case scalar.scalar => exact ⟨trivial, rfl⟩
  case vector.vector v w => exact v.zipItems_follows .subtract _ .matrixSubtraction _ w
  case matrix.matrix m n => exact DenseMatrix.zipEntries_follows .subtract .vectorSubtraction _ _ hx hy
  all_goals rfl

theorem multiply_follows (hx : x.Regular) (hy : y.Regular) :
    Follows (BinaryOp.multiply.form x.form y.form) (BinaryOp.multiply.apply x y) := by
  cases x <;> cases y
  case scalar.scalar => exact ⟨trivial, rfl⟩
  case scalar.vector a v => exact v.mapItems_follows _
  case scalar.matrix a m => exact DenseMatrix.mapEntries_follows hy _
  case vector.scalar v a => exact v.mapItems_follows _
  case vector.vector v w => exact v.product_follows w
  case vector.matrix v m => exact DenseMatrix.rowMul_follows hy v
  case matrix.scalar m a => exact DenseMatrix.mapEntries_follows hx _
  case matrix.vector m v => exact DenseMatrix.mulColumn_follows hx v
  case matrix.matrix m n => exact DenseMatrix.mul_follows hx hy

theorem divide_follows (hx : x.Regular) :
    Follows (BinaryOp.divide.form x.form y.form) (BinaryOp.divide.apply x y) := by
  cases x <;> cases y
  case scalar.scalar => exact ⟨trivial, rfl⟩
  case vector.scalar v a => exact v.mapItems_follows _
  case matrix.scalar m a => exact DenseMatrix.mapEntries_follows hx _
  all_goals rfl

theorem power_follows (hx : x.Regular) :
    Follows (BinaryOp.power.form x.form y.form) (BinaryOp.power.apply x y) ∨
      BinaryOp.power.Singular x y ∧ BinaryOp.power.apply x y = .error .singularMatrix := by
  cases x <;> cases y
  case scalar.scalar => exact .inl ⟨trivial, rfl⟩
  case matrix.scalar m s =>
    refine (DenseMatrix.power_follows hx (ElementaryFunctions.wholePart s.re)).imp id ?_
    rintro ⟨hsingular, hpower⟩
    exact ⟨hsingular, by rw [apply, hpower]; rfl⟩
  all_goals exact .inl rfl

theorem apply_follows (op : BinaryOp) (hx : x.Regular) (hy : y.Regular) :
    Follows (op.form x.form y.form) (op.apply x y) ∨
      op.Singular x y ∧ op.apply x y = .error .singularMatrix := by
  cases op with
  | add => exact .inl (add_follows hx hy)
  | subtract => exact .inl (subtract_follows hx hy)
  | multiply => exact .inl (multiply_follows hx hy)
  | divide => exact .inl (divide_follows hx)
  | power => exact power_follows hx

end BinaryOp

end MatrixCalculator
