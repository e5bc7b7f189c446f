import MatrixCalculator.Binary64
import MatrixCalculator.Proofs.Expression.Conservation
import MatrixCalculator.Proofs.Expression.Running
import MatrixCalculator.Proofs.Operator.Form
set_option autoImplicit false

/-!
Programs on forms. The same stack machine runs on forms in place of operands and foretells how a run
on operands ends: with a result of the form it computes or with the error it computes, whatever the
entries are. A run departs from it only where a negative power meets a singular matrix.
-/

namespace MatrixCalculator

variable {β : Type}

def Form.push (f : Form) (stack : List Form) : Except Error (List Form) :=
  if stack.length < maxStackDepth then .ok (f :: stack) else .error .operandStackFull

def Form.input (inputs : List Form) (v : Variable) (position : Nat) : Except Error Form :=
  match inputs[position]? with
  | some f => if f.kind = v.kind then .ok f else .error (.kindMismatch v.kind f.kind)
  | none => .error (.indexOutOfBounds position inputs.length)

namespace Slot

def executeForm (inputs : List Form) (stack : List Form) : Slot β → Except Error (List Form)
  | .constant x => x.form.push stack
  | .variable v position => (Form.input inputs v position).bind (·.push stack)
  | .operation (.unary op) =>
    match stack with
    | f :: rest => (op.form f).map (· :: rest)
    | [] => .error (.insufficientOperands (.unary op) 1 0)
  | .operation (.binary op) =>
    match stack with
    | right :: left :: rest => (op.form left right).map (· :: rest)
    | _ => .error (.insufficientOperands (.binary op) 2 stack.length)
  | .operation (.unknown name) => .error (.unsupportedOperation name)

def Regular : Slot β → Prop
  | .constant x => x.Regular
  | _ => True

end Slot

def Program.form (p : Program β) (inputs : List Form) : Except Error Form :=
  (p.slots.foldlM (Slot.executeForm inputs) []).bind Slot.outcome

theorem Form.push_foretells (f : Form) (stack : List Form) : Foretells (f.push stack) := by
  unfold Form.push
  split
  · trivial
  · nofun

theorem Form.input_foretells (inputs : List Form) (v : Variable) (position : Nat) :
    Foretells (Form.input inputs v position) := by
  unfold Form.input
  split
  · split
    · trivial
    · nofun
  · nofun

theorem Slot.executeForm_foretells (inputs stack : List Form) (slot : Slot β) :
    Foretells (slot.executeForm inputs stack) := by
  unfold executeForm
  split
  · exact Form.push_foretells ..
  · exact (Form.input_foretells ..).bind fun f _ => f.push_foretells _
  · split
    · exact (UnaryOp.form_foretells ..).map _
    · nofun
  · split
    · exact (BinaryOp.form_foretells ..).map _
    · nofun
  · nofun

theorem Program.form_foretells (p : Program β) (inputs : List Form) : Foretells (p.form inputs) := by
  have hrun : Foretells (p.slots.foldlM (Slot.executeForm inputs) []) :=
    Ends.foldlM (fun stack slot _ _ => slot.executeForm_foretells inputs stack) trivial
  refine hrun.bind fun stack _ => ?_
  unfold Slot.outcome
  split
  · nofun
  · trivial
  · nofun

namespace Slot

variable {inputs stack : List (Operand β)}

/-- Regular operands of the expected forms, or the expected error, unless there is an excuse. -/
def Mirrors (excuse : Prop) (expected : Except Error (List Form)) :
    Except (Halt β) (List (Operand β)) → Prop :=
  Ends (fun next => (∀ x ∈ next, x.Regular) ∧ expected = .ok (next.map Operand.form))
    (fun halt => expected = .error halt.error ∨ halt.error = .singularMatrix ∧ excuse)

theorem push_mirrors {excuse : Prop} {x : Operand β} (hx : x.Regular)
    (hstack : ∀ y ∈ stack, y.Regular) :
    Mirrors excuse (x.form.push (stack.map Operand.form)) (push x stack) := by
  simp only [push, Form.push, List.length_map]
  split
  · exact ⟨List.forall_mem_cons.2 ⟨hx, hstack⟩, rfl⟩
  · exact .inl rfl

theorem input_follows (hinputs : ∀ x ∈ inputs, x.Regular) (v : Variable) (position : Nat) :
    Follows (Form.input (inputs.map Operand.form) v position) (input inputs v position) := by
  simp only [input, Form.input, List.getElem?_map, List.length_map]
  cases hx : inputs[position]? with
  | none => rfl
  | some x =>
    simp only [Option.map_some, Variable.bind, Variable.accepts, Operand.kind_form]
    split
    · exact ⟨hinputs x (List.mem_of_getElem? hx), rfl⟩
    · rfl

theorem deliver_mirrors {excuse : Prop} {expected : Except Error Form}
    {result : Except Error (Operand β)} {rest : List (Operand β)} (h : Follows expected result)
    (hrest : ∀ y ∈ rest, y.Regular) :
    Mirrors excuse (expected.map (· :: rest.map Operand.form)) (deliver rest result) := by
  cases result with
  | ok x =>
    obtain ⟨hx, rfl⟩ := h
    exact ⟨List.forall_mem_cons.2 ⟨hx, hrest⟩, rfl⟩
  | error e =>
    obtain rfl : expected = .error e := h
    exact .inl rfl

end Slot

variable [ElementaryFunctions β]

namespace Slot

variable {inputs stack : List (Operand β)}

def Singular (stack : List (Operand β)) : Slot β → Prop
  | .operation (.binary op) =>
    match stack with
    | right :: left :: _ => op.Singular left right
    | _ => False
  | _ => False

theorem exists_of_singular {slot : Slot β} (h : slot.Singular stack) :
    ∃ m s rest, slot = .operation (.binary .power) ∧ stack = .scalar s :: .matrix m :: rest ∧
      m.isSquare = true ∧ ElementaryFunctions.wholePart s.re < 0 ∧
      m.inverse = .error .singularMatrix := by
  unfold Singular at h
  split at h
  · next op =>
    split at h
    · next right left rest =>
      unfold BinaryOp.Singular at h
      split at h
      · next m s => exact ⟨m, s, rest, rfl, rfl, h⟩
      · exact h.elim
    · exact h.elim
  · exact h.elim

/-- One slot does to the forms what it does to the operands. -/
theorem execute_mirrors (hinputs : ∀ x ∈ inputs, x.Regular) (hstack : ∀ x ∈ stack, x.Regular)
    {slot : Slot β} (hslot : slot.Regular) :
    Mirrors (slot.Singular stack)
      (executeForm (inputs.map Operand.form) (stack.map Operand.form) slot)
      (execute inputs stack slot) := by
  cases slot with
  | constant x => exact push_mirrors hslot hstack
  | «variable» v position =>
    have hinput := input_follows hinputs v position
    simp only [execute, executeForm]
    cases hv : input inputs v position with
    | error e =>
      rw [hv] at hinput
      have hexpected : Form.input (inputs.map Operand.form) v position = .error e := hinput
      exact .inl (by rw [hexpected]; rfl)
    | ok x =>
      rw [hv] at hinput
      obtain ⟨hx, hexpected⟩ := hinput
      rw [hexpected]
      exact push_mirrors hx hstack
  | operation op =>
    cases op with
    | unary op =>
      cases stack with
      | nil => exact .inl rfl
      | cons x rest =>
        obtain ⟨hx, hrest⟩ := List.forall_mem_cons.1 hstack
        exact deliver_mirrors (op.apply_follows hx) hrest
    | binary op =>
      cases stack with
      | nil => exact .inl rfl
      | cons y stack =>
        cases stack with
        | nil => exact .inl rfl
        | cons x rest =>
          obtain ⟨hy, hrest⟩ := List.forall_mem_cons.1 hstack
          obtain ⟨hx, hrest⟩ := List.forall_mem_cons.1 hrest
          rcases op.apply_follows hx hy with hfollows | ⟨hsingular, happly⟩
          · exact deliver_mirrors hfollows hrest
          · simp only [execute, happly]
            exact .inr ⟨rfl, hsingular⟩
    | unknown name => exact .inl rfl

def MeetsSingular (inputs stack : List (Operand β)) (slots : List (Slot β)) : Prop :=
  ∃ before slot after reached, slots = before ++ slot :: after ∧
    before.foldlM (execute inputs) stack = .ok reached ∧ slot.Singular reached

theorem MeetsSingular.cons {slot : Slot β} {slots : List (Slot β)} {next : List (Operand β)}
    (he : execute inputs stack slot = .ok next) (h : MeetsSingular inputs next slots) :
    MeetsSingular inputs stack (slot :: slots) := by
  obtain ⟨before, found, after, reached, rfl, hrun, hsingular⟩ := h
  refine ⟨slot :: before, found, after, reached, rfl, ?_, hsingular⟩
  rw [List.foldlM_cons, he]
  exact hrun

theorem run_mirrors (hinputs : ∀ x ∈ inputs, x.Regular) (hstack : ∀ x ∈ stack, x.Regular)
    {slots : List (Slot β)} (hslots : ∀ slot ∈ slots, slot.Regular) :
    Mirrors (MeetsSingular inputs stack slots)
      (slots.foldlM (executeForm (inputs.map Operand.form)) (stack.map Operand.form))
      (slots.foldlM (execute inputs) stack) := by
  induction slots generalizing stack with
  | nil => exact ⟨hstack, rfl⟩
  | cons slot slots ih =>
    obtain ⟨hslot, hrest⟩ := List.forall_mem_cons.1 hslots
    have hstep := execute_mirrors hinputs hstack hslot
    rw [List.foldlM_cons, List.foldlM_cons]
    cases he : execute inputs stack slot with
    | error halt =>
      rw [he] at hstep
      rcases hstep with hform | ⟨herror, hsingular⟩
      · exact .inl (by rw [hform]; rfl)
      · exact .inr ⟨herror, [], slot, slots, stack, rfl, rfl, hsingular⟩
    | ok next =>
      rw [he] at hstep
      obtain ⟨hnext, hform⟩ := hstep
      rw [hform]
      exact (ih hnext hrest).mono (fun _ => id) fun _ => Or.imp_right (And.imp_right (.cons he))

end Slot

theorem constant_mem_compile {registered : List Variable} {tokens : List (Token β)} {p : Program β}
    (h : compile registered tokens = .ok p) {x : Operand β} (hx : .constant x ∈ p.slots) :
    .constant x ∈ tokens := by
  obtain ⟨t, ht, hholds⟩ := holds_of_mem_compile h hx rfl
  cases hholds
  exact ht

theorem regular_of_compile {registered : List Variable} {tokens : List (Token β)} {p : Program β}
    (h : compile registered tokens = .ok p) (constants : ∀ x, .constant x ∈ tokens → x.Regular) :
    ∀ slot ∈ p.slots, slot.Regular := by
  intro slot hslot
  cases slot with
  | constant x => exact constants x (constant_mem_compile h hslot)
  | «variable» v position => trivial
  | operation op => trivial

/-- A run ends as the forms foretell, or at a negative power of a singular matrix. -/
theorem Program.eval_follows {p : Program β} (hslots : ∀ slot ∈ p.slots, slot.Regular)
    {inputs : List (Operand β)} (accepted : p.checkInputs inputs = .ok ())
    (regular : ∀ x ∈ inputs, x.Regular) :
    Follows (p.form (inputs.map Operand.form)) (p.eval inputs) ∨
      p.eval inputs = .error .singularMatrix ∧ Slot.MeetsSingular inputs [] p.slots := by
  have hrun := Slot.run_mirrors regular (List.forall_mem_nil Operand.Regular) hslots
  have hnil : ([] : List (Operand β)).map Operand.form = [] := rfl
  rw [hnil] at hrun
  simp only [Program.eval_eq, accepted, Except.bind, Slot.executeAll, Program.form]
  cases he : p.slots.foldlM (Slot.execute inputs) [] with
  | ok last =>
    rw [he] at hrun
    obtain ⟨hlast, hform⟩ := hrun
    simp only [hform, Except.mapError]
    match last with
    | [] => exact .inl rfl
    | [x] => exact .inl ⟨hlast x List.mem_cons_self, rfl⟩
    | x :: y :: rest =>
      refine .inl (congrArg (fun n => Except.error (Error.tooManyOperands n)) ?_)
      simp
  | error halt =>
    rw [he] at hrun
    rcases hrun with hform | ⟨herror, hmeets⟩
    · rw [hform]
      exact .inl rfl
    · exact .inr ⟨congrArg Except.error herror, hmeets⟩

/-- A compiled expression of regular constants, run on regular inputs that are accepted, ends with a
regular operand of the form or with the error that its program computes from the forms of the inputs
alone. The one exception, which the forms never foretell, is a run that ends because a negative power
meets a singular matrix. -/
theorem eval_follows_form {registered : List Variable} {tokens : List (Token β)} {p : Program β}
    (compiled : compile registered tokens = .ok p)
    (constants : ∀ x, .constant x ∈ tokens → x.Regular)
    {inputs : List (Operand β)} (accepted : p.checkInputs inputs = .ok ())
    (regular : ∀ x ∈ inputs, x.Regular) :
    (∃ x, p.eval inputs = .ok x ∧ x.Regular ∧ p.form (inputs.map Operand.form) = .ok x.form) ∨
    (∃ e, e ≠ .singularMatrix ∧ p.eval inputs = .error e ∧
      p.form (inputs.map Operand.form) = .error e) ∨
    (p.eval inputs = .error .singularMatrix ∧ ∃ before after m s rest,
      p.slots = before ++ .operation (.binary .power) :: after ∧
      Slot.executeAll inputs before = .ok (.scalar s :: .matrix m :: rest) ∧
      m.isSquare = true ∧ ElementaryFunctions.wholePart s.re < 0 ∧
      m.inverse = .error .singularMatrix) := by
  have hslots := regular_of_compile compiled constants
  have hforetells := p.form_foretells (inputs.map Operand.form)
  rcases Program.eval_follows hslots accepted regular with hfollows | ⟨herror, hmeets⟩
  · cases heval : p.eval inputs with
    | ok x =>
      rw [heval] at hfollows
      exact .inl ⟨x, rfl, hfollows⟩
    | error e =>
      rw [heval] at hfollows
      have hform : p.form (inputs.map Operand.form) = .error e := hfollows
      rw [hform] at hforetells
      exact .inr (.inl ⟨e, hforetells, rfl, hform⟩)
  · obtain ⟨before, slot, after, reached, hsplit, hreached, hsingular⟩ := hmeets
    obtain ⟨m, s, rest, rfl, rfl, hm⟩ := Slot.exists_of_singular hsingular
    exact .inr (.inr ⟨herror, before, after, m, s, rest, hsplit, hreached, hm⟩)

theorem eval_follows_form_column :
    ∃ y, (⟨[⟨7, .matrix⟩], [.variable ⟨7, .matrix⟩ 0, .constant (.vector (.zeros .column 2)),
        .operation (.binary .multiply)]⟩ : Program Float).eval [.matrix (.zeros 3 2)] = .ok y ∧
      y.Regular ∧ y.form = .vector .column 3 := by
  have hcompile : compile (β := Float) [⟨7, .matrix⟩]
      [.variable ⟨7, .matrix⟩, .symbol "*", .constant (.vector (.zeros .column 2))] =
      .ok ⟨[⟨7, .matrix⟩], [.variable ⟨7, .matrix⟩ 0, .constant (.vector (.zeros .column 2)),
        .operation (.binary .multiply)]⟩ := by
    rfl
  have hconstants : ∀ x : Operand Float, Token.constant x ∈ [Token.variable ⟨7, .matrix⟩,
      Token.symbol "*", Token.constant (.vector (.zeros .column 2))] → x.Regular := by
    simp [Operand.Regular]
  have hinputs : ∀ x ∈ [Operand.matrix (β := Float) (.zeros 3 2)], x.Regular := by
    intro x hx
    cases List.mem_singleton.1 hx
    exact (DenseMatrix.hasShape_zeros 3 2).regular
  rcases eval_follows_form hcompile hconstants rfl hinputs with
    ⟨y, heval, hregular, hform⟩ | ⟨e, -, -, hform⟩ | ⟨-, before, after, m, s, rest, hsplit, -⟩
  · exact ⟨y, heval, hregular, (Except.ok.inj hform).symm⟩
  · cases hform
  · have hpower : Slot.operation (.binary .power) ∈
        before ++ Slot.operation (β := Float) (.binary .power) :: after := by simp
    rw [← hsplit] at hpower
    simp at hpower

end MatrixCalculator
