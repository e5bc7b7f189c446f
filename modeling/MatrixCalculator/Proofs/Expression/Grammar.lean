import MatrixCalculator.Binary64
import MatrixCalculator.Proofs.Expression.Reading
import MatrixCalculator.Proofs.Expression.Registration
import MatrixCalculator.Proofs.Expression.Tree
set_option autoImplicit false

/-!
The infix grammar, and that compiling follows it. Categories are ordered from the loosest binding
to the tightest: unknown names, then sums, products, powers, and unary functions over primary
phrases. A phrase is a derivation; `Phrase.tokens` writes it down and `Phrase.tree` forgets its
parentheses. Compiling the tokens of any phrase gives the postfix form of its tree.
-/

namespace MatrixCalculator

inductive Category where
  | expression | sum | product | power | application | primary
  deriving DecidableEq, Repr

/-- The least precedence among the operators that may wait when a phrase has been read. -/
def Category.level : Category → Nat
  | .expression => 0
  | .sum => 1
  | .product => 2
  | .power => 3
  | .application => 4
  | .primary => 5

structure LooseName where
  text : String
  notUnary : UnaryOp.ofName? text = none
  notBinary : BinaryOp.ofName? text = none
  short : text.utf8ByteSize ≤ Operator.maxNameBytes
  notParenthesis : ∀ p : Parenthesis, text ≠ p.symbol

inductive Phrase (β : Type) [ElementaryFunctions β] (registered : List Variable) : Category → Type where
  | unknown (left : Phrase β registered .expression) (name : LooseName)
      (right : Phrase β registered .sum) : Phrase β registered .expression
  | ofSum (s : Phrase β registered .sum) : Phrase β registered .expression
  | additive (left : Phrase β registered .sum) (op : BinaryOp) (isAdditive : op = .add ∨ op = .subtract)
      (right : Phrase β registered .product) : Phrase β registered .sum
  | ofProduct (p : Phrase β registered .product) : Phrase β registered .sum
  | multiplicative (left : Phrase β registered .product) (op : BinaryOp)
      (isMultiplicative : op = .multiply ∨ op = .divide)
      (right : Phrase β registered .power) : Phrase β registered .product
  | ofPower (p : Phrase β registered .power) : Phrase β registered .product
  | power (base : Phrase β registered .application) (exponent : Phrase β registered .power) :
      Phrase β registered .power
  | ofApplication (a : Phrase β registered .application) : Phrase β registered .power
  | apply (op : UnaryOp) (argument : Phrase β registered .application) :
      Phrase β registered .application
  | ofPrimary (p : Phrase β registered .primary) : Phrase β registered .application
  | constant (x : Operand β) (finite : x.isFinite = true) : Phrase β registered .primary
  | input (position : Fin registered.length) : Phrase β registered .primary
  | group (inner : Phrase β registered .expression) : Phrase β registered .primary

namespace Phrase

variable {β : Type} [ElementaryFunctions β] {registered : List Variable}

def tokens {c : Category} : Phrase β registered c → List (Token β)
  | .unknown left name right => left.tokens ++ .symbol name.text :: right.tokens
  | .ofSum s => s.tokens
  | .additive left op _ right => left.tokens ++ .symbol op.symbol :: right.tokens
  | .ofProduct p => p.tokens
  | .multiplicative left op _ right => left.tokens ++ .symbol op.symbol :: right.tokens
  | .ofPower p => p.tokens
  | .power base exponent => base.tokens ++ .symbol BinaryOp.power.symbol :: exponent.tokens
  | .ofApplication a => a.tokens
  | .apply op argument => .symbol op.name :: argument.tokens
  | .ofPrimary p => p.tokens
  | .constant x _ => [.constant x]
  | .input i => [.variable registered[i]]
  | .group inner => .symbol Parenthesis.opening.symbol :: inner.tokens ++ [.symbol Parenthesis.closing.symbol]

def tree {c : Category} : Phrase β registered c → Tree β registered
  | .unknown left name right => .dyadic (.unknown name.text) left.tree right.tree
  | .ofSum s => s.tree
  | .additive left op _ right => .dyadic (.known op) left.tree right.tree
  | .ofProduct p => p.tree
  | .multiplicative left op _ right => .dyadic (.known op) left.tree right.tree
  | .ofPower p => p.tree
  | .power base exponent => .dyadic (.known .power) base.tree exponent.tree
  | .ofApplication a => a.tree
  | .apply op argument => .unary op argument.tree
  | .ofPrimary p => p.tree
  | .constant x _ => .constant x
  | .input i => .input i
  | .group inner => inner.tree

end Phrase

theorem BinaryOp.ofName?_symbol (op : BinaryOp) :
    Operator.ofName? op.symbol = some (.binary op) := by
  cases op <;> decide

theorem UnaryOp.ofName?_name (op : UnaryOp) : Operator.ofName? op.name = some (.unary op) := by
  cases op <;> decide

theorem LooseName.ofName?_text (name : LooseName) :
    Operator.ofName? name.text = some (.unknown name.text) := by
  simp [Operator.ofName?, name.notUnary, name.notBinary, name.short]

theorem BinaryOp.symbol_ne_parenthesis (op : BinaryOp) (p : Parenthesis) : op.symbol ≠ p.symbol := by
  cases op <;> cases p <;> decide

theorem UnaryOp.name_ne_parenthesis (op : UnaryOp) (p : Parenthesis) : op.name ≠ p.symbol := by
  cases op <;> cases p <;> decide

namespace Pending

variable {β : Type} [ElementaryFunctions β] {registered : List Variable}

/-- No operator that binds at least as tightly as `level` releases anything from the stack. -/
def Holds (level : Nat) (stack : List Pending) : Prop :=
  ∀ op : Operator, op.isUnary = false → level ≤ op.precedence → release op stack = ([], stack)

/-- On any stack that holds, the tokens emit the slots, but for a last part that still waits on top
of the stack when the tokens have been read. All that waits binds at least as tightly as `level`. -/
def Reads (registered : List Variable) (level : Nat) (tokens : List (Token β))
    (slots : List (Slot β)) : Prop :=
  ∀ index stack, Holds level stack → ∃ (emitted : List (Slot β)) (waiting : List Operator),
    scan registered index stack tokens = .ok (emitted, waiting.map .operator ++ stack) ∧
    emitted ++ waiting.map .operation = slots ∧
    ∀ op ∈ waiting, level ≤ op.precedence

theorem Holds.mono {m n : Nat} {stack : List Pending} (h : Holds m stack) (hmn : m ≤ n) :
    Holds n stack := fun op hu hn => h op hu (Nat.le_trans hmn hn)

theorem holds_nil (level : Nat) : Holds level [] := fun _ _ _ => rfl

theorem holds_group (level position : Nat) (stack : List Pending) :
    Holds level (.group position :: stack) := fun _ _ _ => rfl

theorem holds_application (stack : List Pending) : Holds Category.application.level stack := by
  intro op hu hl
  cases op with
  | unary f => cases hu
  | binary op => cases op <;> simp [Operator.precedence, BinaryOp.precedence, Category.level] at hl
  | unknown name => simp [Operator.precedence, Category.level] at hl

theorem Reads.weaken {m n : Nat} {tokens : List (Token β)} {slots : List (Slot β)}
    (h : Reads registered m tokens slots) (hnm : n ≤ m) : Reads registered n tokens slots := by
  intro index stack hs
  obtain ⟨emitted, waiting, hscan, hslots, hwaiting⟩ := h index stack (hs.mono hnm)
  exact ⟨emitted, waiting, hscan, hslots, fun op hop => Nat.le_trans hnm (hwaiting op hop)⟩

theorem Reads.operand {level : Nat} {t : Token β} {slot : Slot β}
    (h : ∀ index stack, step registered index stack t = .ok ([slot], stack)) :
    Reads registered level [t] [slot] := by
  intro index stack _
  exact ⟨[slot], [], scan_singleton (h index stack), rfl, by simp⟩

theorem Reads.unary {tokens : List (Token β)} {slots : List (Slot β)} (op : UnaryOp)
    (h : Reads registered Category.application.level tokens slots) :
    Reads registered Category.application.level (.symbol op.name :: tokens)
      (slots ++ [.operation (.unary op)]) := by
  intro index stack _
  obtain ⟨emitted, waiting, hscan, hslots, hwaiting⟩ :=
    h (index + 1) (.operator (.unary op) :: stack) (holds_application _)
  have hstep : step (β := β) registered index stack (.symbol op.name) =
      .ok ([], .operator (.unary op) :: stack) := by
    rw [step_operator op.name_ne_parenthesis op.ofName?_name]
    rfl
  refine ⟨emitted, waiting ++ [.unary op], ?_, ?_, ?_⟩
  · simp [scan_cons, hstep, hscan, Except.bind, Except.map]
  · simp [← hslots]
  · intro w hw
    rcases List.mem_append.1 hw with hw | hw
    · exact hwaiting w hw
    · obtain rfl := List.mem_singleton.1 hw
      exact Nat.le_of_ble_eq_true rfl

/-- An operator between two phrases. It must wait for everything the left phrase leaves, and
nothing inside the right phrase may release it. -/
theorem Reads.between {n l r : Nat} {left right : List (Token β)} {a b : List (Slot β)}
    {name : String} {op : Operator} (hname : ∀ p : Parenthesis, name ≠ p.symbol)
    (hop : Operator.ofName? name = some op) (hu : op.isUnary = false) (hn : n ≤ op.precedence)
    (hl : n ≤ l) (hr : n ≤ r) (hyields : ∀ w : Operator, l ≤ w.precedence → yieldsTo w op = true)
    (hstays : ∀ o : Operator, o.isUnary = false → r ≤ o.precedence → yieldsTo op o = false)
    (ha : Reads registered l left a) (hb : Reads registered r right b) :
    Reads registered n (left ++ .symbol name :: right) (a ++ b ++ [.operation op]) := by
  intro index stack hs
  obtain ⟨emitted, waiting, hscan, rfl, hwaiting⟩ := ha index stack (hs.mono hl)
  have hpush : push op (waiting.map .operator ++ stack) = (waiting, .operator op :: stack) := by
    have hrel := release_append_of_yieldsTo (fun w hw => hyields w (hwaiting w hw)) stack
    simp [push, hu, hrel, hs op hu hn]
  have hholds : Holds r (.operator op :: stack) := by
    intro o hou ho
    simp [release, hstays o hou ho]
  obtain ⟨emitted', waiting', hscan', rfl, hwaiting'⟩ :=
    hb (index + left.length + 1) (.operator op :: stack) hholds
  refine ⟨emitted ++ (waiting.map .operation ++ emitted'), waiting' ++ [op], ?_, ?_, ?_⟩
  · refine scan_append_of_ok hscan ?_
    rw [scan_cons, step_operator hname hop, hpush]
    simp [hscan', Except.bind, Except.map]
  · simp
  · intro w hw
    rcases List.mem_append.1 hw with hw | hw
    · exact Nat.le_trans hr (hwaiting' w hw)
    · obtain rfl := List.mem_singleton.1 hw
      exact hn

theorem Reads.leftAssociative {left right : List (Token β)} {a b : List (Slot β)}
    {name : String} {op : Operator} (hname : ∀ p : Parenthesis, name ≠ p.symbol)
    (hop : Operator.ofName? name = some op) (hu : op.isUnary = false)
    (hassoc : op.isRightAssociative = false) (ha : Reads registered op.precedence left a)
    (hb : Reads registered (op.precedence + 1) right b) :
    Reads registered op.precedence (left ++ .symbol name :: right) (a ++ b ++ [.operation op]) := by
  refine Reads.between hname hop hu (Nat.le_refl _) (Nat.le_refl _) (Nat.le_succ _) ?_ ?_ ha hb
  · intro w hw
    rcases Nat.lt_or_eq_of_le hw with hlt | heq
    · exact yieldsTo_iff.2 (.inr (.inl hlt))
    · exact yieldsTo_iff.2 (.inr (.inr ⟨heq.symm, hassoc⟩))
  · intro o _ ho
    rw [Bool.eq_false_iff, Ne, yieldsTo_iff]
    rintro (hun | hlt | ⟨heq, -⟩)
    · rw [hu] at hun
      cases hun
    · omega
    · omega

theorem Reads.binary {left right : List (Token β)} {a b : List (Slot β)} (op : BinaryOp)
    (hassoc : (Operator.binary op).isRightAssociative = false)
    (ha : Reads registered op.precedence left a) (hb : Reads registered (op.precedence + 1) right b) :
    Reads registered op.precedence (left ++ .symbol op.symbol :: right)
      (a ++ b ++ [.operation (.binary op)]) :=
  Reads.leftAssociative op.symbol_ne_parenthesis op.ofName?_symbol rfl hassoc ha hb

theorem Reads.power {base exponent : List (Token β)} {a b : List (Slot β)}
    (ha : Reads registered Category.application.level base a)
    (hb : Reads registered Category.power.level exponent b) :
    Reads registered Category.power.level (base ++ .symbol BinaryOp.power.symbol :: exponent)
      (a ++ b ++ [.operation (.binary .power)]) := by
  refine Reads.between BinaryOp.power.symbol_ne_parenthesis BinaryOp.power.ofName?_symbol rfl
    (by decide) (by decide) (by decide) ?_ ?_ ha hb
  · intro w hw
    exact yieldsTo_iff.2 (.inr (.inl hw))
  · intro o hu ho
    -- only a power binds as tightly as a power, and a power does not release a power
    cases o with
    | unary f => cases hu
    | binary op => cases op <;> revert ho <;> decide
    | unknown name => exact absurd ho (Nat.not_succ_le_zero 2)

theorem Reads.group {tokens : List (Token β)} {slots : List (Slot β)} {level : Nat}
    (h : Reads registered Category.expression.level tokens slots) :
    Reads registered level
      (.symbol Parenthesis.opening.symbol :: tokens ++ [.symbol Parenthesis.closing.symbol]) slots := by
  intro index stack _
  obtain ⟨emitted, waiting, hscan, rfl, -⟩ :=
    h (index + 1) (.group index :: stack) (holds_group _ index stack)
  refine ⟨emitted ++ waiting.map .operation, [], ?_, by simp, by simp⟩
  have hopen : scan registered index stack
      (.symbol Parenthesis.opening.symbol :: tokens) = .ok (emitted, waiting.map .operator ++ .group index :: stack) := by
    simp [scan_cons, step_opening, hscan, Except.bind, Except.map]
  exact scan_append_of_ok hopen (scan_singleton (step_closing (close_append ..) ..))

end Pending

namespace Phrase

variable {β : Type} [ElementaryFunctions β] {registered : List Variable}

theorem reads_tokens (h : (registered.map Variable.id).Nodup) {c : Category}
    (t : Phrase β registered c) :
    Pending.Reads registered c.level t.tokens t.tree.postorder := by
  induction t with
  | unknown left name right hl hr =>
    exact Pending.Reads.leftAssociative name.notParenthesis name.ofName?_text rfl rfl hl hr
  | ofSum s ih => exact ih.weaken (by decide)
  | additive left op isAdditive right hl hr =>
    rcases isAdditive with rfl | rfl
    · exact Pending.Reads.binary .add rfl hl hr
    · exact Pending.Reads.binary .subtract rfl hl hr
  | ofProduct p ih => exact ih.weaken (by decide)
  | multiplicative left op isMultiplicative right hl hr =>
    rcases isMultiplicative with rfl | rfl
    · exact Pending.Reads.binary .multiply rfl hl hr
    · exact Pending.Reads.binary .divide rfl hl hr
  | ofPower p ih => exact ih.weaken (by decide)
  | power base exponent hb he => exact Pending.Reads.power hb he
  | ofApplication a ih => exact ih.weaken (by decide)
  | apply op argument ih => exact Pending.Reads.unary op ih
  | ofPrimary p ih => exact ih.weaken (by decide)
  | constant x finite => exact Pending.Reads.operand fun index stack => by simp [Pending.step, finite]
  | input i =>
    exact Pending.Reads.operand fun index stack => by
      simp only [Pending.step, findIdx?_id_eq_some h (List.getElem?_eq_getElem i.isLt),
        Fin.getElem_fin]
  | group inner ih => exact ih.group

/-- Compiling what a phrase is written as gives the postfix form of its tree: names outside the
tables, sums and products group to the left, powers to the right, functions bind tightest and
chain from right to left, and a group counts as one operand. -/
theorem compile_tokens (h : (registered.map Variable.id).Nodup)
    (t : Phrase β registered .expression) :
    compile registered t.tokens = .ok ⟨registered, t.tree.postorder⟩ := by
  obtain ⟨emitted, waiting, hscan, hslots, -⟩ := t.reads_tokens h 0 [] (Pending.holds_nil _)
  have hd := duplicateIndex?_eq_none.2 (not_repeats_of_nodup h)
  have hflush : Pending.flush (waiting.map Pending.operator) = .ok waiting :=
    Pending.flush_eq_ok.2 rfl
  rw [List.append_nil] at hscan
  simp only [compile_of_distinct hd, hscan, Except.bind, hflush, Except.map, hslots]

/-- Over x and y: `x - y % Sin Cos x ^ (y - x) ^ y * x`. -/
theorem compile_tokens_nested :
    ([⟨7, .scalar⟩, ⟨3, .matrix⟩].map Variable.id).Nodup ∧
      compile (β := Float) [⟨7, .scalar⟩, ⟨3, .matrix⟩]
        [.variable ⟨7, .scalar⟩, .symbol "-", .variable ⟨3, .matrix⟩, .symbol "%", .symbol "Sin",
          .symbol "Cos", .variable ⟨7, .scalar⟩, .symbol "^", .symbol "(", .variable ⟨3, .matrix⟩,
          .symbol "-", .variable ⟨7, .scalar⟩, .symbol ")", .symbol "^", .variable ⟨3, .matrix⟩,
          .symbol "*", .variable ⟨7, .scalar⟩] =
      .ok ⟨[⟨7, .scalar⟩, ⟨3, .matrix⟩],
        [.variable ⟨7, .scalar⟩ 0, .variable ⟨3, .matrix⟩ 1, .operation (.binary .subtract),
          .variable ⟨7, .scalar⟩ 0, .operation (.unary .cos), .operation (.unary .sin),
          .variable ⟨3, .matrix⟩ 1, .variable ⟨7, .scalar⟩ 0, .operation (.binary .subtract),
          .variable ⟨3, .matrix⟩ 1, .operation (.binary .power), .operation (.binary .power),
          .variable ⟨7, .scalar⟩ 0, .operation (.binary .multiply), .operation (.unknown "%")]⟩ :=
  have distinct : ([⟨7, .scalar⟩, ⟨3, .matrix⟩].map Variable.id).Nodup := by decide
  ⟨distinct, compile_tokens distinct
    (.unknown
      (.ofSum (.additive (.ofProduct (.ofPower (.ofApplication (.ofPrimary (.input 0)))))
        .subtract (.inr rfl) (.ofPower (.ofApplication (.ofPrimary (.input 1))))))
      ⟨"%", rfl, rfl, Nat.le_of_ble_eq_true rfl, fun | .opening | .closing => nofun⟩
      (.ofProduct (.multiplicative
        (.ofPower (.power (.apply .sin (.apply .cos (.ofPrimary (.input 0))))
          (.power
            (.ofPrimary (.group (.ofSum (.additive
              (.ofProduct (.ofPower (.ofApplication (.ofPrimary (.input 1)))))
              .subtract (.inr rfl) (.ofPower (.ofApplication (.ofPrimary (.input 0))))))))
            (.ofApplication (.ofPrimary (.input 1))))))
        .multiply (.inl rfl) (.ofApplication (.ofPrimary (.input 0))))))⟩

end Phrase

end MatrixCalculator
