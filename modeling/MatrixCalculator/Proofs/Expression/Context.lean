import MatrixCalculator.Proofs.Expression.Conservation
import MatrixCalculator.Proofs.Expression.Grammar
set_option autoImplicit false

/-!
A group and what stands around it. While the tokens of a group are read, nothing below the opening
parenthesis is released, compared or closed, and the places noted for groups decide nothing but which
one an error names. So a group that compiles by itself acts like one operand, whatever is in it.
-/

namespace MatrixCalculator

variable {β : Type}

def Token.grouped (tokens : List (Token β)) : List (Token β) :=
  .symbol Parenthesis.opening.symbol :: tokens ++ [.symbol Parenthesis.closing.symbol]

namespace Pending

/-- The second stack is the first one, with other places for its groups, on top of `floor`. -/
inductive Over (floor : List Pending) : List Pending → List Pending → Prop where
  | floor : Over floor [] floor
  | group {stack other : List Pending} (i j : Nat) (h : Over floor stack other) :
      Over floor (.group i :: stack) (.group j :: other)
  | operator {stack other : List Pending} (op : Operator) (h : Over floor stack other) :
      Over floor (.operator op :: stack) (.operator op :: other)

variable {floor stack other next last rest : List Pending}

theorem over_refl (stack : List Pending) : Over [] stack stack := by
  induction stack with
  | nil => exact .floor
  | cons waiting stack ih =>
    cases waiting with
    | group position => exact .group position position ih
    | operator op => exact .operator op ih

theorem Over.exists_eq_append {ops : List Operator} (h : Over floor (ops.map .operator ++ stack) other) :
    ∃ rest, other = ops.map .operator ++ rest ∧ Over floor stack rest := by
  induction ops generalizing other with
  | nil => exact ⟨other, rfl, h⟩
  | cons op ops ih =>
    cases h with
    | operator _ h =>
      obtain ⟨rest, rfl, hrest⟩ := ih h
      exact ⟨rest, rfl, hrest⟩

theorem Over.eq_append {ops : List Operator} (h : Over floor (ops.map .operator) other) :
    other = ops.map .operator ++ floor := by
  rw [← List.append_nil (ops.map Pending.operator)] at h
  obtain ⟨rest, rfl, hrest⟩ := h.exists_eq_append
  cases hrest
  rfl

/-- A floor that holds gives nothing away, so the same operators are released above it. -/
theorem Over.release (hf : Holds 0 floor) {op : Operator} (hu : op.isUnary = false)
    (h : Over floor stack other) :
    (release op other).1 = (release op stack).1 ∧
      Over floor (release op stack).2 (release op other).2 := by
  induction h with
  | floor =>
    rw [hf op hu (Nat.zero_le _)]
    exact ⟨rfl, .floor⟩
  | group i j h => exact ⟨rfl, .group i j h⟩
  | operator waiting h ih =>
    simp only [Pending.release]
    split
    · exact ⟨congrArg (waiting :: ·) ih.1, ih.2⟩
    · exact ⟨rfl, .operator waiting h⟩

theorem Over.push (hf : Holds 0 floor) (op : Operator) (h : Over floor stack other) :
    (push op other).1 = (push op stack).1 ∧ Over floor (push op stack).2 (push op other).2 := by
  cases hu : op.isUnary with
  | true => simpa [Pending.push, hu] using Over.operator op h
  | false =>
    obtain ⟨hreleased, hrest⟩ := h.release hf hu
    simpa [Pending.push, hu, hreleased] using Over.operator op hrest

variable [ElementaryFunctions β] {registered : List Variable} {index : Nat} {t : Token β}
  {slots : List (Slot β)}

theorem Advance.over (hf : Holds 0 floor) (h : Advance registered index stack t slots next)
    (ho : Over floor stack other) (j : Nat) :
    ∃ next', Advance registered j other t slots next' ∧ Over floor next next' := by
  cases h with
  | constant finite => exact ⟨other, .constant finite, ho⟩
  | «variable» found => exact ⟨other, .variable found, ho⟩
  | opening => exact ⟨.group j :: other, .opening other, .group index j ho⟩
  | closing released position rest =>
    obtain ⟨tail, rfl, htail⟩ := ho.exists_eq_append
    cases htail with
    | @group _ rest' _ position' h => exact ⟨rest', .closing released position' rest', h⟩
  | @operator name op released rest notParenthesis named pushed =>
    obtain ⟨released', rest', hpush, rfl⟩ := exists_push_eq op other
    have hover := ho.push hf op
    rw [pushed, hpush] at hover
    obtain ⟨rfl, hnext⟩ := hover
    exact ⟨_, .operator notParenthesis named hpush, hnext⟩

theorem scan_over (hf : Holds 0 floor) {tokens : List (Token β)}
    (h : scan registered index stack tokens = .ok (slots, last)) (ho : Over floor stack other)
    (j : Nat) :
    ∃ last', scan registered j other tokens = .ok (slots, last') ∧ Over floor last last' := by
  induction tokens generalizing index stack slots other j with
  | nil =>
    obtain ⟨rfl, rfl⟩ := scan_nil_eq_ok_iff.1 h
    exact ⟨other, rfl, ho⟩
  | cons t ts ih =>
    obtain ⟨before, middle, after, hstep, hscan, rfl⟩ := scan_cons_eq_ok_iff.1 h
    obtain ⟨middle', hstep', hmiddle⟩ := hstep.over hf ho j
    obtain ⟨last', hscan', hlast⟩ := ih hscan hmiddle (j + 1)
    exact ⟨last', scan_cons_eq_ok_iff.2 ⟨before, middle', after, hstep', hscan', rfl⟩, hlast⟩

/-- Wherever the tokens stand they emit the slots and leave the stack as it is. -/
def Stands (registered : List Variable) (tokens : List (Token β)) (slots : List (Slot β)) : Prop :=
  ∀ index stack, scan registered index stack tokens = .ok (slots, stack)

theorem stands_constant {x : Operand β} (finite : x.isFinite = true) :
    Stands registered [.constant x] [.constant x] :=
  fun _ _ => scan_singleton (Advance.constant finite).step_eq

theorem stands_grouped {tokens : List (Token β)} {p : Program β}
    (compiled : compile registered tokens = .ok p) :
    Stands registered (Token.grouped tokens) p.slots := by
  intro index stack
  obtain ⟨-, emitted, waiting, hscan, rfl⟩ := compile_eq_ok_iff.1 compiled
  obtain ⟨last, hinner, hlast⟩ := scan_over (holds_group 0 index stack) hscan .floor (index + 1)
  obtain rfl := hlast.eq_append
  have hopen : scan registered index stack (.symbol Parenthesis.opening.symbol :: tokens) =
      .ok (emitted, waiting.map .operator ++ .group index :: stack) :=
    scan_cons_eq_ok_iff.2 ⟨[], _, emitted, .opening stack, hinner, rfl⟩
  exact scan_append_of_ok hopen (scan_singleton (Advance.closing waiting index stack).step_eq)

end Pending

variable [ElementaryFunctions β] {registered : List Variable}

theorem compile_exchange {xs ys : List (Token β)} {a b : List (Slot β)}
    (ha : Pending.Stands registered xs a) (hb : Pending.Stands registered ys b)
    {pre post : List (Token β)} {p : Program β}
    (compiled : compile registered (pre ++ xs ++ post) = .ok p) :
    ∃ before after, p.slots = before ++ a ++ after ∧
      (Slot.operands before).length = (Token.operands pre).length ∧
      compile registered (pre ++ ys ++ post) = .ok ⟨registered, before ++ b ++ after⟩ := by
  obtain ⟨hd, emitted, waiting, hscan, rfl⟩ := compile_eq_ok_iff.1 compiled
  obtain ⟨front, stack, after, hfront, hpost, rfl⟩ := Pending.scan_append_eq_ok_iff.1 hscan
  obtain ⟨before, middle, inner, hpre, hxs, rfl⟩ := Pending.scan_append_eq_ok_iff.1 hfront
  rw [ha] at hxs
  cases hxs
  obtain ⟨last, hpost', hlast⟩ := Pending.scan_over (Pending.holds_nil 0) hpost
    (Pending.over_refl stack) (0 + (pre ++ ys).length)
  obtain rfl := hlast.eq_append
  rw [List.append_nil] at hpost'
  have hfront' := Pending.scan_append_of_ok hpre (hb (0 + pre.length) stack)
  refine ⟨before, after ++ waiting.map .operation, by simp, ?_, ?_⟩
  · exact (Pending.scan_operands hpre).length_eq.symm
  · exact compile_eq_ok_iff.2 ⟨hd, _, waiting, Pending.scan_append_of_ok hfront' hpost', by simp⟩

/-- A group compiles like a literal in its place, in any context. The context compiles with the group
if and only if it does with the literal; the program is then the one with the literal, whose slot has
given way to the slots of the group compiled alone. That slot is the one after as many operands as
stand before the literal. -/
theorem compile_grouped {tokens : List (Token β)} {p : Program β}
    (compiled : compile registered tokens = .ok p) {c : Operand β} (finite : c.isFinite = true)
    (pre post : List (Token β)) :
    ((∃ q, compile registered (pre ++ Token.grouped tokens ++ post) = .ok q) ↔
      ∃ q, compile registered (pre ++ [.constant c] ++ post) = .ok q) ∧
    ∀ q, compile registered (pre ++ [.constant c] ++ post) = .ok q →
      ∃ before after, q.slots = before ++ [.constant c] ++ after ∧
        (Slot.operands before).length = (Token.operands pre).length ∧
        compile registered (pre ++ Token.grouped tokens ++ post) =
          .ok ⟨registered, before ++ p.slots ++ after⟩ := by
  have hgroup := Pending.stands_grouped compiled
  have hconstant : Pending.Stands registered [.constant c] [.constant c] :=
    Pending.stands_constant finite
  refine ⟨⟨fun ⟨q, hq⟩ => ?_, fun ⟨q, hq⟩ => ?_⟩, fun q hq => compile_exchange hconstant hgroup hq⟩
  · obtain ⟨before, after, -, -, h⟩ := compile_exchange hgroup hconstant hq
    exact ⟨_, h⟩
  · obtain ⟨before, after, -, -, h⟩ := compile_exchange hconstant hgroup hq
    exact ⟨_, h⟩

theorem compile_grouped_malformed :
    compile (β := Float) [⟨7, .scalar⟩] [.symbol "-", .variable ⟨7, .scalar⟩] =
        .ok ⟨[⟨7, .scalar⟩], [.variable ⟨7, .scalar⟩ 0, .operation (.binary .subtract)]⟩ ∧
      ∃ before after,
        [.variable ⟨7, .scalar⟩ 0, .constant (.scalar ⟨5, 0⟩), .constant (.scalar ⟨2, 0⟩),
          .operation (.binary .power), .operation (.binary .multiply)] =
            before ++ [.constant (.scalar ⟨5, 0⟩)] ++ after ∧
        (Slot.operands before).length = 1 ∧
        compile (β := Float) [⟨7, .scalar⟩] ([.variable ⟨7, .scalar⟩, .symbol "*"] ++
            Token.grouped [.symbol "-", .variable ⟨7, .scalar⟩] ++
            [.symbol "^", .constant (.scalar ⟨2, 0⟩)]) =
          .ok ⟨[⟨7, .scalar⟩],
            before ++ [.variable ⟨7, .scalar⟩ 0, .operation (.binary .subtract)] ++ after⟩ :=
  have compiled : compile (β := Float) [⟨7, .scalar⟩] [.symbol "-", .variable ⟨7, .scalar⟩] =
      .ok ⟨[⟨7, .scalar⟩], [.variable ⟨7, .scalar⟩ 0, .operation (.binary .subtract)]⟩ := by
    rfl
  have finite : (Operand.scalar (β := Float) ⟨5, 0⟩).isFinite = true := by rfl
  ⟨compiled, (compile_grouped compiled finite [.variable ⟨7, .scalar⟩, .symbol "*"]
    [.symbol "^", .constant (.scalar ⟨2, 0⟩)]).2 _ (by rfl)⟩

end MatrixCalculator
