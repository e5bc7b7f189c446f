import MatrixCalculator.Proofs.Expression.Grouping
import MatrixCalculator.Proofs.Expression.Registration
set_option autoImplicit false

/-!
Which lists of tokens are refused, and for what. A token is at fault by itself, but for a closing
parenthesis, which is at fault when no group is open. The first fault ends a compilation; without
faults only an open group can, the innermost one. The waiting operators play no part: the groups on
the stack are the open ones, whatever the operators between them have released.
-/

namespace MatrixCalculator

variable {β : Type} [ElementaryFunctions β] {registered : List Variable}

/-- What is wrong with a token, given its place and whether a group is open there. -/
inductive Fault (registered : List Variable) (index : Nat) (isOpen : Prop) : Token β → Error → Prop where
  | literal {x : Operand β} (h : x.isFinite = false) :
      Fault registered index isOpen (.constant x) (.unsupportedLiteral index)
  | unregistered {v : Variable} (h : ∀ w ∈ registered, w.id ≠ v.id) :
      Fault registered index isOpen (.variable v) (.unregisteredVariable index)
  | unmatched (h : ¬ isOpen) :
      Fault registered index isOpen (.symbol Parenthesis.closing.symbol)
        (.unmatchedParenthesis index .closing)
  | longName {name : String} (hp : ∀ p : Parenthesis, name ≠ p.symbol)
      (hu : UnaryOp.ofName? name = none) (hb : BinaryOp.ofName? name = none)
      (hl : Operator.maxNameBytes < name.utf8ByteSize) :
      Fault registered index isOpen (.symbol name) .nameTooLong

def FaultAt (registered : List Variable) (tokens : List (Token β)) (i : Nat) (e : Error) : Prop :=
  ∃ t, tokens[i]? = some t ∧ Fault registered i (∃ j, OpenAt (tokens.take i) j) t e

theorem FaultAt.lt_length {tokens : List (Token β)} {i : Nat} {e : Error}
    (h : FaultAt registered tokens i e) : i < tokens.length := by
  obtain ⟨t, ht, -⟩ := h
  exact (List.getElem?_eq_some_iff.1 ht).1

theorem FaultAt.append {tokens : List (Token β)} {i : Nat} {e : Error}
    (h : FaultAt registered tokens i e) (more : List (Token β)) :
    FaultAt registered (tokens ++ more) i e := by
  have hi := h.lt_length
  obtain ⟨t, ht, hf⟩ := h
  refine ⟨t, by rw [List.getElem?_append_left hi, ht], ?_⟩
  rwa [List.take_append_of_le_length (Nat.le_of_lt hi)]

theorem Operator.ofName?_eq_none {name : String} :
    ofName? name = none ↔ UnaryOp.ofName? name = none ∧ BinaryOp.ofName? name = none ∧
      maxNameBytes < name.utf8ByteSize := by
  unfold ofName?
  cases UnaryOp.ofName? name <;> cases BinaryOp.ofName? name <;> simp

namespace Pending

def group? : Pending → Option Nat
  | .group position => some position
  | .operator _ => none

def groups (stack : List Pending) : List Nat := stack.filterMap group?

theorem groups_operators (ops : List Operator) (stack : List Pending) :
    groups (ops.map .operator ++ stack) = groups stack := by
  simp [groups, List.filterMap_append, List.filterMap_map, Function.comp_def, group?]

theorem groups_push (op : Operator) (stack : List Pending) :
    groups (push op stack).2 = groups stack := by
  unfold push
  split
  · rfl
  · have h := release_append op stack
    calc groups (release op stack).2
        = groups ((release op stack).1.map .operator ++ (release op stack).2) :=
          (groups_operators ..).symm
      _ = groups stack := by rw [h]

theorem close_of_groups_eq_nil {stack : List Pending} (h : groups stack = []) :
    close stack = none := by
  refine close_eq_none.2 fun position hm => ?_
  have hp : position ∈ groups stack := List.mem_filterMap.2 ⟨_, hm, rfl⟩
  rw [h] at hp
  cases hp

theorem exists_close_of_groups_ne_nil {stack : List Pending} (h : groups stack ≠ []) :
    ∃ released rest, close stack = some (released, rest) ∧ groups rest = (groups stack).tail := by
  cases hc : close stack with
  | none =>
    refine absurd (List.filterMap_eq_nil_iff.2 fun p hp => ?_) h
    cases p with
    | group position => exact absurd hp (close_eq_none.1 hc position)
    | operator op => rfl
  | some r =>
    obtain ⟨position, hs⟩ := close_eq_some hc
    refine ⟨r.1, r.2, rfl, ?_⟩
    rw [hs, groups_operators]
    rfl

theorem flush_of_groups_eq_nil {stack : List Pending} (h : groups stack = []) :
    ∃ ops, flush stack = .ok ops := by
  induction stack with
  | nil => exact ⟨[], rfl⟩
  | cons p stack ih =>
    cases p with
    | group position => cases h
    | operator op =>
      obtain ⟨ops, hops⟩ := ih h
      exact ⟨op :: ops, by simp [flush, hops, bind, Except.bind, pure, Except.pure]⟩

theorem flush_of_groups_eq_cons {stack : List Pending} {position : Nat} {rest : List Nat}
    (h : groups stack = position :: rest) :
    flush stack = .error (.unmatchedParenthesis position .opening) := by
  induction stack with
  | nil => cases h
  | cons p stack ih =>
    cases p with
    | group position' => cases h; rfl
    | operator op => simp [flush, ih h, bind, Except.bind]

theorem step_of_fault {index : Nat} {stack : List Pending} {t : Token β} {e : Error}
    (h : Fault registered index (groups stack ≠ []) t e) :
    step registered index stack t = .error e := by
  cases h with
  | literal h => simp [step, h]
  | @unregistered v h =>
    have hf : registered.findIdx? (·.id == v.id) = none := by simpa using h
    simp only [step, hf]
  | unmatched h => exact step_closing_of_none (close_of_groups_eq_nil (Decidable.not_not.1 h)) ..
  | longName hp hu hb hl => simp [step, hp, Operator.ofName?, hu, hb, Nat.not_le.2 hl]

theorem step_of_no_fault {index : Nat} {stack : List Pending} {t : Token β}
    (h : ∀ e, ¬ Fault registered index (groups stack ≠ []) t e) :
    ∃ slots next, step registered index stack t = .ok (slots, next) ∧
      groups next = regroup index (groups stack) t := by
  rcases t with x | v | name
  · have hx : x.isFinite = true := by
      by_contra hn
      exact h _ (.literal (by simpa using hn))
    exact ⟨[.constant x], stack, by simp [step, hx], rfl⟩
  · cases hv : registered.findIdx? (·.id == v.id) with
    | none => exact absurd (.unregistered (by simpa using hv)) (h _)
    | some position => exact ⟨[.variable v position], stack, by simp only [step, hv], rfl⟩
  · by_cases ho : name = Parenthesis.opening.symbol
    · subst ho
      exact ⟨[], .group index :: stack, step_opening .., by simp [regroup, Token.isParenthesis, groups, group?]⟩
    · by_cases hc : name = Parenthesis.closing.symbol
      · subst hc
        have hg : groups stack ≠ [] := fun hg => h _ (.unmatched (not_not.2 hg))
        obtain ⟨released, rest, hclose, hrest⟩ := exists_close_of_groups_ne_nil hg
        refine ⟨_, rest, step_closing hclose .., ?_⟩
        simpa [regroup, Token.isParenthesis, ho] using hrest
      · have hp : ∀ p : Parenthesis, name ≠ p.symbol := fun p => by cases p <;> assumption
        cases hn : Operator.ofName? name with
        | none =>
          obtain ⟨hu, hb, hl⟩ := Operator.ofName?_eq_none.1 hn
          exact absurd (.longName hp hu hb hl) (h _)
        | some op =>
          refine ⟨_, _, step_operator hp hn .., ?_⟩
          simp [groups_push, regroup, Token.isParenthesis, ho, hc]

/-- Without a fault all tokens are read, and the groups on the stack are the open ones. -/
theorem scan_of_no_fault {tokens : List (Token β)} (h : ∀ i e, ¬ FaultAt registered tokens i e) :
    ∃ slots stack, scan registered 0 [] tokens = .ok (slots, stack) ∧
      groups stack = openGroups tokens := by
  induction tokens using List.reverseRecOn with
  | nil => exact ⟨[], [], rfl, rfl⟩
  | append_singleton tokens t ih =>
    obtain ⟨slots, stack, hscan, hgroups⟩ := ih fun i e hf => h i e (hf.append [t])
    have ht : ∀ e, ¬ Fault registered tokens.length (groups stack ≠ []) t e := by
      intro e hf
      refine h tokens.length e ⟨t, by simp, ?_⟩
      rwa [List.take_left' rfl, exists_openAt_iff, ← hgroups]
    obtain ⟨more, next, hstep, hnext⟩ := step_of_no_fault ht
    refine ⟨slots ++ more, next, scan_append_of_ok hscan (scan_singleton ?_), ?_⟩
    · simpa using hstep
    · rw [hnext, hgroups, openGroups_append]

theorem scan_of_first_fault {tokens : List (Token β)} {i : Nat} {e : Error}
    (h : FaultAt registered tokens i e) (hfirst : ∀ j < i, ∀ e, ¬ FaultAt registered tokens j e) :
    scan registered 0 [] tokens = .error e := by
  obtain ⟨t, ht, hf⟩ := h
  obtain ⟨hi, rfl⟩ := List.getElem?_eq_some_iff.1 ht
  have hlen : (tokens.take i).length = i := List.length_take_of_le (Nat.le_of_lt hi)
  have hbefore : ∀ j e, ¬ FaultAt registered (tokens.take i) j e := by
    intro j e hf
    have hj : j < i := hlen ▸ hf.lt_length
    have hwhole := hf.append (tokens.drop i)
    rw [List.take_append_drop] at hwhole
    exact hfirst j hj e hwhole
  obtain ⟨slots, stack, hscan, hgroups⟩ := scan_of_no_fault hbefore
  rw [exists_openAt_iff, ← hgroups] at hf
  have hsplit : tokens = tokens.take i ++ tokens[i] :: tokens.drop (i + 1) := by simp
  rw [hsplit, scan_append, hscan]
  simp only [Except.bind, scan_cons, hlen, Nat.zero_add, step_of_fault hf]
  rfl

end Pending

theorem compile_of_first_repeat {i : Nat} (h : Repeats registered i)
    (hfirst : ∀ j < i, ¬ Repeats registered j) (tokens : List (Token β)) :
    compile registered tokens = .error (.duplicateVariable i) := by
  simp only [compile, duplicateIndex?_eq_some.2 ⟨h, hfirst⟩]

theorem compile_of_last_open {tokens : List (Token β)} (hd : ∀ i, ¬ Repeats registered i)
    (hf : ∀ i e, ¬ FaultAt registered tokens i e) {i : Nat} (hi : OpenAt tokens i)
    (hlast : ∀ j, OpenAt tokens j → j ≤ i) :
    compile registered tokens = .error (.unmatchedParenthesis i .opening) := by
  obtain ⟨slots, stack, hscan, hgroups⟩ := Pending.scan_of_no_fault hf
  have htracks := tracks_openGroups tokens
  obtain ⟨j, rest, hj⟩ := List.exists_cons_of_ne_nil (exists_openAt_iff.1 ⟨i, hi⟩)
  have hopen : OpenAt tokens j := (htracks.mem_iff j).1 (hj ▸ List.mem_cons_self)
  have hle := hlast j hopen
  have hmem : i ∈ j :: rest := hj ▸ (htracks.mem_iff i).2 hi
  obtain rfl : i = j := by
    rcases List.mem_cons.1 hmem with h | h
    · exact h
    · have := List.rel_of_pairwise_cons (hj ▸ htracks.descending) h
      omega
  rw [compile_of_distinct (duplicateIndex?_eq_none.2 hd), hscan]
  simp only [Except.bind, Pending.flush_of_groups_eq_cons (hgroups.trans hj)]
  rfl

theorem exists_compile_eq_ok {tokens : List (Token β)} (hd : ∀ i, ¬ Repeats registered i)
    (hf : ∀ i e, ¬ FaultAt registered tokens i e) (hclosed : ∀ i, ¬ OpenAt tokens i) :
    ∃ p, compile registered tokens = .ok p := by
  obtain ⟨slots, stack, hscan, hgroups⟩ := Pending.scan_of_no_fault hf
  have hnil : openGroups tokens = [] := by
    by_contra hne
    obtain ⟨i, hi⟩ := exists_openAt_iff.2 hne
    exact hclosed i hi
  obtain ⟨ops, hops⟩ := Pending.flush_of_groups_eq_nil (hgroups.trans hnil)
  refine ⟨⟨registered, slots ++ ops.map .operation⟩, ?_⟩
  simp only [compile_of_distinct (duplicateIndex?_eq_none.2 hd), hscan, Except.bind, hops, Except.map]

/-- The errors of a compilation in order of precedence: the first repeated variable of the list,
then the first token at fault, then the innermost group left open. In all other cases there is a
program, whether or not the tokens are an infix expression. -/
theorem compile_outcome (registered : List Variable) (tokens : List (Token β)) :
    (∀ i, Repeats registered i → (∀ j < i, ¬ Repeats registered j) →
      compile registered tokens = .error (.duplicateVariable i)) ∧
    ((∀ i, ¬ Repeats registered i) →
      (∀ i e, FaultAt registered tokens i e → (∀ j < i, ∀ e, ¬ FaultAt registered tokens j e) →
        compile registered tokens = .error e) ∧
      ((∀ i e, ¬ FaultAt registered tokens i e) →
        (∀ i, OpenAt tokens i → (∀ j, OpenAt tokens j → j ≤ i) →
          compile registered tokens = .error (.unmatchedParenthesis i .opening)) ∧
        ((∀ i, ¬ OpenAt tokens i) → ∃ p, compile registered tokens = .ok p))) := by
  refine ⟨fun i h hfirst => compile_of_first_repeat h hfirst tokens, fun hd => ⟨?_, fun hf => ⟨?_, ?_⟩⟩⟩
  · intro i e h hfirst
    rw [compile_of_distinct (duplicateIndex?_eq_none.2 hd), Pending.scan_of_first_fault h hfirst]
    rfl
  · intro i hi hlast
    exact compile_of_last_open hd hf hi hlast
  · intro hclosed
    exact exists_compile_eq_ok hd hf hclosed

end MatrixCalculator
