import MatrixCalculator.Expression.Capacity
import MatrixCalculator.Proofs.DenseMatrix.Cells
import MatrixCalculator.Proofs.Expression.Form
set_option autoImplicit false

/-!
What the checks on capacity say. Each is exact: on operands that can be stored it holds just where the
transpose, the product or all that a run puts on its stack can be stored.
-/

namespace MatrixCalculator

theorem Space.storable_shape_iff (space : Space) (n : Nat) :
    (space.shape n).storable = true ↔ n ≤ maxItems := by
  cases space with
  | row => exact decide_eq_true_iff
  | column =>
    have hone : (n == 0 || decide (1 ≤ maxItems)) = true := Bool.or_eq_true_iff.2 (.inr (by decide))
    exact Bool.and_eq_true_iff.trans ((and_iff_left hone).trans decide_eq_true_iff)

theorem forall_map_eq_ok_iff {ε σ τ : Type} {x : Except ε σ} {f : σ → τ} {P : τ → Prop} :
    (∀ z, f <$> x = .ok z → P z) ↔ ∀ a, x = .ok a → P (f a) := by
  cases x with
  | ok a =>
    refine ⟨fun h b hb => ?_, fun h z hz => ?_⟩
    · cases hb
      exact h _ rfl
    · cases hz
      exact h a rfl
  | error e => exact iff_of_true nofun nofun

namespace DenseMatrix

variable {α : Type} [Entry α] {a b m : DenseMatrix α}

theorem turnable_iff (h : m.Regular) : m.turnable = true ↔ m.transposed.shape.storable = true := by
  rw [h.hasShape.transposed.shape_eq]
  rfl

/-- Without rows any width can be stored, but not turned. -/
example : (zeros 0 (2 * maxItems) : DenseMatrix (Scalar Float)).shape.storable = true ∧
    (zeros 0 (2 * maxItems) : DenseMatrix (Scalar Float)).turnable = false := by decide

theorem productStorable_iff (ha : a.Regular) (hb : b.Regular) :
    a.productStorable b = true ↔ ∀ p, a.mul b = .ok p → p.shape.storable = true := by
  by_cases h : a.colCount = b.rowCount
  · rw [mul_of_shape_eq ha.hasShape hb.hasShape h, productStorable, h, bne_self_eq_false, Bool.false_or]
    simp only [Except.ok.injEq, forall_eq', (hasShape_ofFn ..).shape_eq]
    rfl
  · rw [productStorable, bne_iff_ne.2 h, mul, if_neg h]
    exact iff_of_true rfl fun p hp => by cases hp

theorem rowProductStorable_iff (hm : m.Regular) (v : OrientedVector α) :
    rowProductStorable v m = true ↔ ∀ w, rowMul v m = .ok w → w.shape.storable = true := by
  by_cases h : v.space = .row ∧ v.length = m.rowCount
  · rw [rowMul_of_length_eq hm.hasShape h.1 h.2, rowProductStorable, h.1, h.2, bne_self_eq_false,
      bne_self_eq_false, Bool.false_or, Bool.false_or]
    simp only [Except.ok.injEq, forall_eq', OrientedVector.shape_eq, OrientedVector.length_ofList,
      List.length_map, List.length_range]
    rfl
  · rw [rowMul, if_neg h, rowProductStorable]
    refine iff_of_true (Bool.or_eq_true_iff.2 (.inl (Bool.or_eq_true_iff.2 ?_))) fun w hw => by cases hw
    exact (not_and_or.1 h).imp bne_iff_ne.2 bne_iff_ne.2

end DenseMatrix

namespace Form

def storable : Form → Bool
  | .scalar => true
  | .vector space n => (space.shape n).storable
  | .matrix s => s.storable

variable {f g h : Form}

theorem sum_eq_ok {op : BinaryOp} {vectors matrices : Operation} (hsum : sum op vectors matrices f g = .ok h) :
    h = f := by
  unfold sum at hsum
  split at hsum
  · cases hsum
    rfl
  · split at hsum
    · cases hsum
      rfl
    · cases hsum
  · split at hsum
    · cases hsum
      rfl
    · cases hsum
  · cases hsum

theorem quotient_eq_ok (hquotient : quotient f g = .ok h) : h = f := by
  unfold quotient at hquotient
  split at hquotient
  · cases hquotient
    rfl
  · cases hquotient

theorem power_eq_ok (hpower : power f g = .ok h) : h = f := by
  unfold power at hpower
  split at hpower
  · cases hpower
    rfl
  · split at hpower
    · cases hpower
      rfl
    · cases hpower
  · cases hpower

/-- Where a matrix stands on the right under a scalar only, a product is no larger than its factors allow. -/
theorem storable_of_product (hf : f.storable = true) (hg : g.storable = true)
    (hright : ∀ t, g = .matrix t → f = .scalar) (hproduct : product f g = .ok h) : h.storable = true := by
  have hlength {space : Space} {n : Nat} (hv : (Form.vector space n).storable = true) : n ≤ maxItems :=
    (space.storable_shape_iff n).1 hv
  unfold product at hproduct
  split at hproduct
  · cases hproduct
    exact hg
  · cases hproduct
    exact hf
  · split at hproduct
    · cases hproduct
      rfl
    · cases hproduct
  · cases hproduct
    exact Shape.storable_of_le (hlength hf) (hlength hg)
  · cases hproduct
  · next t => cases hright t rfl
  · next s _ _ =>
    split at hproduct
    · cases hproduct
      exact (Space.storable_shape_iff .column s.rows).2 (of_decide_eq_true (Bool.and_eq_true_iff.1 hf).1)
    · cases hproduct
  · next t => cases hright t rfl

end Form

theorem UnaryOp.form_eq_ok {op : UnaryOp} {f g : Form} (h : op.form f = .ok g) : g = f := by
  unfold form at h
  split at h
  · cases h
    rfl
  · cases h
    rfl
  · cases h

variable {β : Type}

structure Operand.Fits (x : Operand β) : Prop where
  regular : x.Regular
  storable : x.form.storable = true

variable [ElementaryFunctions β]

namespace BinaryOp

variable {op : BinaryOp} {x y z : Operand β}

theorem form_eq_ok_of_apply (hx : x.Regular) (hy : y.Regular) (h : op.apply x y = .ok z) :
    op.form x.form y.form = .ok z.form := by
  rcases op.apply_follows hx hy with hfollows | ⟨-, hsingular⟩
  · exact (Ends.of_eq_ok hfollows h).2
  · rw [hsingular] at h
    cases h

/-- Only a product of two matrices, or of a row and a matrix, can outgrow its factors. -/
theorem multiply_storable_iff (hx : x.Fits) (hy : y.Fits) :
    BinaryOp.multiply.storable x y = true ↔
      ∀ z, BinaryOp.multiply.apply x y = .ok z → z.form.storable = true := by
  have hform {z : Operand β} (hz : BinaryOp.multiply.apply x y = .ok z) :
      Form.product x.form y.form = .ok z.form := form_eq_ok_of_apply hx.regular hy.regular hz
  have hleft := hx.storable
  have hright := hy.storable
  cases x <;> cases y
  case matrix.matrix m n =>
    exact (DenseMatrix.productStorable_iff hx.regular hy.regular).trans
      (forall_map_eq_ok_iff (f := Operand.matrix) (P := fun z => z.form.storable = true)).symm
  case vector.matrix v m =>
    have hshape (w : OrientedVector (Scalar β)) : (Operand.vector w).form.storable = w.shape.storable := by
      rw [OrientedVector.shape_eq]
      rfl
    refine (DenseMatrix.rowProductStorable_iff hy.regular v).trans (Iff.trans ?_
      (forall_map_eq_ok_iff (f := Operand.vector) (P := fun z => z.form.storable = true)).symm)
    simp only [hshape]
  case scalar.matrix a m =>
    exact iff_of_true rfl fun z hz => Form.storable_of_product hleft hright (fun _ _ => rfl) (hform hz)
  all_goals exact iff_of_true rfl fun z hz => Form.storable_of_product hleft hright nofun (hform hz)

theorem storable_iff (hx : x.Fits) (hy : y.Fits) :
    op.storable x y = true ↔ ∀ z, op.apply x y = .ok z → z.form.storable = true := by
  have hform {z : Operand β} (hz : op.apply x y = .ok z) : op.form x.form y.form = .ok z.form :=
    form_eq_ok_of_apply hx.regular hy.regular hz
  cases op with
  | multiply => exact multiply_storable_iff hx hy
  | add => exact iff_of_true rfl fun z hz => (Form.sum_eq_ok (hform hz)).symm ▸ hx.storable
  | subtract => exact iff_of_true rfl fun z hz => (Form.sum_eq_ok (hform hz)).symm ▸ hx.storable
  | divide => exact iff_of_true rfl fun z hz => (Form.quotient_eq_ok (hform hz)).symm ▸ hx.storable
  | power => exact iff_of_true rfl fun z hz => (Form.power_eq_ok (hform hz)).symm ▸ hx.storable

end BinaryOp

namespace Slot

variable {inputs stack next : List (Operand β)}

def Fits {β : Type} : Slot β → Prop
  | .constant x => x.Fits
  | _ => True

theorem regular_of_execute (hinputs : ∀ x ∈ inputs, x.Fits) (hstack : ∀ x ∈ stack, x.Fits) {slot : Slot β}
    (hslot : slot.Fits) (h : execute inputs stack slot = .ok next) : ∀ x ∈ next, x.Regular := by
  have hregular : slot.Regular := by
    cases slot with
    | constant x => exact hslot.regular
    | _ => trivial
  have hmirrors := execute_mirrors (fun x hx => (hinputs x hx).regular)
    (fun x hx => (hstack x hx).regular) hregular
  rw [h] at hmirrors
  exact hmirrors.1

theorem push_eq_ok {β : Type} {x : Operand β} {stack next : List (Operand β)} (h : push x stack = .ok next) :
    next = x :: stack := by
  unfold push at h
  split at h
  · exact (Except.ok.inj h).symm
  · cases h

theorem forall_deliver_eq_ok_iff {β : Type} {rest : List (Operand β)} {result : Except Error (Operand β)}
    {P : Operand β → Prop} (hrest : ∀ x ∈ rest, P x) :
    (∀ next, deliver rest result = .ok next → ∀ x ∈ next, P x) ↔ ∀ z, result = .ok z → P z := by
  cases result with
  | ok z => simpa [deliver] using fun _ => hrest
  | error e => exact iff_of_true nofun nofun

theorem storable_iff (hinputs : ∀ x ∈ inputs, x.Fits) (hstack : ∀ x ∈ stack, x.Fits) {slot : Slot β}
    (hslot : slot.Fits) : slot.storable stack = true ↔
      ∀ next, execute inputs stack slot = .ok next → ∀ x ∈ next, x.form.storable = true := by
  have hpush {x : Operand β} (hx : x.Fits) {next : List (Operand β)} (h : push x stack = .ok next) :
      ∀ y ∈ next, y.form.storable = true := by
    rw [push_eq_ok h]
    exact List.forall_mem_cons.2 ⟨hx.storable, fun y hy => (hstack y hy).storable⟩
  cases slot with
  | constant x => exact iff_of_true rfl fun next h => hpush hslot h
  | «variable» v position =>
    refine iff_of_true rfl fun next h => ?_
    simp only [execute] at h
    split at h
    · next x hx => exact hpush (hinputs x (mem_of_input_eq_ok hx)) h
    · cases h
  | operation op =>
    cases op with
    | unknown name => exact iff_of_true rfl fun next h => by cases h
    | unary op =>
      refine iff_of_true rfl ?_
      cases stack with
      | nil =>
        intro next h
        cases h
      | cons x rest =>
        obtain ⟨hx, hrest⟩ := List.forall_mem_cons.1 hstack
        refine (forall_deliver_eq_ok_iff fun y hy => (hrest y hy).storable).2 fun z hz => ?_
        have hfollows := op.apply_follows hx.regular
        rw [hz] at hfollows
        rw [UnaryOp.form_eq_ok hfollows.2]
        exact hx.storable
    | binary op =>
      cases stack with
      | nil => exact iff_of_true rfl fun next h => by cases h
      | cons y stack =>
        cases stack with
        | nil => exact iff_of_true rfl fun next h => by cases h
        | cons x rest =>
          obtain ⟨hy, hrest⟩ := List.forall_mem_cons.1 hstack
          obtain ⟨hx, hrest⟩ := List.forall_mem_cons.1 hrest
          exact (BinaryOp.storable_iff hx hy).trans
            (forall_deliver_eq_ok_iff fun z hz => (hrest z hz).storable).symm

/-- The check on a run, slot by slot, holds just where every stack on the way can be stored. -/
theorem allStorable_iff (hinputs : ∀ x ∈ inputs, x.Fits) (hstack : ∀ x ∈ stack, x.Fits) {slots : List (Slot β)}
    (hslots : ∀ slot ∈ slots, slot.Fits) : allStorable inputs stack slots = true ↔
      ∀ before after reached, slots = before ++ after → before.foldlM (execute inputs) stack = .ok reached →
        ∀ x ∈ reached, x.form.storable = true := by
  induction slots generalizing stack with
  | nil =>
    refine iff_of_true rfl fun before after reached hsplit hrun => ?_
    obtain ⟨rfl, -⟩ := List.append_eq_nil_iff.1 hsplit.symm
    cases hrun
    exact fun x hx => (hstack x hx).storable
  | cons slot slots ih =>
    obtain ⟨hslot, hrest⟩ := List.forall_mem_cons.1 hslots
    have hstep := storable_iff hinputs hstack hslot
    have hnext {next : List (Operand β)} (he : execute inputs stack slot = .ok next)
        (hs : ∀ x ∈ next, x.form.storable = true) : ∀ x ∈ next, x.Fits := fun x hx =>
      ⟨regular_of_execute hinputs hstack hslot he x hx, hs x hx⟩
    rw [allStorable, Bool.and_eq_true_iff, hstep]
    constructor
    · rintro ⟨hs, hlater⟩ before after reached hsplit hrun
      cases before with
      | nil =>
        cases hrun
        exact fun x hx => (hstack x hx).storable
      | cons first before =>
        obtain ⟨rfl, rfl⟩ := List.cons.inj hsplit
        rw [List.foldlM_cons] at hrun
        cases he : execute inputs stack slot with
        | error halt => rw [he] at hrun; cases hrun
        | ok next =>
          rw [he] at hrun hlater
          exact (ih (hnext he (hs next he)) hrest).1 hlater before after reached rfl hrun
    · intro hall
      have hs : ∀ next, execute inputs stack slot = .ok next → ∀ x ∈ next, x.form.storable = true :=
        fun next he => hall [slot] slots next rfl (by rw [List.foldlM_cons, he]; rfl)
      refine ⟨hs, ?_⟩
      split
      · next next he =>
        refine (ih (hnext he (hs next he)) hrest).2 fun before after reached hsplit hrun => ?_
        refine hall (slot :: before) after reached (by rw [hsplit]; rfl) ?_
        rw [List.foldlM_cons, he]
        exact hrun
      · rfl

end Slot

/-- A run that is let in stays within the limit just where every stack on the way can be stored. -/
theorem Program.storable_iff {p : Program β} {inputs : List (Operand β)} (hslots : ∀ slot ∈ p.slots, slot.Fits)
    (hinputs : ∀ x ∈ inputs, x.Fits) (accepted : p.checkInputs inputs = .ok ()) :
    p.storable inputs = true ↔ ∀ before after stack, p.slots = before ++ after →
      Slot.executeAll inputs before = .ok stack → ∀ x ∈ stack, x.form.storable = true := by
  rw [storable, accepted]
  exact Slot.allStorable_iff hinputs (List.forall_mem_nil Operand.Fits) hslots

end MatrixCalculator
