import Mathlib
import MatrixCalculator.Decimal.Plain
import MatrixCalculator.Proofs.Binary64.OutOfRange
import MatrixCalculator.Proofs.Decimal.Window
set_option autoImplicit false

/-!
What plain notation tells. A text of digits with at most one point stands for one number, so that the
text of a finite floating number gives back its sign and its digits: no two finite numbers are written
alike, not even the two zeros.
-/

namespace MatrixCalculator.Decimal

/-- A number in plain notation: digits, or digits with a point between them. -/
inductive PlainForm (x : ℚ) : List Char → Prop where
  | whole {digits : List Char} (nonempty : digits ≠ []) (areDigits : ∀ c ∈ digits, c.isDigit = true)
      (value : (Nat.ofDigitChars 10 digits 0 : ℚ) = x) : PlainForm x digits
  | fraction {before after : List Char} (nonempty : before ≠ [])
      (areDigits : ∀ c ∈ before ++ after, c.isDigit = true)
      (value : (Nat.ofDigitChars 10 (before ++ after) 0 : ℚ) = x * 10 ^ after.length) :
      PlainForm x (before ++ '.' :: after)

namespace PlainForm

variable {x y : ℚ} {cs : List Char}

theorem nonempty (h : PlainForm x cs) : cs ≠ [] := by
  cases h with
  | whole nonempty => exact nonempty
  | fraction nonempty => simp

theorem isDigit_or_point (h : PlainForm x cs) {c : Char} (hc : c ∈ cs) : c.isDigit = true ∨ c = '.' := by
  cases h with
  | whole _ areDigits => exact .inl (areDigits c hc)
  | fraction _ areDigits =>
    rcases List.mem_append.1 hc with hc | hc
    · exact .inl (areDigits c (List.mem_append_left _ hc))
    · rcases List.mem_cons.1 hc with rfl | hc
      · exact .inr rfl
      · exact .inl (areDigits c (List.mem_append_right _ hc))

theorem point_not_mem {digits : List Char} (h : ∀ c ∈ digits, c.isDigit = true) : '.' ∉ digits :=
  fun hmem => absurd (h '.' hmem) (by decide)

theorem unique (hx : PlainForm x cs) (hy : PlainForm y cs) : x = y := by
  cases hx with
  | whole _ areDigits value =>
    cases hy with
    | whole _ _ value' => exact value.symm.trans value'
    | fraction => exact absurd (by simp) (point_not_mem areDigits)
  | @fraction before after _ areDigits value =>
    generalize htext : before ++ '.' :: after = text at hy
    cases hy with
    | whole _ areDigits' => exact absurd (by simp [← htext]) (point_not_mem areDigits')
    | fraction _ areDigits' value' =>
      have hbefore := point_not_mem fun c hc => areDigits c (List.mem_append_left _ hc)
      have hafter := point_not_mem fun c hc => areDigits c (List.mem_append_right _ hc)
      obtain ⟨rfl, -, rfl⟩ := (List.append_cons_inj_of_notMem hbefore hafter).1 htext
      exact mul_right_cancel₀ (pow_ne_zero _ (by norm_num)) (value.symm.trans value')

end PlainForm

theorem toList_pushn (s : String) (c : Char) (n : Nat) :
    (s.pushn c n).toList = s.toList ++ List.replicate n c := by
  rw [String.pushn_eq_repeat_push]
  induction n with
  | zero => simp [Nat.repeat]
  | succ n ih => simp [Nat.repeat, ih, List.replicate_succ']

theorem isDigit_of_mem_replicate {k : Nat} {c : Char} (h : c ∈ List.replicate k '0') : c.isDigit = true := by
  rw [List.eq_of_mem_replicate h]
  decide

theorem isDigit_of_mem_toDigits {n : Nat} {c : Char} (h : c ∈ Nat.toDigits 10 n) : c.isDigit = true :=
  Nat.isDigit_of_mem_toDigits (by decide) (by decide) h

theorem plainForm_append_zeros (n k : Nat) :
    PlainForm (n * 10 ^ k) (Nat.toDigits 10 n ++ List.replicate k '0') := by
  refine .whole (by simp [Nat.toDigits_ne_nil]) (fun c hc => ?_) ?_
  · exact (List.mem_append.1 hc).elim isDigit_of_mem_toDigits isDigit_of_mem_replicate
  · rw [Nat.ofDigitChars_append, Nat.ofDigitChars_ten_toDigits, Nat.ofDigitChars_replicate_zero]
    push_cast
    ring

theorem plainForm_cut {n k places : Nat} (h : places < k + (Nat.toDigits 10 n).length) {padded : List Char}
    (hpadded : padded = List.replicate k '0' ++ Nat.toDigits 10 n) :
    PlainForm (n / 10 ^ places)
      (padded.take (padded.length - places) ++ '.' :: padded.drop (padded.length - places)) := by
  have hlong : places < padded.length := by
    rw [hpadded, List.length_append, List.length_replicate]
    exact h
  have hcut : padded.take (padded.length - places) ++ padded.drop (padded.length - places) = padded :=
    List.take_append_drop _ _
  have hafter : (padded.drop (padded.length - places)).length = places := by
    rw [List.length_drop]
    omega
  refine .fraction (fun hnil => ?_) (fun c hc => ?_) ?_
  · rw [List.take_eq_nil_iff] at hnil
    rcases hnil with hnone | rfl
    · omega
    · cases hlong
  · rw [hcut, hpadded] at hc
    exact (List.mem_append.1 hc).elim isDigit_of_mem_replicate isDigit_of_mem_toDigits
  · rw [hcut, hafter, hpadded, Nat.ofDigitChars_append, Nat.ofDigitChars_replicate_zero, Nat.mul_zero,
      Nat.ofDigitChars_ten_toDigits]
    field_simp

/-- Digits are written as the number they stand for. -/
theorem Digits.plainForm_plain (d : Digits) : PlainForm d.value d.plain.toList := by
  have hwritten : (toString d.whole).toList = Nat.toDigits 10 d.whole := by
    rw [Nat.toString_eq_repr, Nat.toList_repr]
  have hlength : (toString d.whole).length = (Nat.toDigits 10 d.whole).length := by
    rw [← hwritten, String.length_toList]
  unfold plain value
  dsimp only
  split
  · next hexponent =>
    obtain ⟨k, hk⟩ := Int.eq_ofNat_of_zero_le hexponent
    simp only [String.toList_append, toList_pushn, hwritten, hk, Int.toNat_natCast, String.toList_empty,
      List.nil_append, zpow_natCast]
    exact plainForm_append_zeros d.whole k
  · next hexponent =>
    obtain ⟨places, hplaces⟩ : ∃ places : Nat, d.exponent = -places := ⟨(-d.exponent).toNat, by omega⟩
    simp only [String.toList_append, toList_pushn, hwritten, hplaces, Int.neg_neg, Int.toNat_natCast,
      String.toList_empty, List.nil_append, String.toList_ofList, zpow_neg, zpow_natCast, ← div_eq_mul_inv,
      List.append_assoc]
    exact plainForm_cut (by omega) rfl

section Floats

open Binary64 Float.Model Float.Model.UnpackedFloat

variable {x y : Float}

theorem eq_of_fields (hsign : isNegative x = isNegative y) (hexponent : exponentBits x = exponentBits y)
    (hfraction : fractionBits x = fractionBits y) : x = y := by
  have hx := x.toBits.toNat_lt
  have hy := y.toBits.toNat_lt
  rw [Bool.eq_iff_iff] at hsign
  simp only [isNegative, exponentBits, fractionBits, beq_iff_eq, ← UInt64.toNat_inj, UInt64.toNat_shiftRight,
    Nat.shiftRight_eq_div_pow] at hsign hexponent hfraction
  change x.toBits.toNat / 2 ^ 63 = 1 ↔ y.toBits.toNat / 2 ^ 63 = 1 at hsign
  change x.toBits.toNat / 2 ^ 52 % 0x800 = y.toBits.toNat / 2 ^ 52 % 0x800 at hexponent
  rw [← Float.toBits_inj, ← UInt64.toNat_inj]
  omega

theorem exponentBits_lt (h : x.isFinite = true) : exponentBits x < 0x7ff := by
  have hfield : exponentBits x < 0x800 := Nat.mod_lt _ (by decide)
  have hone := (isFinite_iff_exponentBits x).1 h
  omega

def mantissa (x : Float) : Nat :=
  if exponentBits x = 0 then fractionBits x else fractionBits x + 0x10000000000000

def lastExponent (x : Float) : Int := if exponentBits x = 0 then -1074 else exponentBits x - 1075

theorem canonical_mantissa (h : x.isFinite = true) (hzero : mantissa x ≠ 0) :
    Canonical (mantissa x) (lastExponent x) := by
  have hexponent := exponentBits_lt h
  have hfraction : fractionBits x < 2 ^ 52 := Nat.mod_lt _ (by decide)
  unfold mantissa at hzero
  unfold mantissa lastExponent
  by_cases hfield : exponentBits x = 0
  · rw [if_pos hfield] at hzero
    simp only [if_pos hfield]
    exact ⟨by omega, by omega, by omega, by omega, by omega⟩
  · simp only [if_neg hfield]
    exact ⟨by omega, by omega, by omega, by omega, by omega⟩

def writtenMagnitude (x : Float) : ℚ :=
  if mantissa x = 0 then 0
  else (shortest (mantissa x) (lastExponent x) (narrowBelow (mantissa x) (lastExponent x))).value

theorem exists_toList_ofFloat (h : x.isFinite = true) :
    ∃ body, (ofFloat x).toList = (if isNegative x then '-' :: body else body) ∧
      PlainForm (writtenMagnitude x) body := by
  have hnan : ¬ x.isNaN = true := by rw [isNaN_of_isFinite h]; decide
  have hexponent := exponentBits_lt h
  have hfraction : fractionBits x < 2 ^ 52 := Nat.mod_lt _ (by decide)
  have hsigned (t : String) : ((if isNegative x then "-" else "") ++ t).toList =
      if isNegative x then '-' :: t.toList else t.toList := by
    split <;> simp
  unfold ofFloat writtenMagnitude mantissa lastExponent
  simp only [if_neg hnan, if_neg hexponent.ne]
  by_cases hfield : exponentBits x = 0
  · simp only [if_pos hfield]
    by_cases hzero : fractionBits x = 0
    · simp only [if_pos hzero, hsigned]
      refine ⟨_, rfl, ?_⟩
      have h0 := plainForm_append_zeros 0 0
      rw [Nat.cast_zero, zero_mul] at h0
      exact h0
    · have hwide : narrowBelow (fractionBits x) (-1074) = false := Bool.and_false _
      simp only [if_neg hzero, hsigned, hwide]
      exact ⟨_, rfl, Digits.plainForm_plain _⟩
  · have hnarrow : narrowBelow (fractionBits x + 0x10000000000000) (exponentBits x - 1075) =
        (fractionBits x == 0 && exponentBits x != 1) := by
      rw [Bool.eq_iff_iff]
      simp only [narrowBelow, Bool.and_eq_true, beq_iff_eq, bne_iff_ne, ne_eq]
      omega
    have hfull : ¬ fractionBits x + 0x10000000000000 = 0 := by omega
    simp only [if_neg hfield, if_neg hfull, hsigned, hnarrow]
    exact ⟨_, rfl, Digits.plainForm_plain _⟩

theorem hyphen_not_mem {q : ℚ} {body : List Char} (h : PlainForm q body) : '-' ∉ body := fun hmem =>
  (h.isDigit_or_point hmem).elim (absurd · (by decide)) (absurd · (by decide))

theorem eq_of_writtenMagnitude (hx : x.isFinite = true) (hy : y.isFinite = true)
    (h : writtenMagnitude x = writtenMagnitude y) : mantissa x = mantissa y ∧
      (mantissa x ≠ 0 → lastExponent x = lastExponent y) := by
  unfold writtenMagnitude at h
  by_cases hzero : mantissa x = 0
  · by_cases hzero' : mantissa y = 0
    · exact ⟨hzero.trans hzero'.symm, fun hne => absurd hzero hne⟩
    · rw [if_pos hzero, if_neg hzero'] at h
      exact absurd h (canonical_mantissa hy hzero').value_shortest_pos.ne
  · by_cases hzero' : mantissa y = 0
    · rw [if_neg hzero, if_pos hzero'] at h
      exact absurd h (canonical_mantissa hx hzero).value_shortest_pos.ne'
    · rw [if_neg hzero, if_neg hzero'] at h
      obtain ⟨hm, hq⟩ := (canonical_mantissa hx hzero).eq_of_value_shortest (canonical_mantissa hy hzero') h
      exact ⟨hm, fun _ => hq⟩

theorem fields_eq (hm : mantissa x = mantissa y) (hq : mantissa x ≠ 0 → lastExponent x = lastExponent y) :
    exponentBits x = exponentBits y ∧ fractionBits x = fractionBits y := by
  have hx : fractionBits x < 2 ^ 52 := Nat.mod_lt _ (by decide)
  have hy : fractionBits y < 2 ^ 52 := Nat.mod_lt _ (by decide)
  unfold mantissa lastExponent at *
  by_cases hfield : exponentBits x = 0 <;> by_cases hfield' : exponentBits y = 0 <;>
    simp only [hfield, hfield', if_true, if_false] at hm hq <;> omega

/-- No two finite numbers are written alike. -/
theorem ofFloat_injective (hx : x.isFinite = true) (hy : y.isFinite = true) (h : ofFloat x = ofFloat y) :
    x = y := by
  obtain ⟨body, htext, hform⟩ := exists_toList_ofFloat hx
  obtain ⟨body', htext', hform'⟩ := exists_toList_ofFloat hy
  have hno := hyphen_not_mem hform
  have hno' := hyphen_not_mem hform'
  have heq := htext.symm.trans ((congrArg String.toList h).trans htext')
  obtain ⟨hsign, rfl⟩ : isNegative x = isNegative y ∧ body = body' := by
    cases hsx : isNegative x <;> cases hsy : isNegative y <;>
      simp only [hsx, hsy, Bool.false_eq_true, if_true, if_false] at heq
    · exact ⟨rfl, heq⟩
    · exact absurd (by rw [heq]; exact List.mem_cons_self) hno
    · exact absurd (by rw [← heq]; exact List.mem_cons_self) hno'
    · exact ⟨rfl, (List.cons.inj heq).2⟩
  obtain ⟨hm, hq⟩ := eq_of_writtenMagnitude hx hy (hform.unique hform')
  obtain ⟨hexponent, hfraction⟩ := fields_eq hm hq
  exact eq_of_fields hsign hexponent hfraction

end Floats

end MatrixCalculator.Decimal
