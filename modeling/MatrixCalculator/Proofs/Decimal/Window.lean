import Mathlib
import MatrixCalculator.Decimal.Shortest
set_option autoImplicit false

/-!
Which binary number a decimal reads back as. The digits chosen for a number lie between its bounds,
on whatever grid the search ends: the last one is finer than the distance to the lower bound. The
bounds of different numbers have no decimal in common, as a number with an odd last digit leaves the
point half way to its neighbour to the other one.
-/

namespace MatrixCalculator.Decimal

def Digits.value (d : Digits) : ℚ := d.whole * 10 ^ d.exponent

namespace Window

def Reads (w : Window) (x : ℚ) : Prop :=
  if w.closed then w.low ≤ x * w.denominator ∧ x * w.denominator ≤ w.high
  else w.low < x * w.denominator ∧ x * w.denominator < w.high

variable {w : Window} {x : ℚ}

theorem reads_of_between (hlow : w.low < x * w.denominator) (hhigh : x * w.denominator < w.high) : w.Reads x := by
  unfold Reads
  split
  · exact ⟨hlow.le, hhigh.le⟩
  · exact ⟨hlow, hhigh⟩

theorem zpow_mul_pow_toNat (k : Int) : (10 : ℚ) ^ k * 10 ^ (-k).toNat = 10 ^ k.toNat := by
  have hexponent : k + ((-k).toNat : Int) = (k.toNat : Int) := by omega
  rw [← zpow_natCast, ← zpow_natCast, ← zpow_add₀ (by norm_num), hexponent]

theorem holds_inUnits (w : Window) (k : Int) (n : Nat) :
    (w.inUnits k).holds (n * (w.inUnits k).denominator) = true ↔ w.Reads (n * 10 ^ k) := by
  have hup : (0 : ℚ) < 10 ^ (-k).toNat := by positivity
  have hpoint : ((n * (w.denominator * Nat.pow 10 k.toNat) : Nat) : ℚ) =
      n * 10 ^ k * w.denominator * 10 ^ (-k).toNat := by
    push_cast [Nat.pow_eq]
    rw [← zpow_mul_pow_toNat]
    ring
  have hle (a : Nat) : a * Nat.pow 10 (-k).toNat ≤ n * (w.denominator * Nat.pow 10 k.toNat) ↔
      (a : ℚ) ≤ n * 10 ^ k * w.denominator := by
    rw [← mul_le_mul_iff_of_pos_right hup, ← hpoint, ← Nat.cast_le (α := ℚ), Nat.cast_mul]
    norm_num
  have hge (a : Nat) : n * (w.denominator * Nat.pow 10 k.toNat) ≤ a * Nat.pow 10 (-k).toNat ↔
      n * 10 ^ k * w.denominator ≤ (a : ℚ) := by
    rw [← mul_le_mul_iff_of_pos_right hup, ← hpoint, ← Nat.cast_le (α := ℚ), Nat.cast_mul]
    norm_num
  unfold holds Reads inUnits
  dsimp only
  split
  · simp only [Bool.and_eq_true, decide_eq_true_iff, hle, hge]
  · simp only [Bool.and_eq_true, decide_eq_true_iff, ← not_le, hle, hge]

theorem holds_of_nearest? {n : Nat} (h : w.nearest? = some n) : w.holds (n * w.denominator) = true := by
  unfold nearest? at h
  grind

/-- A search whose last grid is fine enough ends between the bounds. -/
theorem reads_search (hhigh : w.value < w.high) (hden : 0 < w.denominator)
    (steps : Nat) (k : Int) (hfine : 10 ^ (k - steps) * (w.denominator : ℚ) ≤ w.value - w.low) :
    w.Reads (w.search steps k).value := by
  induction steps generalizing k with
  | zero =>
    -- The point below the value is less than one unit away from it.
    have hup : (0 : ℚ) < 10 ^ (-k).toNat := by positivity
    have hdown : 0 < w.denominator * Nat.pow 10 k.toNat := Nat.mul_pos hden (Nat.pow_pos (by decide))
    have hfloor := Nat.div_mul_le_self (w.value * Nat.pow 10 (-k).toNat) (w.denominator * Nat.pow 10 k.toNat)
    have hnext := Nat.lt_div_mul_add (a := w.value * Nat.pow 10 (-k).toNat) hdown
    change w.Reads (((w.value * Nat.pow 10 (-k).toNat / (w.denominator * Nat.pow 10 k.toNat) : Nat) : ℚ) * 10 ^ k)
    generalize w.value * Nat.pow 10 (-k).toNat / (w.denominator * Nat.pow 10 k.toNat) = n at hfloor hnext ⊢
    rw [Nat.cast_zero, sub_zero] at hfine
    rw [← Nat.cast_le (α := ℚ)] at hfloor
    rw [← Nat.cast_lt (α := ℚ)] at hnext
    push_cast [Nat.pow_eq] at hfloor hnext
    rw [← zpow_mul_pow_toNat k] at hfloor hnext
    have hbelow : (n : ℚ) * 10 ^ k * w.denominator ≤ w.value := by
      refine le_of_mul_le_mul_right ?_ hup
      linarith
    have habove : (w.value : ℚ) < n * 10 ^ k * w.denominator + 10 ^ k * w.denominator := by
      refine lt_of_mul_lt_mul_right ?_ hup.le
      linarith
    have hhigh' : (w.value : ℚ) < w.high := Nat.cast_lt.2 hhigh
    exact reads_of_between (by linarith) (by linarith)
  | succ steps ih =>
    rw [search]
    split
    · next n hn => exact (holds_inUnits w k n).1 (holds_of_nearest? hn)
    · refine ih (k - 1) ?_
      have hexponent : k - 1 - steps = k - (steps + 1 : Nat) := by push_cast; ring
      rwa [hexponent]

end Window

/-- Below a power of two the neighbours are half as far apart, but not at the least exponent. -/
def narrowBelow (m : Nat) (q : Int) : Bool := m == 2 ^ 52 && q != -1074

structure Canonical (m : Nat) (q : Int) : Prop where
  pos : 0 < m
  lt : m < 2 ^ 53
  least : -1074 ≤ q
  greatest : q ≤ 971
  full : 2 ^ 52 ≤ m ∨ q = -1074

namespace Canonical

variable {m m' : Nat} {q q' : Int} {x : ℚ}

/-- Twenty grids below the first one, the grid is finer than a quarter of the last binary digit. -/
theorem zpow_ceiling_le (h : Canonical m q) : (10 : ℚ) ^ (decimalCeiling m q - 20) ≤ 2 ^ (q - 2) := by
  have hlog : m.log2 < 53 := (Nat.log2_lt h.pos.ne').2 h.lt
  have hleast := h.least
  have hgreatest := h.greatest
  unfold decimalCeiling
  generalize hk : ((m.log2 : Int) + 1 + q) * 30103 / 100000 + 1 - 20 = k
  rcases Int.le_total 0 k with hpos | hneg
  · refine le_of_pow_le_pow_left₀ (n := 3) (by decide) (by positivity) ?_
    calc ((10 : ℚ) ^ k) ^ 3 = (10 ^ 3) ^ k := by rw [← zpow_natCast, ← zpow_natCast, zpow_comm]
      _ ≤ (2 ^ 10) ^ k := zpow_le_zpow_left₀ hpos (by norm_num) (by norm_num)
      _ = 2 ^ (10 * k) := by rw [← zpow_natCast, ← zpow_mul]; rfl
      _ ≤ 2 ^ ((q - 2) * 3) := zpow_le_zpow_right₀ (by norm_num) (by omega)
      _ = (2 ^ (q - 2)) ^ 3 := by rw [zpow_mul]; rfl
  · refine le_of_pow_le_pow_left₀ (n := 28) (by decide) (by positivity) ?_
    calc ((10 : ℚ) ^ k) ^ 28 = (10 ^ 28) ^ k := by rw [← zpow_natCast, ← zpow_natCast, zpow_comm]
      _ ≤ (2 ^ 93) ^ k := by
        obtain ⟨j, rfl⟩ := Int.exists_eq_neg_ofNat hneg
        rw [zpow_neg, zpow_neg, zpow_natCast, zpow_natCast]
        exact inv_anti₀ (by positivity) (pow_le_pow_left₀ (by norm_num) (by norm_num) j)
      _ = 2 ^ (93 * k) := by rw [← zpow_natCast, ← zpow_mul]; rfl
      _ ≤ 2 ^ ((q - 2) * 28) := zpow_le_zpow_right₀ (by norm_num) (by omega)
      _ = (2 ^ (q - 2)) ^ 28 := by rw [zpow_mul]; rfl

theorem scale_eq (q : Int) : (2 : ℚ) ^ (q - 2).toNat = 2 ^ (q - 2) * 2 ^ (2 - q).toNat := by
  have hexponent : q - 2 + ((2 - q).toNat : Int) = ((q - 2).toNat : Int) := by omega
  rw [← zpow_natCast, ← zpow_natCast, ← zpow_add₀ (by norm_num), hexponent]

/-- The digits of a number read back as it. -/
theorem reads_shortest (h : Canonical m q) :
    (Window.ofBinary m q (narrowBelow m q)).Reads (shortest m q (narrowBelow m q)).value := by
  have hup : 0 < Nat.pow 2 (q - 2).toNat := Nat.pow_pos (by decide)
  have hpos := h.pos
  refine Window.reads_search ?_ (Nat.pow_pos (by decide)) 20 _ ?_
  · exact Nat.mul_lt_mul_of_pos_right (by omega) hup
  · have hgap : (4 * m - if narrowBelow m q then 1 else 2) + 1 ≤ 4 * m := by split <;> omega
    have hgap' := Nat.mul_le_mul_right (Nat.pow 2 (q - 2).toNat) hgap
    rw [← Nat.cast_le (α := ℚ)] at hgap'
    unfold Window.ofBinary
    push_cast [Nat.pow_eq] at hgap' ⊢
    have hfine := mul_le_mul_of_nonneg_right h.zpow_ceiling_le (by positivity : (0 : ℚ) ≤ 2 ^ (2 - q).toNat)
    rw [← scale_eq] at hfine
    linarith

def lowerGap (m : Nat) (q : Int) : Nat := if narrowBelow m q then 1 else 2

theorem lowerGap_lt (h : Canonical m q) : lowerGap m q < 4 * m := by
  have hpos := h.pos
  unfold lowerGap
  split <;> omega

/-- Between which multiples of a quarter of the last digit a decimal reads back as the number. -/
theorem reads_iff (h : Canonical m q) : (Window.ofBinary m q (narrowBelow m q)).Reads x ↔
    if m % 2 = 0 then (4 * m - lowerGap m q) * (2 : ℚ) ^ q ≤ 4 * x ∧ 4 * x ≤ (4 * m + 2) * 2 ^ q
    else (4 * m - lowerGap m q) * (2 : ℚ) ^ q < 4 * x ∧ 4 * x < (4 * m + 2) * 2 ^ q := by
  have hdown : (0 : ℚ) < 2 ^ (2 - q).toNat := by positivity
  have hquarter : (2 : ℚ) ^ q = 4 * 2 ^ (q - 2) := by
    rw [zpow_sub₀ (by norm_num)]
    norm_num
    ring
  have hlow : (4 * m - if narrowBelow m q then 1 else 2) = 4 * m - lowerGap m q := rfl
  have hle (a : Nat) : ((a * Nat.pow 2 (q - 2).toNat : Nat) : ℚ) ≤ x * (Nat.pow 2 (2 - q).toNat : Nat) ↔
      a * (2 : ℚ) ^ q ≤ 4 * x := by
    push_cast [Nat.pow_eq]
    rw [scale_eq, ← mul_assoc, mul_le_mul_iff_of_pos_right hdown, hquarter]
    constructor <;> intro h <;> linarith
  have hge (a : Nat) : x * (Nat.pow 2 (2 - q).toNat : Nat) ≤ ((a * Nat.pow 2 (q - 2).toNat : Nat) : ℚ) ↔
      4 * x ≤ a * (2 : ℚ) ^ q := by
    push_cast [Nat.pow_eq]
    rw [scale_eq, ← mul_assoc, mul_le_mul_iff_of_pos_right hdown, hquarter]
    constructor <;> intro h <;> linarith
  have hcast : ((4 * m - lowerGap m q : Nat) : ℚ) = 4 * m - lowerGap m q := by
    rw [Nat.cast_sub h.lowerGap_lt.le]
    norm_num
  have hcast' : ((4 * m + 2 : Nat) : ℚ) = 4 * m + 2 := by norm_num
  unfold Window.Reads Window.ofBinary
  simp only [beq_iff_eq, hlow, ← not_le, hle, hge, hcast, hcast']

theorem between (h : Canonical m q) (hx : (Window.ofBinary m q (narrowBelow m q)).Reads x) :
    (4 * m - lowerGap m q) * (2 : ℚ) ^ q ≤ 4 * x ∧ 4 * x ≤ (4 * m + 2) * 2 ^ q := by
  rw [h.reads_iff] at hx
  split at hx
  · exact hx
  · exact hx.imp le_of_lt le_of_lt

theorem between_of_odd (h : Canonical m q) (hx : (Window.ofBinary m q (narrowBelow m q)).Reads x)
    (hodd : m % 2 = 1) : (4 * m - lowerGap m q) * (2 : ℚ) ^ q < 4 * x ∧ 4 * x < (4 * m + 2) * 2 ^ q := by
  rw [h.reads_iff, if_neg (by omega)] at hx
  exact hx

theorem not_lt_of_reads (h : Canonical m q) (h' : Canonical m' q)
    (hx : (Window.ofBinary m q (narrowBelow m q)).Reads x)
    (hx' : (Window.ofBinary m' q (narrowBelow m' q)).Reads x) : ¬ m < m' := by
  intro hlt
  have hu : (0 : ℚ) < 2 ^ q := by positivity
  have hgap : (lowerGap m' q : ℚ) ≤ 2 := by
    have : lowerGap m' q ≤ 2 := by unfold lowerGap; split <;> decide
    exact_mod_cast this
  have hnext : (m : ℚ) + 1 ≤ m' := by exact_mod_cast hlt
  have hwide : (4 * (m : ℚ) + 2) * 2 ^ q ≤ (4 * m' - lowerGap m' q) * 2 ^ q :=
    mul_le_mul_of_nonneg_right (by linarith) hu.le
  have hupper := (h.between hx).2
  have hlower := (h'.between hx').1
  by_cases hodd : m % 2 = 1
  · have := (h.between_of_odd hx hodd).2
    linarith
  · by_cases hodd' : m' % 2 = 1
    · have := (h'.between_of_odd hx' hodd').1
      linarith
    · have hfar : (m : ℚ) + 2 ≤ m' := by
        have : m + 2 ≤ m' := by omega
        exact_mod_cast this
      have hwider : (4 * (m : ℚ) + 2) * 2 ^ q < (4 * m' - lowerGap m' q) * 2 ^ q :=
        mul_lt_mul_of_pos_right (by linarith) hu
      linarith

theorem not_lt_exponent_of_reads (h : Canonical m q) (h' : Canonical m' q')
    (hx : (Window.ofBinary m q (narrowBelow m q)).Reads x)
    (hx' : (Window.ofBinary m' q' (narrowBelow m' q')).Reads x) : ¬ q < q' := by
  intro hlt
  have hu : (0 : ℚ) < 2 ^ q := by positivity
  have hstep : 2 * (2 : ℚ) ^ q ≤ 2 ^ q' := by
    rw [← zpow_one_add₀ (by norm_num)]
    exact zpow_le_zpow_right₀ (by norm_num) (by omega)
  have hupper : 4 * x < (2 ^ 55 - 2) * (2 : ℚ) ^ q := by
    have hm := h.lt
    by_cases hodd : m % 2 = 1
    · have hle : (m : ℚ) ≤ 2 ^ 53 - 1 := by
        have : m + 1 ≤ 2 ^ 53 := by omega
        have : (m : ℚ) + 1 ≤ 2 ^ 53 := by exact_mod_cast this
        linarith
      have := mul_le_mul_of_nonneg_right (by linarith : 4 * (m : ℚ) + 2 ≤ 2 ^ 55 - 2) hu.le
      linarith [(h.between_of_odd hx hodd).2]
    · have hle : (m : ℚ) ≤ 2 ^ 53 - 2 := by
        have : m + 2 ≤ 2 ^ 53 := by omega
        have : (m : ℚ) + 2 ≤ 2 ^ 53 := by exact_mod_cast this
        linarith
      have := mul_lt_mul_of_pos_right (by linarith : 4 * (m : ℚ) + 2 < 2 ^ 55 - 2) hu
      linarith [(h.between hx).2]
  have hlower : (2 ^ 54 - 1) * (2 : ℚ) ^ q' ≤ 4 * x := by
    have hleast := h.least
    have hfull : 2 ^ 52 ≤ m' := h'.full.resolve_right (by omega)
    have hgap : (2 ^ 54 - 1 : ℚ) ≤ 4 * m' - lowerGap m' q' := by
      have : 2 ^ 54 + lowerGap m' q' ≤ 4 * m' + 1 := by
        unfold lowerGap narrowBelow
        split
        · omega
        · next hwide =>
          have : m' ≠ 2 ^ 52 := fun heq => hwide (by simp [heq]; omega)
          omega
      have : (2 ^ 54 : ℚ) + lowerGap m' q' ≤ 4 * m' + 1 := by exact_mod_cast this
      linarith
    exact (mul_le_mul_of_nonneg_right hgap (by positivity)).trans (h'.between hx').1
  linarith

theorem eq_of_reads (h : Canonical m q) (h' : Canonical m' q')
    (hx : (Window.ofBinary m q (narrowBelow m q)).Reads x)
    (hx' : (Window.ofBinary m' q' (narrowBelow m' q')).Reads x) : m = m' ∧ q = q' := by
  have hq : q = q' := le_antisymm (not_lt.1 (h'.not_lt_exponent_of_reads h hx' hx))
    (not_lt.1 (h.not_lt_exponent_of_reads h' hx hx'))
  subst hq
  exact ⟨le_antisymm (not_lt.1 (h'.not_lt_of_reads h hx' hx)) (not_lt.1 (h.not_lt_of_reads h' hx hx')), rfl⟩

/-- Different numbers are never given digits of one value. -/
theorem eq_of_value_shortest (h : Canonical m q) (h' : Canonical m' q')
    (hvalue : (shortest m q (narrowBelow m q)).value = (shortest m' q' (narrowBelow m' q')).value) :
    m = m' ∧ q = q' :=
  h.eq_of_reads h' h.reads_shortest (hvalue ▸ h'.reads_shortest)

theorem value_shortest_pos (h : Canonical m q) : 0 < (shortest m q (narrowBelow m q)).value := by
  have hlower := (h.between h.reads_shortest).1
  have hgap : (lowerGap m q : ℚ) < 4 * m := by exact_mod_cast h.lowerGap_lt
  have : (0 : ℚ) < (4 * m - lowerGap m q) * 2 ^ q := mul_pos (by linarith) (by positivity)
  linarith

end Canonical

end MatrixCalculator.Decimal
