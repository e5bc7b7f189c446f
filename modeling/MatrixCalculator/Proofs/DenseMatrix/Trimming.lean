import MatrixCalculator.Binary64
import MatrixCalculator.Proofs.DenseMatrix.WellFormed
set_option autoImplicit false

/-!
Blocks cut out of a matrix, whatever the counts are. A machine cuts with words: their sums may pass
the greatest word, and their differences zero. Done in words, with every such passing fatal, trimming
is the same as trimming with numbers, and cutting twice is cutting the sums once.
-/

namespace MatrixCalculator

section Words

def checkedAdd (a b : UInt64) : Option UInt64 :=
  if a.toNat + b.toNat < UInt64.size then some (a + b) else none

def saturatingAdd (a b : UInt64) : UInt64 := (checkedAdd a b).getD (.ofNat DenseMatrix.maxCount)

def sumBelow (limit a b : UInt64) : Option UInt64 := (checkedAdd a b).filter (· < limit)

/-- What stops a calculation in words: a number that no word holds, or an index without an item. -/
inductive Trap where
  | overflow
  | outOfRange

def addOrTrap (a b : UInt64) : Except Trap UInt64 :=
  if a.toNat + b.toNat < UInt64.size then .ok (a + b) else .error .overflow

def subOrTrap (a b : UInt64) : Except Trap UInt64 :=
  if b.toNat ≤ a.toNat then .ok (a - b) else .error .overflow

variable {a b limit : UInt64}

theorem toNat_add_of_lt (h : a.toNat + b.toNat < UInt64.size) : (a + b).toNat = a.toNat + b.toNat := by
  rw [UInt64.toNat_add]
  exact Nat.mod_eq_of_lt h

theorem checkedAdd_eq_some_iff {c : UInt64} : checkedAdd a b = some c ↔ c.toNat = a.toNat + b.toNat := by
  unfold checkedAdd
  split
  · next h => rw [Option.some.injEq, ← UInt64.toNat_inj, toNat_add_of_lt h, eq_comm]
  · next h =>
    have hc := c.toNat_lt_size
    simp only [reduceCtorEq, false_iff]
    omega

theorem checkedAdd_eq_none_iff : checkedAdd a b = none ↔ UInt64.size ≤ a.toNat + b.toNat := by
  unfold checkedAdd
  split <;> simp <;> omega

theorem toNat_saturatingAdd : (saturatingAdd a b).toNat = min (a.toNat + b.toNat) DenseMatrix.maxCount := by
  have hmax : DenseMatrix.maxCount + 1 = UInt64.size := rfl
  unfold saturatingAdd
  cases h : checkedAdd a b with
  | none =>
    rw [checkedAdd_eq_none_iff] at h
    rw [Nat.min_eq_right (by omega)]
    rfl
  | some c =>
    rw [checkedAdd_eq_some_iff] at h
    have hc := c.toNat_lt_size
    rw [Option.getD_some, h, Nat.min_eq_left (by omega)]

theorem sumBelow_of_lt (h : a.toNat + b.toNat < limit.toNat) : sumBelow limit a b = some (a + b) := by
  have hlimit := limit.toNat_lt_size
  have hsum : a.toNat + b.toNat < UInt64.size := by omega
  rw [sumBelow, checkedAdd, if_pos hsum, Option.filter_some, if_pos]
  rw [decide_eq_true_iff, UInt64.lt_iff_toNat_lt, toNat_add_of_lt hsum]
  exact h

theorem sumBelow_of_le (h : limit.toNat ≤ a.toNat + b.toNat) : sumBelow limit a b = none := by
  rw [sumBelow, Option.filter_eq_none_iff]
  intro c hc
  rw [checkedAdd_eq_some_iff] at hc
  rw [decide_eq_true_iff, UInt64.lt_iff_toNat_lt, hc]
  omega

theorem addOrTrap_of_lt (h : a.toNat + b.toNat < UInt64.size) :
    ∃ c, addOrTrap a b = .ok c ∧ c.toNat = a.toNat + b.toNat :=
  ⟨a + b, if_pos h, toNat_add_of_lt h⟩

theorem subOrTrap_of_le (h : b.toNat ≤ a.toNat) :
    ∃ c, subOrTrap a b = .ok c ∧ c.toNat = a.toNat - b.toNat :=
  ⟨a - b, if_pos h, UInt64.toNat_sub_of_le a b h⟩

end Words

namespace DenseMatrix

variable {α : Type} [Entry α]

def entryInWords (m : DenseMatrix α) (top left i j : UInt64) : Except Trap α := do
  let k ← addOrTrap i top
  let l ← addOrTrap j left
  (m.get? k.toNat l.toNat).elim (.error .outOfRange) .ok

/-- Trimming in words, as a machine does it. A sum that is not a word counts as too large to be cut,
and is reported as the greatest word; any other number that is not a word, and any index outside the
grid, is fatal. -/
def trimInWords (m : DenseMatrix α) (top bottom left right : UInt64) :
    Except Trap (Except Error (DenseMatrix α)) :=
  let rows := UInt64.ofNat m.rowCount
  let cols := UInt64.ofNat m.colCount
  let refusal := .ok (.error (.dimensionMismatch .matrixTrim m.shape
    ⟨(saturatingAdd top bottom).toNat, (saturatingAdd left right).toNat⟩))
  (sumBelow rows top bottom).elim refusal fun vertical =>
    (sumBelow cols left right).elim refusal fun horizontal => do
      let height ← subOrTrap rows vertical
      let width ← subOrTrap cols horizontal
      let grid ← (List.range height.toNat).mapM fun i => (List.range width.toNat).mapM fun j =>
        m.entryInWords top left (.ofNat i) (.ofNat j)
      return .ok (ofLists width.toNat grid)

section

variable {m c d : DenseMatrix α} {s : Shape} {top bottom left right : Nat}

theorem HasShape.exists_trim_iff (h : m.HasShape s) :
    (∃ c, m.trim top bottom left right = .ok c) ↔ top + bottom < s.rows ∧ left + right < s.cols := by
  constructor
  · rintro ⟨c, hc⟩
    unfold trim at hc
    split at hc
    · next hcut => rwa [h.rowCount_eq, h.colCount_eq] at hcut
    · cases hc
  · rintro ⟨hrows, hcols⟩
    exact ⟨_, trim_of_lt h hrows hcols⟩

theorem HasShape.trim_eq_ok_iff (h : m.HasShape s) :
    m.trim top bottom left right = .ok c ↔ (top + bottom < s.rows ∧ left + right < s.cols) ∧
      c = ofFn (s.rows - (top + bottom)) (s.cols - (left + right)) fun i j =>
        m.cell (i + top) (j + left) := by
  constructor
  · intro hc
    obtain ⟨hrows, hcols⟩ := h.exists_trim_iff.1 ⟨c, hc⟩
    rw [trim_of_lt h hrows hcols] at hc
    exact ⟨⟨hrows, hcols⟩, (Except.ok.inj hc).symm⟩
  · rintro ⟨⟨hrows, hcols⟩, rfl⟩
    exact trim_of_lt h hrows hcols

theorem HasShape.trim_cells (h : m.HasShape s) (hc : m.trim top bottom left right = .ok c) :
    c.shape = ⟨s.rows - (top + bottom), s.cols - (left + right)⟩ ∧
      ∀ i j, c.get? i j = if i < s.rows - (top + bottom) ∧ j < s.cols - (left + right)
        then m.get? (i + top) (j + left) else none := by
  obtain ⟨-, rfl⟩ := h.trim_eq_ok_iff.1 hc
  refine ⟨shape_ofFn .., fun i j => ?_⟩
  rw [get?_ofFn]
  split
  · rw [h.get?_eq, if_pos (by omega)]
  · rfl

theorem ofFn_block {rows cols height width : Nat} (f : Nat → Nat → α) (hrows : height + top ≤ rows)
    (hcols : width + left ≤ cols) :
    (ofFn height width fun i j => (ofFn rows cols f).cell (i + top) (j + left)) =
      ofFn height width fun i j => f (i + top) (j + left) :=
  ofFn_congr fun _ _ _ _ => cell_ofFn (by omega) (by omega)

theorem HasShape.trim_trim_iff (h : m.HasShape s) {top' bottom' left' right' : Nat} :
    (∃ c, m.trim top bottom left right = .ok c ∧ c.trim top' bottom' left' right' = .ok d) ↔
      m.trim (top + top') (bottom + bottom') (left + left') (right + right') = .ok d := by
  have hblock (hrows : top + bottom + (top' + bottom') < s.rows)
      (hcols : left + right + (left' + right') < s.cols) :
      (ofFn (s.rows - (top + bottom)) (s.cols - (left + right)) fun i j =>
          m.cell (i + top) (j + left)).trim top' bottom' left' right' =
        m.trim (top + top') (bottom + bottom') (left + left') (right + right') := by
    rw [trim_of_lt (hasShape_ofFn ..) (by dsimp only; omega) (by dsimp only; omega),
      trim_of_lt h (by omega) (by omega)]
    dsimp only
    rw [ofFn_block _ (by omega) (by omega)]
    congr 2
    · omega
    · omega
    · funext i j
      rw [Nat.add_assoc, Nat.add_assoc, Nat.add_comm top', Nat.add_comm left']
  constructor
  · rintro ⟨c, hc, hd⟩
    obtain ⟨⟨hrows, hcols⟩, rfl⟩ := h.trim_eq_ok_iff.1 hc
    obtain ⟨hrows', hcols'⟩ := (hasShape_ofFn ..).exists_trim_iff.1 ⟨d, hd⟩
    dsimp only at hrows' hcols'
    rw [← hblock (by omega) (by omega), hd]
  · intro hd
    obtain ⟨hrows, hcols⟩ := h.exists_trim_iff.1 ⟨d, hd⟩
    exact ⟨_, trim_of_lt h (by omega) (by omega), (hblock (by omega) (by omega)).trans hd⟩

/-- An index inside the grid is one that words can hold, and finds its entry. -/
theorem HasShape.entryInWords_eq (h : m.HasShape s) (hrows : s.rows < UInt64.size)
    (hcols : s.cols < UInt64.size) {top left : UInt64} {i j : Nat} (hi : i + top.toNat < s.rows)
    (hj : j + left.toNat < s.cols) :
    m.entryInWords top left (.ofNat i) (.ofNat j) = .ok (m.cell (i + top.toNat) (j + left.toNat)) := by
  have hiw : (UInt64.ofNat i).toNat = i := UInt64.toNat_ofNat_of_lt (by omega)
  have hjw : (UInt64.ofNat j).toNat = j := UInt64.toNat_ofNat_of_lt (by omega)
  obtain ⟨k, hk, hkn⟩ := addOrTrap_of_lt (a := .ofNat i) (b := top) (by omega)
  obtain ⟨l, hl, hln⟩ := addOrTrap_of_lt (a := .ofNat j) (b := left) (by omega)
  rw [hiw] at hkn
  rw [hjw] at hln
  simp only [entryInWords, hk, hl, hkn, hln, h.get?_eq, if_pos (And.intro hi hj), bind, Except.bind,
    Option.elim_some]

theorem HasShape.trimInWords_eq (h : m.HasShape s) (hrows : s.rows < UInt64.size)
    (hcols : s.cols < UInt64.size) (top bottom left right : UInt64) :
    m.trimInWords top bottom left right =
      .ok (m.trim top.toNat bottom.toNat left.toNat right.toNat) := by
  have hr : (UInt64.ofNat s.rows).toNat = s.rows := UInt64.toNat_ofNat_of_lt hrows
  have hc : (UInt64.ofNat s.cols).toNat = s.cols := UInt64.toNat_ofNat_of_lt hcols
  have hrefused : ¬ (top.toNat + bottom.toNat < s.rows ∧ left.toNat + right.toNat < s.cols) →
      m.trim top.toNat bottom.toNat left.toNat right.toNat =
        .error (.dimensionMismatch .matrixTrim m.shape
          ⟨(saturatingAdd top bottom).toNat, (saturatingAdd left right).toNat⟩) := fun hcut => by
    rw [trim, h.rowCount_eq, h.colCount_eq, if_neg hcut, toNat_saturatingAdd, toNat_saturatingAdd]
  unfold trimInWords
  rw [h.rowCount_eq, h.colCount_eq]
  dsimp only
  by_cases hv : top.toNat + bottom.toNat < s.rows
  · rw [sumBelow_of_lt (hr.symm ▸ hv), Option.elim_some]
    by_cases hw : left.toNat + right.toNat < s.cols
    · have hvsum : (top + bottom).toNat = top.toNat + bottom.toNat := toNat_add_of_lt (by omega)
      have hwsum : (left + right).toNat = left.toNat + right.toNat := toNat_add_of_lt (by omega)
      obtain ⟨height, hheight, hheightn⟩ :=
        subOrTrap_of_le (a := .ofNat s.rows) (b := top + bottom) (by omega)
      obtain ⟨width, hwidth, hwidthn⟩ :=
        subOrTrap_of_le (a := .ofNat s.cols) (b := left + right) (by omega)
      have hentry (i j : Nat) (hi : i ∈ List.range height.toNat) (hj : j ∈ List.range width.toNat) :
          m.entryInWords top left (.ofNat i) (.ofNat j) =
            .ok (m.cell (i + top.toNat) (j + left.toNat)) := by
        have hi := List.mem_range.1 hi
        have hj := List.mem_range.1 hj
        exact h.entryInWords_eq hrows hcols (by omega) (by omega)
      have hrow (i : Nat) (hi : i ∈ List.range height.toNat) := mapM_of_ok fun j hj => hentry i j hi hj
      rw [sumBelow_of_lt (hc.symm ▸ hw), Option.elim_some, trim_of_lt h hv hw]
      simp only [hheight, hwidth, mapM_of_ok hrow, bind, Except.bind]
      rw [hheightn, hwidthn, hr, hc, hvsum, hwsum]
      rfl
    · rw [sumBelow_of_le (hc.symm ▸ Nat.le_of_not_lt hw), hrefused fun hcut => hw hcut.2]
      rfl
  · rw [sumBelow_of_le (hr.symm ▸ Nat.le_of_not_lt hv), hrefused fun hcut => hv hcut.1]
    rfl

end

/-- Trimming is exact for all counts. Done in words it comes to the same, refusals and the counts they
report included, and no number on the way passes the range of a word; it is refused unless a row and a
column remain; what remains is the part of the grid inside the margins; and margins cut off one after
the other are cut off together. -/
theorem trim_exact {m : DenseMatrix α} (h : m.WellFormed) :
    (m.rowCount < UInt64.size → m.colCount < UInt64.size → ∀ top bottom left right : UInt64,
      m.trimInWords top bottom left right =
        .ok (m.trim top.toNat bottom.toNat left.toNat right.toNat)) ∧
    (∀ top bottom left right : Nat,
      ((∃ c, m.trim top bottom left right = .ok c) ↔
        top + bottom < m.rowCount ∧ left + right < m.colCount) ∧
      ∀ c, m.trim top bottom left right = .ok c →
        c.shape = ⟨m.rowCount - (top + bottom), m.colCount - (left + right)⟩ ∧
          ∀ i j, c.get? i j = if i < m.rowCount - (top + bottom) ∧ j < m.colCount - (left + right)
            then m.get? (i + top) (j + left) else none) ∧
    ∀ (top bottom left right top' bottom' left' right' : Nat) (d : DenseMatrix α),
      (∃ c, m.trim top bottom left right = .ok c ∧ c.trim top' bottom' left' right' = .ok d) ↔
        m.trim (top + top') (bottom + bottom') (left + left') (right + right') = .ok d :=
  ⟨h.hasShape.trimInWords_eq, fun _ _ _ _ => ⟨h.hasShape.exists_trim_iff, fun _ => h.hasShape.trim_cells⟩,
    fun _ _ _ _ _ _ _ _ _ => h.hasShape.trim_trim_iff⟩

/-- An identity of three rows, with margins that pass the greatest word together, and with two cuts
that leave its middle. -/
theorem trim_exact_past_words :
    (identity 3 : DenseMatrix (Scalar Float)).trimInWords (.ofNat maxCount) 1 0 0 =
        .ok (.error (.dimensionMismatch .matrixTrim ⟨3, 3⟩ ⟨maxCount, 0⟩)) ∧
      ∃ d, (∃ c, (identity 3 : DenseMatrix (Scalar Float)).trim 1 0 1 0 = .ok c ∧
        c.trim 0 1 0 1 = .ok d) ∧ d.shape = ⟨1, 1⟩ := by
  obtain ⟨hwords, hcut, htwice⟩ :=
    trim_exact (wellFormed_identity 3 : (identity 3 : DenseMatrix (Scalar Float)).WellFormed)
  refine ⟨(hwords (by decide) (by decide) _ 1 0 0).trans rfl, ?_⟩
  obtain ⟨d, hd⟩ := (hcut 1 1 1 1).1.2 (by decide)
  exact ⟨d, (htwice 1 0 1 0 0 1 0 1 d).2 hd, ((hcut 1 1 1 1).2 d hd).1⟩

end DenseMatrix

end MatrixCalculator
