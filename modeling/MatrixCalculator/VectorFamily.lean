import MatrixCalculator.OrientedVector
set_option autoImplicit false

/-!
Vectors that all lie in one space; a vector from the other space is turned on the way in. A family
remembers the greatest length and the highest rank it has been given, and lowers neither.
-/

namespace MatrixCalculator

structure VectorFamily (α : Type) where
  vectors : List (OrientedVector α)
  innerLength : Nat
  space : Space
  rank : Rank
  deriving DecidableEq, Repr

namespace VectorFamily

variable {α : Type} [Entry α]

/-- Every vector is built on its own, so that a family without vectors costs nothing however long
its vectors would be. -/
def zeros (space : Space) (count length : Nat) : VectorFamily α :=
  ⟨(List.range count).map fun _ => .zeros space length, length, space, .real⟩

def maxLength {α : Type} (vs : List (OrientedVector α)) : Nat :=
  (vs.map OrientedVector.length).foldr max 0

def ofVectors {α : Type} (space : Space) (vs : List (OrientedVector α)) : VectorFamily α :=
  ⟨vs.map (·.inSpace space), maxLength vs, space, Rank.joinAll (vs.map OrientedVector.rank)⟩

/-- Raises the remembered length, so that a family without vectors still has a width. -/
def widened {α : Type} (f : VectorFamily α) (n : Nat) : VectorFamily α :=
  { f with innerLength := max f.innerLength n }

def count {α : Type} (f : VectorFamily α) : Nat := f.vectors.length

def isEmpty {α : Type} (f : VectorFamily α) : Bool := f.vectors.isEmpty

def get? {α : Type} (f : VectorFamily α) (i : Nat) : Option (OrientedVector α) := f.vectors[i]?

def set {α : Type} (f : VectorFamily α) (i : Nat) (v : OrientedVector α) : Update (VectorFamily α) :=
  if i < f.count then
    .done { f with
      vectors := f.vectors.set i (v.inSpace f.space)
      innerLength := max f.innerLength v.length
      rank := f.rank.join v.rank }
  else .refused (.indexOutOfBounds i f.count) f

def setEntry (f : VectorFamily α) (i j : Nat) (x : α) : Update (VectorFamily α) :=
  match f.get? i with
  | none => .refused (.indexOutOfBounds i f.count) f
  | some v =>
    let u := v.set j x
    let stored := { f with vectors := f.vectors.set i u.state }
    match u.refusal with
    | none => .done { stored with rank := f.rank.join (Entry.rank x) }
    | some e => .refused e stored

def append {α : Type} (f : VectorFamily α) (v : OrientedVector α) : VectorFamily α :=
  { f with
    vectors := f.vectors ++ [v.inSpace f.space]
    innerLength := max f.innerLength v.length
    rank := f.rank.join v.rank }

def swap {α : Type} (f : VectorFamily α) (i j : Nat) : Update (VectorFamily α) :=
  match f.get? i, f.get? j with
  | some v, some w => .done { f with vectors := (f.vectors.set i w).set j v }
  | none, _ => .refused (.indexOutOfBounds i f.count) f
  | some _, none => .refused (.indexOutOfBounds j f.count) f

def subset {α : Type} (f : VectorFamily α) (first last : Nat) : Except Error (VectorFamily α) :=
  if f.count ≤ last then .error (.indexOutOfBounds last f.count)
  else if last < first then .error (.indexOutOfBounds first (last + 1))
  else .ok (ofVectors f.space ((f.vectors.take (last + 1)).drop first))

/-- The first vector with the entries of `v`; space and rank are not looked at. -/
def indexOf? (f : VectorFamily α) (v : OrientedVector α) : Option Nat :=
  f.vectors.findIdx? fun w => RankedSeq.sameItems w.items v.items

def same (f g : VectorFamily α) : Bool :=
  f.vectors.isEqv g.vectors OrientedVector.same && f.innerLength == g.innerLength
    && f.space == g.space && f.rank == g.rank

theorem vectors_zeros (space : Space) (count length : Nat) :
    (zeros space count length : VectorFamily α).vectors = List.replicate count (.zeros space length) := by
  simp [zeros, List.map_const']

@[simp] theorem count_zeros (space : Space) (count length : Nat) :
    (zeros space count length : VectorFamily α).count = count := by
  simp [VectorFamily.count, vectors_zeros]

@[simp] theorem count_ofVectors {α : Type} (space : Space) (vs : List (OrientedVector α)) :
    (ofVectors space vs).count = vs.length := List.length_map ..

theorem length_le_maxLength {α : Type} {v : OrientedVector α} {vs : List (OrientedVector α)}
    (h : v ∈ vs) : v.length ≤ maxLength vs := by
  induction vs with
  | nil => cases h
  | cons w vs ih =>
    have hm : maxLength (w :: vs) = max w.length (maxLength vs) := rfl
    rcases List.mem_cons.1 h with rfl | hv
    · omega
    · have := ih hv
      omega

theorem maxLength_le {α : Type} {n : Nat} {vs : List (OrientedVector α)}
    (h : ∀ v ∈ vs, v.length ≤ n) : maxLength vs ≤ n := by
  induction vs with
  | nil => exact Nat.zero_le n
  | cons w vs ih =>
    exact Nat.max_le.2 ⟨h w List.mem_cons_self, ih fun v hv => h v (List.mem_cons_of_mem w hv)⟩

theorem maxLength_eq {α : Type} {n : Nat} {vs : List (OrientedVector α)} (hne : vs ≠ [])
    (h : ∀ v ∈ vs, v.length = n) : maxLength vs = n := by
  obtain ⟨v, hv⟩ := List.exists_mem_of_ne_nil vs hne
  refine Nat.le_antisymm (maxLength_le fun w hw => Nat.le_of_eq (h w hw)) ?_
  exact h v hv ▸ length_le_maxLength hv

@[simp] theorem count_set {α : Type} (f : VectorFamily α) (i : Nat) (v : OrientedVector α) :
    (f.set i v).state.count = f.count := by
  unfold set
  split <;> simp [Update.done, Update.refused, count]

theorem refusal_set {α : Type} (f : VectorFamily α) (i : Nat) (v : OrientedVector α) :
    (f.set i v).refusal = if i < f.count then none else some (.indexOutOfBounds i f.count) := by
  unfold set
  split <;> rfl

@[simp] theorem count_setEntry (f : VectorFamily α) (i j : Nat) (x : α) :
    (f.setEntry i j x).state.count = f.count := by
  unfold setEntry
  split
  · rfl
  · dsimp only
    split <;> simp [Update.done, Update.refused, count]

@[simp] theorem innerLength_setEntry (f : VectorFamily α) (i j : Nat) (x : α) :
    (f.setEntry i j x).state.innerLength = f.innerLength := by
  unfold setEntry
  split
  · rfl
  · dsimp only
    split <;> rfl

@[simp] theorem space_set {α : Type} (f : VectorFamily α) (i : Nat) (v : OrientedVector α) :
    (f.set i v).state.space = f.space := by
  unfold set
  split <;> rfl

@[simp] theorem space_setEntry (f : VectorFamily α) (i j : Nat) (x : α) :
    (f.setEntry i j x).state.space = f.space := by
  unfold setEntry
  split
  · rfl
  · dsimp only
    split <;> rfl

@[simp] theorem space_swap {α : Type} (f : VectorFamily α) (i j : Nat) :
    (f.swap i j).state.space = f.space := by
  unfold swap
  split <;> rfl

theorem mem_of_mem_swap {α : Type} {f : VectorFamily α} {i j : Nat} {u : OrientedVector α}
    (h : u ∈ (f.swap i j).state.vectors) : u ∈ f.vectors := by
  unfold swap at h
  split at h
  · next v w hv hw =>
    rcases List.mem_or_eq_of_mem_set h with h | rfl
    · rcases List.mem_or_eq_of_mem_set h with h | rfl
      · exact h
      · exact List.mem_of_getElem? hw
    · exact List.mem_of_getElem? hv
  · exact h
  · exact h

@[simp] theorem innerLength_swap {α : Type} (f : VectorFamily α) (i j : Nat) :
    (f.swap i j).state.innerLength = f.innerLength := by
  unfold swap
  split <;> rfl

@[simp] theorem rank_swap {α : Type} (f : VectorFamily α) (i j : Nat) :
    (f.swap i j).state.rank = f.rank := by
  unfold swap
  split <;> rfl

@[simp] theorem count_swap {α : Type} (f : VectorFamily α) (i j : Nat) :
    (f.swap i j).state.count = f.count := by
  unfold swap
  split <;> simp [Update.done, Update.refused, count]

theorem innerLength_set {α : Type} (f : VectorFamily α) (i : Nat) (v : OrientedVector α) :
    (f.set i v).state.innerLength = if i < f.count then max f.innerLength v.length else f.innerLength := by
  unfold set
  split <;> rfl

theorem state_setEntry {f : VectorFamily α} {i : Nat} {v : OrientedVector α} (hv : f.get? i = some v)
    (j : Nat) (x : α) :
    (f.setEntry i j x).state = { f with
      vectors := f.vectors.set i (v.set j x).state
      rank := if j < v.length then f.rank.join (Entry.rank x) else f.rank } := by
  by_cases h : j < v.length <;>
    simp [setEntry, hv, OrientedVector.refusal_set, h, Update.done, Update.refused]

end VectorFamily

end MatrixCalculator
