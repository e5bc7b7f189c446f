import MatrixCalculator.Entry
import MatrixCalculator.Update
set_option autoImplicit false

/-!
Growable sequences of entries that remember the highest rank they have held. The remembered rank
only goes up: overwriting the last complex entry with a real one leaves the sequence complex.
A sequence built from entries starts at the highest rank among them.
-/

namespace MatrixCalculator

structure RankedSeq (α : Type) where
  items : List α
  rank : Rank
  deriving DecidableEq, Repr

namespace RankedSeq

variable {α : Type} [Entry α]

def zeros (n : Nat) : RankedSeq α := ⟨List.replicate n 0, .real⟩

def ofList (items : List α) : RankedSeq α := ⟨items, Rank.joinAll (items.map Entry.rank)⟩

def length {α : Type} (s : RankedSeq α) : Nat := s.items.length

def isEmpty {α : Type} (s : RankedSeq α) : Bool := s.items.isEmpty

def get? {α : Type} (s : RankedSeq α) (i : Nat) : Option α := s.items[i]?

def set (s : RankedSeq α) (i : Nat) (x : α) : Update (RankedSeq α) :=
  if i < s.length then .done ⟨s.items.set i x, s.rank.join (Entry.rank x)⟩
  else .refused (.indexOutOfBounds i s.length) s

def append (s : RankedSeq α) (x : α) : RankedSeq α :=
  ⟨s.items ++ [x], s.rank.join (Entry.rank x)⟩

/-- The entries from `first` to `last`, both included. -/
def subset (s : RankedSeq α) (first last : Nat) : Except Error (RankedSeq α) :=
  if s.length ≤ last then .error (.indexOutOfBounds last s.length)
  else if last < first then .error (.indexOutOfBounds first (last + 1))
  else .ok (ofList ((s.items.take (last + 1)).drop first))

def indexOf? (s : RankedSeq α) (x : α) : Option Nat := s.items.findIdx? (Entry.same · x)

def sameItems (xs ys : List α) : Bool := xs.isEqv ys Entry.same

def same (s t : RankedSeq α) : Bool := sameItems s.items t.items && s.rank == t.rank

@[simp] theorem length_zeros (n : Nat) : (zeros n : RankedSeq α).length = n := by
  simp [zeros, length]

@[simp] theorem length_ofList (items : List α) : (ofList items).length = items.length := rfl

@[simp] theorem length_append (s : RankedSeq α) (x : α) : (s.append x).length = s.length + 1 := by
  simp [append, length]

@[simp] theorem length_set (s : RankedSeq α) (i : Nat) (x : α) :
    (s.set i x).state.length = s.length := by
  unfold set
  split <;> simp [Update.done, Update.refused, length]

theorem refusal_set (s : RankedSeq α) (i : Nat) (x : α) :
    (s.set i x).refusal = if i < s.length then none else some (.indexOutOfBounds i s.length) := by
  unfold set
  split <;> rfl

theorem set_of_length_le {s : RankedSeq α} {i : Nat} (h : s.length ≤ i) (x : α) :
    (s.set i x).state = s := by
  rw [set, if_neg (by omega), Update.refused]

theorem rank_set (s : RankedSeq α) (i : Nat) (x : α) :
    (s.set i x).state.rank = if i < s.length then s.rank.join (Entry.rank x) else s.rank := by
  unfold set
  split <;> rfl

theorem rank_le_rank_set (s : RankedSeq α) (i : Nat) (x : α) : s.rank ≤ (s.set i x).state.rank := by
  unfold set
  split
  · exact s.rank.le_join_left (Entry.rank x)
  · exact s.rank.le_refl

theorem rank_le_rank_append (s : RankedSeq α) (x : α) : s.rank ≤ (s.append x).rank :=
  s.rank.le_join_left (Entry.rank x)

theorem rank_ofList_eq_complex {items : List α} :
    (ofList items).rank = .complex ↔ ∃ x ∈ items, Entry.rank x = .complex := by
  simp [ofList, Rank.joinAll_eq_complex]

end RankedSeq

end MatrixCalculator
