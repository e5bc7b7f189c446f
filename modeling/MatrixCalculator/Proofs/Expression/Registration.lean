import MatrixCalculator.Expression.Compile
set_option autoImplicit false

/-!
Lists of registered variables: which place repeats an earlier one, and where a variable is found.
-/

namespace MatrixCalculator

variable {registered : List Variable}

def Repeats (registered : List Variable) (i : Nat) : Prop :=
  ∃ v, registered[i]? = some v ∧ ∃ w ∈ registered.take i, w.id = v.id

theorem repeats_iff {i : Nat} :
    Repeats registered i ↔ i < registered.length ∧
      ((registered.take i).any fun v => (registered[i]?.map (·.id)) == some v.id) = true := by
  constructor
  · rintro ⟨v, hv, w, hw, hid⟩
    refine ⟨(List.getElem?_eq_some_iff.1 hv).1, List.any_eq_true.2 ⟨w, hw, ?_⟩⟩
    simp [hv, hid]
  · rintro ⟨hi, h⟩
    obtain ⟨w, hw, hid⟩ := List.any_eq_true.1 h
    have he : registered[i].id = w.id := by simpa [List.getElem?_eq_getElem hi] using hid
    exact ⟨registered[i], List.getElem?_eq_getElem hi, w, hw, he.symm⟩

theorem duplicateIndex?_eq_some {i : Nat} :
    duplicateIndex? registered = some i ↔
      Repeats registered i ∧ ∀ j < i, ¬ Repeats registered j := by
  simp only [duplicateIndex?, List.find?_range_eq_some, repeats_iff]
  constructor
  · rintro ⟨h, hi, hbefore⟩
    refine ⟨⟨List.mem_range.1 hi, h⟩, fun j hj hr => ?_⟩
    simpa [hr.2] using hbefore j hj
  · rintro ⟨⟨hi, h⟩, hbefore⟩
    refine ⟨h, List.mem_range.2 hi, fun j hj => ?_⟩
    have := hbefore j hj
    simp only [not_and, Nat.lt_trans hj hi, true_implies] at this
    simpa using this

theorem duplicateIndex?_eq_none :
    duplicateIndex? registered = none ↔ ∀ i, ¬ Repeats registered i := by
  simp only [duplicateIndex?, List.find?_range_eq_none, repeats_iff]
  constructor
  · intro h i hr
    simpa [hr.2] using h i hr.1
  · intro h i hi
    have := h i
    simp only [not_and, hi, true_implies] at this
    simpa using this

theorem not_repeats_of_nodup (h : (registered.map Variable.id).Nodup) (i : Nat) :
    ¬ Repeats registered i := by
  rintro ⟨v, hv, w, hw, hid⟩
  obtain ⟨hi, rfl⟩ := List.getElem?_eq_some_iff.1 hv
  obtain ⟨j, hj, rfl⟩ := List.mem_take_iff_getElem.1 hw
  have hji : j < i := by omega
  have := List.pairwise_iff_getElem.1 h j i (by simp; omega) (by simpa using hi) hji
  simp [hid] at this

theorem findIdx?_id_eq_some (h : (registered.map Variable.id).Nodup) {v : Variable} {position : Nat}
    (hv : registered[position]? = some v) :
    registered.findIdx? (·.id == v.id) = some position := by
  obtain ⟨hlt, rfl⟩ := List.getElem?_eq_some_iff.1 hv
  rw [List.findIdx?_eq_some_iff_getElem]
  refine ⟨hlt, by simp, fun j hj => ?_⟩
  have := List.pairwise_iff_getElem.1 h j position (by simp; omega) (by simpa using hlt) hj
  simpa using this

theorem findIdx?_id_eq_idxOf (h : (registered.map Variable.id).Nodup) {v : Variable}
    (hv : v ∈ registered) :
    registered.findIdx? (·.id == v.id) = some (registered.idxOf v) := by
  have hi := List.idxOf_lt_length_of_mem hv
  exact findIdx?_id_eq_some h (List.getElem?_eq_some_iff.2 ⟨hi, List.getElem_idxOf hi⟩)

end MatrixCalculator
