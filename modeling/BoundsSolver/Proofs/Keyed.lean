/-
# Tables after an update

`Keyed.entry` reads a default where a key addresses no entry, so that an update can
be described for every key at once.
-/

import BoundsSolver.Keyed

namespace BoundsSolver

theorem getD_setIfInBounds {α : Type} {xs : Array α} {i j : Nat} {a b : α} :
    (xs.setIfInBounds i a).getD j b = if i = j ∧ i < xs.size then a else xs.getD j b := by
  simp only [Array.getD_eq_getD_getElem?, Array.getElem?_setIfInBounds]
  by_cases h : i = j
  · subst h
    by_cases hi : i < xs.size
    · simp [hi]
    · simp [hi]
  · simp [h]

namespace Keyed

variable {κ α : Type} [Key κ] {t : Keyed κ α} {k l : κ} {a : α}

theorem mem_of_get? (h : t.get? k = some a) : a ∈ t.toList := by
  rw [get?_eq_getElem?] at h
  exact List.mem_of_getElem? h

theorem lt_size_of_get? (h : t.get? k = some a) : Key.index k < t.size := by
  rw [get?_eq_getElem?] at h
  exact (List.getElem?_eq_some_iff.1 h).1

theorem exists_get?_of_mem (h : a ∈ t.toList) : ∃ k : κ, t.get? k = some a := by
  obtain ⟨i, hi⟩ := List.mem_iff_getElem?.1 h
  refine ⟨Key.ofIndex i, ?_⟩
  rw [get?_eq_getElem?, Key.index_ofIndex]
  exact hi

theorem get?_push_of_lt (h : Key.index k < t.size) : (t.push a).2.get? k = t.get? k := by
  rw [get?_push, if_neg (Nat.ne_of_lt h)]

theorem get?_push_size (h : Key.index k = t.size) : (t.push a).2.get? k = some a := by
  rw [get?_push, if_pos h]

theorem entry_set [Inhabited α] : (t.set k a).entry l =
    if Key.index k = Key.index l ∧ Key.index k < t.size then a else t.entry l :=
  getD_setIfInBounds

end Keyed
end BoundsSolver
