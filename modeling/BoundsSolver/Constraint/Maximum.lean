/-
# The greatest of several variables

The last variable is the greatest of those before it.  A round gives the maximum
the range of the greatest element, caps the elements by the maximum, and raises
the only element that can still reach the maximum, if there is just one.
`round_shrinks` is why the rounds come to an end.
-/

import BoundsSolver.Constraint.Status

namespace BoundsSolver
namespace Maximum

/-- Lowers every element to at most `value`, up to the first that is emptied; says
whether all kept a value. -/
def capAll (value : Int) : List Interval → Bool × List Interval
  | [] => (true, [])
  | i :: is =>
    let j := i.tightenMax value
    if j.isEmpty then (false, j :: is)
    else
      let (kept, js) := capAll value is
      (kept, j :: js)

/-- An element that can reach the least value of the maximum. -/
def reaches (maximum i : Interval) : Bool := decide (maximum.min ≤ i.max)

/-- Raises the first element that can reach the maximum to its least value. -/
def raiseFirst (maximum : Interval) : List Interval → List Interval
  | [] => []
  | i :: is =>
    if reaches maximum i then i.tightenMin maximum.min :: is else i :: raiseFirst maximum is

/-- The maximum within the range of the greatest element. -/
def cover (elements : List Interval) (maximum : Interval) : Interval :=
  let least := (elements.map Interval.min).max?.getD Width.value.lo
  let most := (elements.map Interval.max).max?.getD Width.value.lo
  (maximum.tightenMin least).tightenMax most

/-- One round; the flag is false if a variable lost its last value or no element
reaches the maximum. -/
def round (elements : List Interval) (maximum : Interval) : Bool × List Interval × Interval :=
  let maximum := cover elements maximum
  if maximum.isEmpty then (false, elements, maximum)
  else
    match capAll maximum.max elements with
    | (false, elements) => (false, elements, maximum)
    | (true, elements) =>
      match elements.countP (reaches maximum) with
      | 0 => (false, elements, maximum)
      | 1 => (true, raiseFirst maximum elements, maximum)
      | _ => (true, elements, maximum)

theorem cover_isWithin (elements : List Interval) (maximum : Interval) :
    (cover elements maximum).isWithin maximum :=
  Interval.isWithin_trans (Interval.tightenMax_isWithin _ _) (Interval.tightenMin_isWithin _ _)

theorem capAll_shrinks {value : Int} {is js : List Interval} (h : capAll value is = (true, js)) :
    Shrinks js is := by
  induction is generalizing js with
  | nil => simp [capAll] at h; exact .inl h
  | cons i is ih =>
    simp only [capAll] at h
    split at h
    · simp at h
    · rename_i hne
      simp only [Prod.mk.injEq] at h
      obtain ⟨h₁, rfl⟩ := h
      exact .cons (Interval.shrinks_of_isWithin (Interval.tightenMax_isWithin _ _)
        (by simpa using hne)) (ih (Prod.ext h₁ rfl))

theorem nonempty_of_capAll {value : Int} {is js : List Interval}
    (h : capAll value is = (true, js)) : ∀ j ∈ js, j.isEmpty = false := by
  induction is generalizing js with
  | nil => simp [capAll] at h; simp [h]
  | cons i is ih =>
    simp only [capAll] at h
    split at h
    · simp at h
    · rename_i hne
      simp only [Prod.mk.injEq] at h
      obtain ⟨h₁, rfl⟩ := h
      intro j hj
      rcases List.mem_cons.1 hj with rfl | hj
      · simpa using hne
      · exact ih (Prod.ext h₁ rfl) j hj

theorem raiseFirst_shrinks {maximum : Interval} {is : List Interval}
    (h : ∀ i ∈ is, i.isEmpty = false) : Shrinks (raiseFirst maximum is) is := by
  induction is with
  | nil => exact .refl _
  | cons i is ih =>
    unfold raiseFirst
    split
    · refine .cons ?_ (.refl _)
      by_cases hne : i.tightenMin maximum.min = i
      · exact .inl hne
      · exact .inr (Interval.size_lt_of_isWithin (Interval.tightenMin_isWithin _ _) hne
          (h i (by simp)))
    · exact .cons (.refl i) (ih fun j hj => h j (by simp [hj]))

/-- **A round makes progress or changes nothing.** -/
theorem round_shrinks {es fs : List Interval} {m n : Interval}
    (h : round es m = (true, fs, n)) : Shrinks (n :: fs) (m :: es) := by
  unfold round at h
  simp only at h
  split at h
  · simp at h
  · rename_i hm
    have hcover : (cover es m).Shrinks m :=
      Interval.shrinks_of_isWithin (cover_isWithin es m) (by simpa using hm)
    split at h
    · simp at h
    · rename_i cs hcap
      split at h
      · simp at h
      · obtain ⟨rfl, rfl⟩ := by simpa using h
        exact .cons hcover ((raiseFirst_shrinks (nonempty_of_capAll hcap)).trans
          (capAll_shrinks hcap))
      · obtain ⟨rfl, rfl⟩ := by simpa using h
        exact .cons hcover (capAll_shrinks hcap)

/-- Rounds until one changes nothing. -/
def settle (elements : List Interval) (maximum : Interval) : Narrowing :=
  match _e : round elements maximum with
  | (false, es, m) => ⟨.inconsistent, es ++ [m]⟩
  | (true, es, m) =>
    if m :: es = maximum :: elements then
      ⟨if m.isFixed && allFixed es then .entailed else .consistent, es ++ [m]⟩
    else settle es m
termination_by totalSize (maximum :: elements)
decreasing_by exact (round_shrinks _e).totalSize_lt ‹_›

/-- Narrows the elements and their maximum, which comes last. -/
def propagate (bounds : List Interval) : Narrowing :=
  match bounds.getLast? with
  | none => ⟨.entailed, bounds⟩
  | some maximum =>
    let elements := bounds.dropLast
    if elements.isEmpty then ⟨.inconsistent, bounds⟩ else settle elements maximum

end Maximum
end BoundsSolver
