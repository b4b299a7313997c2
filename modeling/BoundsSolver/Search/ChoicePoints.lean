/-
# Choice points

A decision leaves a choice point behind: the box and the entailed propagators at
the time, and the branch that was not taken.  Choice points are stacked up to a
capacity.  Their slots are kept when they are popped and overwritten by later
pushes; only the slots below the depth count, and `ChoicePoints.live` lists them.
-/

import BoundsSolver.Search.Propagation

namespace BoundsSolver

/-- What is restored when the search takes a decision back. -/
structure ChoicePoint where
  box : Box
  entailed : Keyed PropagatorId Bool
  /-- The branch that was not taken. -/
  alternative : Branch
  deriving DecidableEq, Inhabited

namespace ChoicePoint

/-- The box in the branch that was not taken. -/
def otherBox (c : ChoicePoint) : Box := c.box.tighten c.alternative

/-- The weights of the branches that several choice points left, together. -/
def totalWeight : List ChoicePoint → Nat
  | [] => 0
  | c :: cs => c.otherBox.weight + totalWeight cs

@[simp] theorem totalWeight_append (cs ds : List ChoicePoint) :
    totalWeight (cs ++ ds) = totalWeight cs + totalWeight ds := by
  induction cs with
  | nil => simp [totalWeight]
  | cons c cs ih => simp [totalWeight, ih]; omega

end ChoicePoint

/-- Why a search cannot go on. -/
inductive SearchError where
  | choicePointOverflow (capacity : Nat)
  deriving DecidableEq, Repr

def SearchError.message : SearchError → String
  | .choicePointOverflow capacity =>
    s!"the search exceeded the choice point capacity of {capacity} levels"

/-- A stack of choice points, in slots that are used again. -/
structure ChoicePoints where
  slots : Array ChoicePoint
  depth : Nat
  capacity : Nat
  depth_le_size : depth ≤ slots.size

namespace ChoicePoints

def ofCapacity (capacity : Nat) : ChoicePoints := ⟨#[], 0, capacity, Nat.le_refl 0⟩

instance : Inhabited ChoicePoints := ⟨ofCapacity 0⟩

/-- The choice points on the stack, the oldest first. -/
def live (cs : ChoicePoints) : List ChoicePoint := cs.slots.toList.take cs.depth

/-- Puts a choice point on top, unless the stack has reached its capacity. -/
def push (cs : ChoicePoints) (c : ChoicePoint) : Except SearchError ChoicePoints :=
  if cs.depth = cs.capacity then .error (.choicePointOverflow cs.capacity)
  else if h : cs.depth < cs.slots.size then
    .ok ⟨cs.slots.set cs.depth c, cs.depth + 1, cs.capacity, by rw [Array.size_set]; omega⟩
  else
    .ok ⟨cs.slots.push c, cs.depth + 1, cs.capacity, by
      have := cs.depth_le_size; rw [Array.size_push]; omega⟩

/-- The choice point on top, and the stack below it. -/
def pop? (cs : ChoicePoints) : Option (ChoicePoint × ChoicePoints) :=
  if h : 0 < cs.depth then
    have := cs.depth_le_size
    some (cs.slots[cs.depth - 1], ⟨cs.slots, cs.depth - 1, cs.capacity, by omega⟩)
  else none

/-- Narrows the box of every choice point on the stack. -/
def tightenAll (cs : ChoicePoints) (branch : Branch) : ChoicePoints :=
  { cs with
    slots := cs.slots.mapIdx fun k c =>
      if k < cs.depth then { c with box := c.box.tighten branch } else c
    depth_le_size := by have := cs.depth_le_size; simpa using this }

/-- The stack without choice points. -/
def clear (cs : ChoicePoints) : ChoicePoints := { cs with depth := 0, depth_le_size := Nat.zero_le _ }

theorem depth_of_pop? {cs ds : ChoicePoints} {c : ChoicePoint} (h : cs.pop? = some (c, ds)) :
    cs.depth = ds.depth + 1 := by
  unfold pop? at h
  split at h
  · obtain ⟨_, rfl⟩ := by simpa using h
    dsimp only; omega
  · cases h

theorem depth_eq_zero_of_pop? {cs : ChoicePoints} (h : cs.pop? = none) : cs.depth = 0 := by
  unfold pop? at h
  split at h
  · cases h
  · omega

/-- Pushing appends to what is on the stack. -/
theorem live_push {cs ds : ChoicePoints} {c : ChoicePoint} (h : cs.push c = .ok ds) :
    ds.live = cs.live ++ [c] := by
  have hle := cs.depth_le_size
  unfold push at h
  split at h
  · cases h
  · split at h
    · rename_i hlt
      obtain rfl := Except.ok.inj h
      simp only [live, Array.toList_set]
      rw [List.take_succ_eq_append_getElem (by simpa using hlt)]
      simp [List.take_set_of_le]
    · obtain rfl := Except.ok.inj h
      have : cs.depth = cs.slots.size := by omega
      simp [live, this, List.take_append]

/-- Popping takes the last choice point off. -/
theorem live_pop? {cs ds : ChoicePoints} {c : ChoicePoint} (h : cs.pop? = some (c, ds)) :
    cs.live = ds.live ++ [c] := by
  have hle := cs.depth_le_size
  unfold pop? at h
  split at h
  · rename_i hpos
    obtain ⟨rfl, rfl⟩ := by simpa using h
    simp only [live]
    obtain ⟨k, hk⟩ : ∃ k, cs.depth = k + 1 := ⟨cs.depth - 1, by omega⟩
    simp only [hk, Nat.add_sub_cancel]
    rw [List.take_succ_eq_append_getElem (by simp; omega)]
    simp
  · cases h

/-- Narrowing all choice points narrows each of those on the stack. -/
theorem live_tightenAll (cs : ChoicePoints) (branch : Branch) :
    (cs.tightenAll branch).live =
      cs.live.map fun c => { c with box := c.box.tighten branch } := by
  apply List.ext_getElem?
  intro k
  simp only [live, tightenAll, List.getElem?_take, List.getElem?_map]
  by_cases hk : k < cs.depth
  · simp [hk]
  · simp [hk]

@[simp] theorem live_clear (cs : ChoicePoints) : cs.clear.live = [] := by
  simp [live, clear]

end ChoicePoints
end BoundsSolver
