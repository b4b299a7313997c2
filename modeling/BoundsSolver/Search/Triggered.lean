/-
# The propagators that are to run

Propagators run in ascending order of their numbers, and each at most once per
trigger.  A heap gives the order and a mark for each propagator keeps out
duplicates; both always describe the same set.
-/

import BoundsSolver.Keyed
import BoundsSolver.Search.Heap

namespace BoundsSolver

/-- A set of propagators with access to the smallest. -/
structure Triggered where
  queue : Heap
  /-- Whether each propagator is in the queue. -/
  marks : Array Bool
  deriving DecidableEq, Repr, Inhabited

namespace Triggered

/-- The empty set, with room for the marks of so many propagators. -/
def ofSize (propagators : Nat) : Triggered := ⟨.leaf, Array.replicate propagators false⟩

def isEmpty (t : Triggered) : Bool := decide (t.queue.size = 0)

/-- The number of propagators in the set. -/
def size (t : Triggered) : Nat := t.queue.size

def contains (t : Triggered) (id : PropagatorId) : Bool := t.marks.getD id.index false

/-- The marks with room for a propagator. -/
def grow (marks : Array Bool) (id : PropagatorId) : Array Bool :=
  marks ++ Array.replicate (id.index + 1 - marks.size) false

def insert (t : Triggered) (id : PropagatorId) : Triggered :=
  let marks := grow t.marks id
  if marks.getD id.index false then { t with marks }
  else ⟨t.queue.insert id.index, marks.setIfInBounds id.index true⟩

/-- The smallest propagator, and the set without it. -/
@[inline] def pop? (t : Triggered) : Option (PropagatorId × Triggered) :=
  match t.queue.pop? with
  | none => none
  | some (i, queue) => some (⟨i⟩, ⟨queue, t.marks.setIfInBounds i false⟩)

/-- Takes every propagator out. -/
def clear (t : Triggered) : Triggered :=
  ⟨.leaf, t.queue.toList.foldl (fun marks i => marks.setIfInBounds i false) t.marks⟩

theorem size_insert_le (t : Triggered) (id : PropagatorId) : (t.insert id).size ≤ t.size + 1 := by
  unfold insert
  dsimp only
  split
  · exact Nat.le_succ _
  · exact Nat.le_of_eq (Heap.size_insert t.queue id.index)

theorem size_foldl_insert_le (ids : List PropagatorId) (t : Triggered) :
    (ids.foldl insert t).size ≤ t.size + ids.length := by
  induction ids generalizing t with
  | nil => exact Nat.le_refl _
  | cons id ids ih =>
    have hinsert := t.size_insert_le id
    have hrest := ih (t.insert id)
    rw [List.foldl_cons, List.length_cons]
    omega

theorem size_of_pop? {t u : Triggered} {id : PropagatorId} (h : t.pop? = some (id, u)) :
    t.size = u.size + 1 := by
  unfold pop? at h
  split at h
  · cases h
  · rename_i i queue hq
    obtain ⟨rfl, rfl⟩ := by simpa using h
    exact Heap.size_of_pop? hq

end Triggered
end BoundsSolver
