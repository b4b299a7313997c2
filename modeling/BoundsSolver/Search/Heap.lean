/-
# Skew heaps of numbers

A tree in which no number is greater than those below it.  Two heaps are merged
along their right spines, and every node on the way swaps its sides, which keeps
the spines short on average.  `size_merge` is why popping comes to an end.
-/

namespace BoundsSolver

/-- A tree of numbers, smallest on top if it was built by merging. -/
inductive Heap where
  | leaf
  | node (root : Nat) (left right : Heap)
  deriving DecidableEq, Repr, Inhabited

namespace Heap

def size : Heap → Nat
  | leaf => 0
  | node _ l r => l.size + r.size + 1

/-- All numbers of two heaps. -/
def merge : Heap → Heap → Heap
  | leaf, k => k
  | h, leaf => h
  | node x l r, node y l' r' =>
    if x ≤ y then node x (merge r (node y l' r')) l
    else node y (merge r' (node x l r)) l'
termination_by h k => h.size + k.size
decreasing_by all_goals simp only [size]; omega

def insert (h : Heap) (x : Nat) : Heap := merge h (node x leaf leaf)

/-- The numbers of a heap, in no particular order. -/
def toList : Heap → List Nat
  | leaf => []
  | node x l r => x :: (l.toList ++ r.toList)

/-- The top of a heap, and the heap without it. -/
def pop? : Heap → Option (Nat × Heap)
  | leaf => none
  | node x l r => some (x, merge l r)

@[simp] theorem size_merge (h k : Heap) : (merge h k).size = h.size + k.size := by
  fun_induction merge h k with
  | case1 => simp [size]
  | case2 => simp [size]
  | case3 x l r y l' r' _ ih => simp only [size] at *; omega
  | case4 x l r y l' r' _ ih => simp only [size] at *; omega

theorem size_insert (h : Heap) (x : Nat) : (h.insert x).size = h.size + 1 :=
  size_merge h (node x leaf leaf)

theorem size_of_pop? {h k : Heap} {x : Nat} (e : h.pop? = some (x, k)) :
    h.size = k.size + 1 := by
  cases h with
  | leaf => cases e
  | node y l r =>
    obtain ⟨rfl, rfl⟩ := by simpa [pop?] using e
    simp [size]

end Heap
end BoundsSolver
