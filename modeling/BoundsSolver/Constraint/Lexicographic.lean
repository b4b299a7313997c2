/-
# One sequence lexicographically at most another

The first half of the variables is compared with the second half.  Positions at
which both sides are fixed to the same value decide nothing and are passed over.
At the first other position the left side must not exceed the right one, and
must stay below it if every assignment of the positions behind it puts the left
sequence above the right one.

`order_size` is why repeating that comes to an end.
-/

import BoundsSolver.Constraint.Status

namespace BoundsSolver
namespace Lexicographic

/-- The first components are lexicographically greater than the second ones. -/
def exceeds : List (Int × Int) → Bool
  | [] => false
  | (a, b) :: rest => if a = b then exceeds rest else decide (b < a)

/-- Every assignment puts the left sequence above the right one. -/
def mustExceed (rest : List (Interval × Interval)) : Bool :=
  exceeds (rest.map fun (x, y) => (x.min, y.max))

/-- Some assignment puts the left sequence above the right one. -/
def mayExceed (rest : List (Interval × Interval)) : Bool :=
  exceeds (rest.map fun (x, y) => (x.max, y.min))

/-- Both sides are fixed to the same value. -/
def tied (x y : Interval) : Bool := x.isFixed && y.isFixed && decide (x = y)

/-- The deciding position with `x + gap ≤ y` enforced. -/
def order (gap : Int) (x y : Interval) : Interval × Interval :=
  let x' := x.tightenMax (Width.value.clamp (y.max - gap))
  (x', y.tightenMin (Width.value.clamp (x'.min + gap)))

/-- The sizes of all intervals together, and the number of positions. -/
def weight : List (Interval × Interval) → Nat
  | [] => 0
  | (x, y) :: rest => x.size + y.size + 1 + weight rest

theorem order_size {gap : Int} {x y : Interval} (hne : order gap x y ≠ (x, y))
    (hx : (order gap x y).1.isEmpty = false) (hy : (order gap x y).2.isEmpty = false) :
    (order gap x y).1.size + (order gap x y).2.size < x.size + y.size := by
  have h₁ : (order gap x y).1.Shrinks x :=
    Interval.shrinks_of_isWithin (Interval.tightenMax_isWithin _ _) hx
  have h₂ : (order gap x y).2.Shrinks y :=
    Interval.shrinks_of_isWithin (Interval.tightenMin_isWithin _ _) hy
  rcases h₁ with h₁ | h₁ <;> rcases h₂ with h₂ | h₂
  · exact absurd (Prod.ext h₁ h₂) hne
  · rw [h₁]; omega
  · rw [h₂]; omega
  · omega

/-- Narrows the two sides, position by position. -/
def narrow : List (Interval × Interval) → Status × List (Interval × Interval)
  | [] => (.entailed, [])
  | (x, y) :: rest =>
    if tied x y then
      let (status, rest) := narrow rest
      (status, (x, y) :: rest)
    else
      let next := order (if mustExceed rest then 1 else 0) x y
      if next.1.isEmpty || next.2.isEmpty then (.inconsistent, next :: rest)
      else if !mayExceed (next :: rest) then (.entailed, next :: rest)
      else if next = (x, y) then (.consistent, next :: rest)
      else narrow (next :: rest)
termination_by pairs => weight pairs
decreasing_by
  · simp only [weight]; omega
  · rename_i hempty _ hne
    simp only [Bool.or_eq_true, not_or, Bool.not_eq_true] at hempty
    have := order_size hne hempty.1 hempty.2
    simp only [weight]
    omega

/-- Narrows the two halves; an odd variable at the end takes no part. -/
def propagate (bounds : List Interval) : Narrowing :=
  let n := bounds.length / 2
  let (status, pairs) := narrow ((bounds.take n).zip (bounds.drop n))
  ⟨status, pairs.map Prod.fst ++ pairs.map Prod.snd ++ bounds.drop (2 * n)⟩

end Lexicographic
end BoundsSolver
