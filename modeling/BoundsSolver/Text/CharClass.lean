/-
# Classes of characters

A class of characters is listed as ranges of code points.
-/

namespace BoundsSolver

/-- A class of characters: the first and the last code point of each of its ranges. -/
structure CharClass where
  ranges : List (Nat × Nat)

/-- The character is one of the class. -/
def CharClass.holds (k : CharClass) (c : Char) : Bool :=
  k.ranges.any fun (first, last) => decide (first ≤ c.toNat ∧ c.toNat ≤ last)

end BoundsSolver
