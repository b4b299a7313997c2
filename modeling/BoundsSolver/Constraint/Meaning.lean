/-
# What the constraints say

`Constraint.Holds` is the relation that a constraint stands for, on values in
place of intervals and without a word about propagation.  `Mem` says that values
lie within intervals.
-/

import BoundsSolver.Constraint.Basic

namespace BoundsSolver

/-- The first list is lexicographically at most the second; a list is at most its
own extensions. -/
def LexLe : List Int → List Int → Prop
  | [], _ => True
  | _ :: _, [] => False
  | x :: xs, y :: ys => x < y ∨ x = y ∧ LexLe xs ys

instance decidableLexLe : (xs ys : List Int) → Decidable (LexLe xs ys)
  | [], _ => inferInstanceAs (Decidable True)
  | _ :: _, [] => inferInstanceAs (Decidable False)
  | x :: xs, y :: ys =>
    have := decidableLexLe xs ys
    inferInstanceAs (Decidable (x < y ∨ x = y ∧ LexLe xs ys))

/-- The sum of the products of coefficients and values at the same positions. -/
def dot : List Int → List Int → Int
  | a :: as, x :: xs => a * x + dot as xs
  | _, _ => 0

namespace Constraint

/-- The values satisfy the constraint with the given parameters. -/
def Holds (c : Constraint) (values parameters : List Int) : Prop :=
  match c with
  | .allDifferent => values.Nodup
  | .affineEq => dot parameters.dropLast values = parameters.getLastD 0
  | .affineLeq => dot parameters.dropLast values ≤ parameters.getLastD 0
  | .andEq => ∀ r ∈ values.getLast?, r = 1 ↔ ∀ v ∈ values.dropLast, v = 1
  | .elementEq =>
    match values.reverse with
    | v :: i :: elements => 0 ≤ i ∧ elements.reverse[i.toNat]? = some v
    | _ => True
  | .exactlyEq =>
    match parameters with
    | [value, count] => (values.count value : Int) = count
    | _ => False
  | .lexicographicLeq =>
    let n := values.length / 2
    LexLe (values.take n) (values.drop n)
  | .maxEq => ∀ m ∈ values.getLast?, values.dropLast.max? = some m

instance (values parameters : List Int) : (c : Constraint) → Decidable (c.Holds values parameters)
  | .allDifferent => inferInstanceAs (Decidable values.Nodup)
  | .affineEq => inferInstanceAs (Decidable (dot _ _ = _))
  | .affineLeq => inferInstanceAs (Decidable (dot _ _ ≤ _))
  | .andEq => inferInstanceAs (Decidable (∀ r ∈ values.getLast?, r = 1 ↔ ∀ v ∈ values.dropLast, v = 1))
  | .elementEq => by
    unfold Holds
    dsimp only
    split
    · infer_instance
    · infer_instance
  | .exactlyEq => by
    unfold Holds
    dsimp only
    split
    · infer_instance
    · infer_instance
  | .lexicographicLeq => inferInstanceAs (Decidable (LexLe _ _))
  | .maxEq => inferInstanceAs (Decidable (∀ m ∈ values.getLast?, values.dropLast.max? = some m))

end Constraint

/-- Every value lies within the interval at its position. -/
inductive Mem : List Int → List Interval → Prop
  | nil : Mem [] []
  | cons {v : Int} {i : Interval} {vs : List Int} {is : List Interval} :
    i.min ≤ v → v ≤ i.max → Mem vs is → Mem (v :: vs) (i :: is)

end BoundsSolver
