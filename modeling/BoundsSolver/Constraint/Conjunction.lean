/-
# A result that is the conjunction of others

Truth values are 0 and 1.  The last variable is the result: it is 1 exactly if
all variables before it are.  A single run settles everything there is to know.
-/

import BoundsSolver.Constraint.Status

namespace BoundsSolver
namespace Conjunction

/-- A conjunct that cannot be true. -/
def isFalse (i : Interval) : Bool := decide (i.max ≤ 0)

/-- A conjunct that cannot be false. -/
def isTrue (i : Interval) : Bool := decide (1 ≤ i.min)

/-- A conjunct that can still be false. -/
def canBeFalse (i : Interval) : Bool := decide (i.min ≤ 0)

/-- Makes the first conjunct false that can be. -/
def falsifyFirst : List Interval → List Interval
  | [] => []
  | i :: is => if canBeFalse i then i.tightenMax 0 :: is else i :: falsifyFirst is

/-- What the conjuncts say about their result. -/
def narrowResult (conjuncts : List Interval) (result : Interval) : Interval :=
  if conjuncts.any isFalse then result.tightenMax 0
  else if conjuncts.all isTrue then result.tightenMin 1
  else result

/-- What the result says about its conjuncts. -/
def narrowConjuncts (conjuncts : List Interval) (result : Interval) : Status × List Interval :=
  if 1 ≤ result.min then (.entailed, conjuncts.map (·.tightenMin 1))
  else if result.max ≤ 0 then
    if conjuncts.any isFalse then (.entailed, conjuncts)
    else
      match conjuncts.countP canBeFalse with
      | 0 => (.inconsistent, conjuncts)
      | 1 => (.entailed, falsifyFirst conjuncts)
      | _ => (.consistent, conjuncts)
  else (.consistent, conjuncts)

/-- Narrows the conjuncts and their result, which comes last. -/
def propagate (bounds : List Interval) : Narrowing :=
  match bounds.getLast? with
  | none => ⟨.entailed, bounds⟩
  | some result =>
    let conjuncts := bounds.dropLast
    let result := narrowResult conjuncts result
    if result.isEmpty then ⟨.inconsistent, conjuncts ++ [result]⟩
    else
      let (status, conjuncts) := narrowConjuncts conjuncts result
      ⟨status, conjuncts ++ [result]⟩

end Conjunction
end BoundsSolver
