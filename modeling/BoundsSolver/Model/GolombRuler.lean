/-
# Golomb rulers

The marks of a Golomb ruler stand at integer positions from zero on, and no two
pairs of marks have the same distance.  The model has a variable for the distance
of each pair `i < j`, tied together by `d(i, j) = d(0, j) - d(0, i)`; the marks
themselves are their distances to the first one, and the length of the ruler is
the distance of the last one.

Two more constraints only speed up the search.  Of a ruler and its reflection
the model keeps the one whose first segment is shorter than its last.  And the
segments outside a distance are all different, so that `m` of them are at least
`1 + ⋯ + m` long.
-/

import BoundsSolver.Model.Basic

namespace BoundsSolver

/-- The model of a ruler with so many marks. -/
structure GolombRuler where
  marks : Nat
  problem : Problem

namespace GolombRuler

/-- The least length of so many different segments. -/
def leastLength (segments : Nat) : Nat := segments * (segments + 1) / 2

/-- The variable of the distance between marks `i < j` out of `n`: before it come the
distances from earlier marks. -/
def distanceId (n i j : Nat) : VariableId := ⟨i * (2 * n - i - 1) / 2 + (j - i - 1)⟩

/-- The variable of the last mark out of `n`. -/
def lengthId (n : Nat) : VariableId := distanceId n 0 (n - 1)

/-- The values that the distances may take. -/
def intervals (n : Nat) : List Interval :=
  (pairs n).map fun (i, j) => ⟨leastLength (j - i), n * n⟩

/-- Distances are differences of marks. -/
def differences (n : Nat) : List Posting :=
  ((pairs n).filter fun (i, _) => i ≠ 0).map fun (i, j) =>
    ⟨.affineEq, [distanceId n i j, distanceId n 0 i, distanceId n 0 j], [1, 1, -1, 0]⟩

/-- All distances are different. -/
def distinct (n : Nat) : Posting :=
  ⟨.allDifferent, (pairs n).map fun (i, j) => distanceId n i j, []⟩

/-- The first segment is shorter than the last. -/
def orientation (n : Nat) : List Posting :=
  if 3 ≤ n then
    [⟨.affineLeq, [distanceId n 0 1, distanceId n (n - 2) (n - 1)], [1, -1, -1]⟩]
  else []

/-- A distance leaves room for the segments outside it. -/
def rooms (n : Nat) : List Posting :=
  ((pairs n).filter fun (i, j) => j - i ≠ n - 1).map fun (i, j) =>
    ⟨.affineLeq, [distanceId n i j, lengthId n], [1, -1, -leastLength (n - 1 - (j - i))]⟩

def postings (n : Nat) : List Posting :=
  differences n ++ [distinct n] ++ orientation n ++ rooms n

/-- The model for a number of marks. -/
def ofMarks (n : Nat) : Except ModelError GolombRuler := do
  if n < 2 then .error (.invalidInstance .golombRuler .tooFewMarks)
  let marks ← ModelKind.golombRuler.parameter n
  if ¬ Width.value.Fits (marks * marks) then
    .error (.invalidInstance .golombRuler .tooManyMarks)
  let p ← ((Problem.ofIntervals (intervals n)).post (postings n)).mapError (.build ·.cause)
  return ⟨n, p⟩

/-- The variable of the distance between two marks, the earlier one first. -/
def distance (m : GolombRuler) (i j : Nat) : Checked VariableId :=
  if i < j ∧ j < m.marks then .ok (distanceId m.marks i j) else .error (.noDistance i j)

/-- The variable of the position of the last mark. -/
def length (m : GolombRuler) : VariableId := lengthId m.marks

/-- The positions of the marks in a solution. -/
def positions (m : GolombRuler) (values : List Int) : Checked (List Int) := do
  let rest ← (List.range' 1 (m.marks - 1)).mapM fun j => (distanceId m.marks 0 j).valueIn values
  return 0 :: rest

end GolombRuler
end BoundsSolver
