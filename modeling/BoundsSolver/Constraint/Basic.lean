/-
# The constraints that can be posted

A constraint is a kind of relation between variables; what it is posted with are
the variables and the parameters.  `Constraint.propagate` narrows the intervals
of the variables, and `Constraint.triggers` names the bounds whose change can
lead to further narrowing.
-/

import BoundsSolver.Constraint.Affine
import BoundsSolver.Constraint.AllDifferent
import BoundsSolver.Constraint.Conjunction
import BoundsSolver.Constraint.Element
import BoundsSolver.Constraint.Exactly
import BoundsSolver.Constraint.Lexicographic
import BoundsSolver.Constraint.Maximum

namespace BoundsSolver

/-- The kinds of constraints. -/
inductive Constraint where
  /-- `x₁, …, xₙ` are pairwise distinct. -/
  | allDifferent
  /-- `a₁ x₁ + … + aₙ xₙ = c`, with the parameters `a₁, …, aₙ, c`. -/
  | affineEq
  /-- `a₁ x₁ + … + aₙ xₙ ≤ c`, with the parameters `a₁, …, aₙ, c`. -/
  | affineLeq
  /-- The last of several truth values is the conjunction of the others. -/
  | andEq
  /-- The last variable is the element at the position that the last but one gives. -/
  | elementEq
  /-- Exactly `count` variables equal `value`, with the parameters `value, count`. -/
  | exactlyEq
  /-- The first half of the variables is lexicographically at most the second. -/
  | lexicographicLeq
  /-- The last variable is the greatest of the others. -/
  | maxEq
  deriving DecidableEq, Hashable, Repr, Inhabited

/-- The bounds of one variable whose change leads to another run. -/
structure Triggers where
  min : Bool
  max : Bool
  deriving DecidableEq, Repr, Inhabited

namespace Triggers

def both : Triggers := ⟨true, true⟩

def none : Triggers := ⟨false, false⟩

/-- Whether a change of the bound leads to another run. -/
def on (t : Triggers) : Bound → Bool
  | .min => t.min
  | .max => t.max

end Triggers

namespace Constraint

/-- The name by which messages refer to the constraint. -/
def name : Constraint → String
  | .allDifferent => "AllDifferent"
  | .affineEq => "AffineEq"
  | .affineLeq => "AffineLeq"
  | .andEq => "AndEq"
  | .elementEq => "ElementEq"
  | .exactlyEq => "ExactlyEq"
  | .lexicographicLeq => "LexicographicLeq"
  | .maxEq => "MaxEq"

/-- All kinds of constraints. -/
def all : List Constraint :=
  [.allDifferent, .affineEq, .affineLeq, .andEq, .elementEq, .exactlyEq, .lexicographicLeq, .maxEq]

/-- Runs the propagator of the constraint once. -/
def propagate (c : Constraint) (bounds : List Interval) (parameters : List Int) :
    Checked Narrowing :=
  match c with
  | .allDifferent => AllDifferent.propagate bounds
  | .affineEq => Affine.equal bounds parameters
  | .affineLeq => Affine.atMost bounds parameters
  | .andEq => .ok (Conjunction.propagate bounds)
  | .elementEq => Element.propagate bounds
  | .exactlyEq => Exactly.propagate bounds parameters
  | .lexicographicLeq => .ok (Lexicographic.propagate bounds)
  | .maxEq => .ok (Maximum.propagate bounds)

/-- The triggers of a variable in an equation: both bounds, if it occurs at all. -/
def equationTriggers (coefficient : Int) : Triggers :=
  if coefficient = 0 then .none else .both

/-- The triggers of a variable in an inequality: the bound that raises the least
value of its term. -/
def inequalityTriggers (coefficient : Int) : Triggers :=
  if coefficient = 0 then .none else if 0 < coefficient then ⟨true, false⟩ else ⟨false, true⟩

/-- The triggers of every variable; a linear constraint has one coefficient for each. -/
def triggers (c : Constraint) (arity : Nat) (parameters : List Int) : List Triggers :=
  match c with
  | .affineEq => (Affine.split parameters).1.map equationTriggers
  | .affineLeq => (Affine.split parameters).1.map inequalityTriggers
  | _ => List.replicate arity .both

end Constraint
end BoundsSolver
