/-
# Decisions

A decision narrows one shared domain from one side.  The search explores the
branch in which the decision holds and, after backtracking, the branch in which
it does not; it accepts a decision only if both branches keep a value, which is
`Decision.splits`.
-/

import BoundsSolver.Keyed

namespace BoundsSolver

/-- Commits a shared domain to one side of a value. -/
inductive Decision where
  /-- The domain is at most `value`. -/
  | atMost (domain : DomainId) (value : Int)
  /-- The domain is at least `value`. -/
  | atLeast (domain : DomainId) (value : Int)
  deriving DecidableEq, Repr, Inhabited

/-- A bound of a shared domain and the value it is to be tightened to. -/
structure Branch where
  domain : DomainId
  bound : Bound
  value : Int
  deriving DecidableEq, Repr, Inhabited

namespace Decision

/-- The shared domain that is decided on. -/
def domain : Decision → DomainId
  | .atMost d _ => d
  | .atLeast d _ => d

/-- The branch in which the decision holds. -/
def commitment : Decision → Branch
  | .atMost d v => ⟨d, .max, v⟩
  | .atLeast d v => ⟨d, .min, v⟩

/-- Whether both sides of the decision keep a value of the interval. -/
def splits : Decision → Interval → Bool
  | .atMost _ v, i => decide (i.min ≤ v ∧ v < i.max)
  | .atLeast _ v, i => decide (i.min < v ∧ v ≤ i.max)

/-- The comparison between brackets. -/
def display : Decision → String
  | .atMost d v => s!"[{d.display} <= {v}]"
  | .atLeast d v => s!"[{d.display} >= {v}]"

instance : ToString Decision := ⟨display⟩

end Decision

end BoundsSolver
