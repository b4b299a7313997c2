/-
# What a run of a propagator answers

A propagator narrows the intervals of its own variables and says how the
constraint stands on what is left.
-/

import BoundsSolver.Width

namespace BoundsSolver

/-- How a constraint stands on the intervals of its variables. -/
inductive Status where
  /-- No assignment within the intervals satisfies the constraint. -/
  | inconsistent
  /-- Nothing is known beyond the narrowed intervals. -/
  | consistent
  /-- Every assignment within the narrowed intervals satisfies the constraint. -/
  | entailed
  deriving DecidableEq, Repr, Inhabited

/-- The intervals that a run of a propagator leaves, and its verdict on them.  An
inconsistent run leaves them where it noticed. -/
structure Narrowing where
  status : Status
  bounds : List Interval
  deriving DecidableEq, Repr

/-- Every interval holds exactly one value. -/
def allFixed (is : List Interval) : Bool := is.all Interval.isFixed

end BoundsSolver
