/-
# Workers

A worker searches its own part of a problem with a solver of its own.  It sends
each solution as it finds it, and in the end either the statistics of the
finished search or why it could not go on.  It stops early once it has sent as
many solutions as are wanted of all workers together; whatever the limit, it
never stops before it has looked for one.  A fault ends it without a last word:
what it has sent by then counts, and nothing follows.
-/

import BoundsSolver.Search.Enumeration

namespace BoundsSolver

/-- What a worker sends. -/
inductive Report where
  | solution (values : List Int)
  /-- The worker has searched its part, or was to stop. -/
  | finished (statistics : Statistics)
  | failed (error : SearchError) (statistics : Statistics)
  deriving DecidableEq, Repr

/-- A report and its sender. -/
structure Message where
  worker : Nat
  report : Report
  deriving DecidableEq, Repr

/-- What a worker sends from its start to its end, the fault that ended it, if one did,
and what its search told meanwhile. -/
structure Transcript where
  reports : List Report
  fault : Option Fault
  log : Log
  deriving DecidableEq, Repr

namespace Solver

variable {σ : Type}

/-- The last report of a worker with its statistics, and the fault that takes its place. -/
def Ending.report (statistics : Statistics) : Ending → List Report × Option Fault
  | .complete => ([.finished statistics], none)
  | .failed e => ([.failed e statistics], none)
  | .stopped f => ([], some f)

/-- The reports on collected solutions, in the order in which they are sent. -/
def Collected.transcript (c : Collected σ) : Transcript :=
  let (last, fault) := c.ending.report c.solver.state.statistics
  ⟨c.solutions.map Report.solution ++ last, fault, c.solver.state.log⟩

/-- The work of a worker that nobody interrupts. -/
def work (s : Solver σ) (limit : Option Nat) : Transcript :=
  (s.collect (limit.map (max · 1))).transcript

end Solver
end BoundsSolver
