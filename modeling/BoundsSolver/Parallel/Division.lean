/-
# Dividing a search among workers

The initial values of one variable are cut into ranges, and each worker searches
a copy of the problem that is restricted to its range.  The ranges are disjoint
and together hold every value, so that every solution is found by one worker.

All messages of the workers arrive in one queue.  `Tally.receive` takes them in
until the wanted number of solutions has arrived; from then on nobody listens.
Messages of one worker arrive in the order in which they were sent, those of
different workers in any order; `solve` takes the workers one after the other.
-/

import BoundsSolver.Parallel.Partition
import BoundsSolver.Parallel.Worker

namespace BoundsSolver

/-- Why a search cannot be divided, or has not come to an end. -/
inductive ParallelError where
  | noWorkers
  /-- The values of the variable cannot be divided. -/
  | undivided (cause : BuildError)
  | workerFailed (worker : Nat) (error : SearchError)
  deriving DecidableEq, Repr

/-- The text that reports why. -/
def ParallelError.message : ParallelError → String
  | .noWorkers => "at least one worker is needed"
  | .undivided cause => s!"the split variable cannot be partitioned: {cause.message}"
  | .workerFailed worker error => s!"worker {worker} failed: {error.message}"

/-- A problem that is divided among workers along the values of one variable. -/
structure Division where
  problem : Problem
  splitVariable : VariableId
  workers : Nat

/-- What all workers have come to. -/
structure Findings where
  /-- The solutions in the order in which they arrived. -/
  solutions : List (List Int)
  /-- How many solutions were counted as they arrived. -/
  count : Nat
  /-- The statistics of all workers together. -/
  statistics : Statistics
  workers : List Statistics
  deriving DecidableEq, Repr

/-- What has arrived from the workers. -/
structure Tally where
  solutions : Array (List Int)
  count : Nat
  workers : Array Statistics
  /-- The first worker that failed. -/
  failure : Option (Nat × SearchError)
  /-- Enough solutions have arrived. -/
  closed : Bool
  log : Log
  deriving DecidableEq, Repr

namespace Tally

/-- Nothing has arrived from so many workers. -/
def start (workers : Nat) (log : Log) : Tally :=
  ⟨#[], 0, Array.replicate workers .zero, none, false, log⟩

/-- Whether so many solutions are enough. -/
def reached (limit : Option Nat) (solutions : Nat) : Bool :=
  match limit with
  | none => false
  | some limit => decide (limit ≤ solutions)

/-- Takes a message in. -/
def receive (limit : Option Nat) (t : Tally) (m : Message) : Tally :=
  if t.closed then t
  else
    match m.report with
    | .solution values =>
      let t := { t with solutions := t.solutions.push values, count := t.count + 1 }
      if reached limit t.count then { t with closed := true, log := t.log.add .limitReached }
      else t
    | .finished statistics => { t with workers := t.workers.setIfInBounds m.worker statistics }
    | .failed error statistics =>
      { t with
        workers := t.workers.setIfInBounds m.worker statistics
        failure := t.failure.or (some (m.worker, error))
        log := t.log.add (.workerFailed m.worker error.message) }

/-- Takes messages in, in the order in which they arrive. -/
def receiveAll (limit : Option Nat) (t : Tally) (ms : List Message) : Tally :=
  ms.foldl (receive limit) t

/-- What has arrived, or the first failure. -/
def outcome (t : Tally) : Except ParallelError Findings :=
  match t.failure with
  | some (worker, error) => .error (.workerFailed worker error)
  | none =>
    .ok ⟨t.solutions.toList, t.count, t.workers.foldl Statistics.merge .zero, t.workers.toList⟩

end Tally

namespace Division

/-- Divides a problem among workers, of which there has to be one. -/
def of (p : Problem) (x : VariableId) (workers : Nat) : Except ParallelError Division :=
  if workers = 0 then .error .noWorkers
  else if x.index < p.numVariables then .ok ⟨p, x, workers⟩
  else .error (.undivided (.variableOutOfRange x.index p.numVariables))

/-- The range of each worker. -/
def ranges (d : Division) : Checked (List Interval) := do
  let v ← d.problem.network.views.get d.splitVariable
  (v.read d.problem.network.initial).partition d.workers

/-- The problem of each worker. -/
def parts (d : Division) (ranges : List Interval) : Except ParallelError (List Problem) :=
  (ranges.mapM fun r => d.problem.restrictInitial d.splitVariable r.min r.max).mapError
    (.undivided ·.cause)

/-- The messages of workers one after the other, and what their searches told. -/
def messages : Nat → List Transcript → List Message × List Event
  | _, [] => ([], [])
  | worker, t :: ts =>
    let (ms, told) := messages (worker + 1) ts
    (t.reports.map (Message.mk worker) ++ ms, t.log.events ++ told)

/-- Who starts on what. -/
def starts (ranges : List Interval) : List Event :=
  ranges.mapIdx Event.workerStarted

/-- How the workers of a division search. -/
structure Setup (σ : Type) where
  options : Options
  /-- The number of solutions wanted, if not all are. -/
  limit : Option Nat
  /-- The brancher of a worker and its state, for the problem of the worker. -/
  brancher : Problem → Brancher σ × σ
  /-- The log of the division itself. -/
  log : Log
  /-- The log of every worker. -/
  workerLog : Log

/-- Every worker follows the default strategy, and nothing is logged. -/
def Setup.default (options : Options) (limit : Option Nat) : Setup Unit :=
  ⟨options, limit, fun p => ((Strategy.default p.current).brancher, ()), .off, .off⟩

/-- The work of one worker. -/
def run {σ : Type} (setup : Setup σ) (p : Problem) : Transcript :=
  let (brancher, memory) := setup.brancher p
  ((Solver.ofProblem p setup.options setup.workerLog).withBrancher brancher memory).work setup.limit

/-- What the workers come to; a worker that stops with a fault stops everything, after
all messages have been taken in. -/
def combine (limit : Option Nat) (t : Tally) (transcripts : List Transcript) :
    Checked (Except ParallelError Findings) × Log :=
  let (ms, told) := messages 0 transcripts
  let t := { t with log := t.log.addAll told }.receiveAll limit ms
  if transcripts.all fun t => t.fault.isNone then (.ok t.outcome, t.log)
  else (.error .workerStopped, t.log)

/-- Searches a divided problem. -/
def solve {σ : Type} (d : Division) (setup : Setup σ) :
    Checked (Except ParallelError Findings) × Log :=
  match d.ranges with
  | .error f => (.error f, setup.log)
  | .ok [] => (.ok (.ok ⟨[], 0, .zero, []⟩), setup.log.add .noWorkers)
  | .ok ranges =>
    match d.parts ranges with
    | .error e => (.ok (.error e), setup.log)
    | .ok problems =>
      let log := setup.log.addAll (starts ranges)
      combine setup.limit (.start problems.length log) (problems.map (run setup))

end Division
end BoundsSolver
