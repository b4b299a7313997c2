/-
# A run of the command line

A run prints lines and ends with an exit code: 0 after a search, 1 if the model
or the search fails, 2 if the arguments make no sense, 101 after a fault.  Lines
of the log, of solutions and of statistics appear in the order in which they
arise, the log marked by a percent sign.
-/

import BoundsSolver.CommandLine.Arguments
import BoundsSolver.Model.GolombRuler
import BoundsSolver.Model.Queens
import BoundsSolver.Parallel.Division
import BoundsSolver.Report.StatisticLines

namespace BoundsSolver

/-- Why a run fails. -/
inductive RunError where
  | model (error : ModelError)
  | search (error : SearchError)
  | parallel (error : ParallelError)
  deriving DecidableEq, Repr

/-- The text that reports why. -/
def RunError.message : RunError → String
  | .model e => s!"The model could not be built, more details: {e.message}"
  | .search e => s!"The search failed, more details: {e.message}"
  | .parallel e => s!"The parallel search failed, more details: {e.message}"

/-- Why a run ends early. -/
inductive Stop where
  | error (error : RunError)
  | fault (fault : Fault)
  deriving DecidableEq, Repr

/-- A part of a run: it prints lines and may end the run. -/
abbrev Printing := ExceptT Stop (StateM (Array String))

/-- What a run prints and its exit code. -/
structure Output where
  lines : List String
  exitCode : Nat
  deriving DecidableEq, Repr

namespace Printing

def line (text : String) : Printing Unit := modify (·.push text)

def lines (texts : List String) : Printing Unit := modify (· ++ texts.toArray)

/-- A line of the log. -/
def note (text : String) : Printing Unit := line s!"% {text}"

/-- What a log holds. -/
def log (l : Log) : Printing Unit := lines (l.events.map fun e => s!"% {e.text}")

/-- A computation whose fault ends the run. -/
def checked {α : Type} : Checked α → Printing α
  | .ok a => pure a
  | .error f => throw (.fault f)

/-- A computation whose error ends the run. -/
def orError {α ε : Type} (cause : ε → RunError) : Except ε α → Printing α
  | .ok a => pure a
  | .error e => throw (.error (cause e))

end Printing

/-- The search with an empty log. -/
def Solver.forgetLog {σ : Type} (s : Solver σ) : Solver σ :=
  { s with state := { s.state with log := s.state.log.cleared } }

theorem Solver.weight_forgetLog {σ : Type} (s : Solver σ) : s.forgetLog.weight = s.weight := rfl

namespace Arguments

/-- The events that the log shows. -/
def threshold (a : Arguments) : Log := .upTo (if a.has .verbose then .debug else .warn)

/-- Statistics, if they are asked for. -/
def statisticLines (a : Arguments) : StatisticLines :=
  if a.has .logStatistics then StatisticLines.start.settle ⟨"%% stat:", some "%% stat-end", some .snake⟩
  else .start

/-- A block of statistics. -/
def printStatistics (a : Arguments) (entries : List (String × Int)) : Printing Unit :=
  .lines ((a.statisticLines.writeAll entries).close).lines

/-- A solution, unless only their number is asked for. -/
def printSolution (a : Arguments) (draw : List Int → Checked (List String)) (values : List Int) :
    Printing Unit := do
  if !a.has .countOnly then
    .lines (← .checked (draw values))
    .line "----------"

/-- Prints solutions as they are found, up to a limit, and then the statistics.  The
answer is the number of solutions after `found`. -/
def search {σ : Type} (a : Arguments) (draw : List Int → Checked (List String))
    (limit : Option Nat) (found : Nat) (s : Solver σ) : Printing Nat := do
  if limit = some found then
    a.printStatistics (s.entries .top)
    return found
  match _e : s.solveOne with
  | .error f => throw (.fault f)
  | .ok (.overflow capacity, t) =>
    .log t.state.log
    throw (.error (.search (.choicePointOverflow capacity)))
  | .ok (.exhausted, t) =>
    .log t.state.log
    a.printStatistics (t.entries .top)
    return found
  | .ok (.solution values, t) =>
    .log t.state.log
    a.printSolution draw values
    a.search draw limit (found + 1) t.forgetLog
termination_by s.weight
decreasing_by
  rw [Solver.weight_forgetLog]
  exact Solver.solveOne_solution_weight _e

/-- The statistics of a parallel search: each worker under its number, then all together. -/
def findingsEntries (f : Findings) : List (String × Int) :=
  (f.workers.mapIdx fun worker statistics =>
    (Scope.of ["worker", toString worker]).entries statistics.entries).flatten ++
  Scope.top.entries f.statistics.entries

/-- Searches with several workers and prints what they found together. -/
def searchParallel (a : Arguments) (p : Problem) (x : VariableId)
    (draw : List Int → Checked (List String)) : Printing Nat := do
  let d ← .orError .parallel (Division.of p x a.workers)
  let setup := { Division.Setup.default a.options a.limit with log := a.threshold, workerLog := a.threshold }
  let (result, log) := d.solve setup
  .log log
  let f ← .orError .parallel (← .checked result)
  f.solutions.forM (a.printSolution draw)
  a.printStatistics (findingsEntries f)
  return f.solutions.length

/-- Searches for one solution, or for all, with one worker or, along the values of a
variable, with several. -/
def satisfy (a : Arguments) (p : Problem) (splitVariable : Option VariableId)
    (draw : List Int → Checked (List String)) : Printing Unit := do
  let sequential : Printing Nat := do
    let s := Solver.ofProblem p a.options a.threshold
    .log s.state.log
    a.search draw a.limit 0 s.forgetLog
  let found ← match splitVariable with
    | some x => if 1 < a.workers then a.searchParallel p x draw else sequential
    | none => sequential
  if found = 0 then .line "=====UNSATISFIABLE====="
  else if a.has .allSolutions then .line s!"solutions={found}"

/-- Searches for a shortest ruler. -/
def shortest (a : Arguments) (marks : Nat) : Printing Unit := do
  if 1 < a.workers then .note "Optimisation runs on a single worker, ignoring --workers"
  let m ← .orError .model (GolombRuler.ofMarks marks)
  let s := Solver.ofProblem m.problem a.options a.threshold
  let (best, s) ← .checked (s.minimize m.length a.optimisationMode)
  .log s.state.log
  match ← .orError .search best with
  | none => .line "=====UNSATISFIABLE====="
  | some values =>
    let length ← .checked (m.length.valueIn values)
    let positions ← .checked (m.positions values)
    .line s!"length={length}"
    .line ("marks=[" ++ ", ".intercalate (positions.map toString) ++ "]")
  a.printStatistics (s.entries .top)

/-- Runs the command. -/
def run (a : Arguments) : Printing Unit := do
  if a.has .verbose then .note "Logging successfully configured"
  match a.command with
  | .queens size =>
    let m ← .orError .model (Queens.ofSize size)
    a.satisfy m.problem m.queens.head? fun values => return Queens.board (← m.columns values)
  | .golomb marks => a.shortest marks
  | .bibd parameters =>
    let m ← .orError .model parameters.model
    let corner ← .checked (m.incidence 0 0)
    a.satisfy m.problem (some corner) fun values =>
      return (← m.matrix values).map fun row => " ".intercalate (row.map toString)

end Arguments

/-- What a run prints, and how it ends. -/
def Output.ofPrinting (p : Printing Unit) : Output :=
  match p.run.run #[] with
  | (.ok (), lines) => ⟨lines.toList, 0⟩
  | (.error (.error e), lines) =>
    ⟨lines.toList ++ [s!"% Execution failed, error: {e.message}"], 1⟩
  | (.error (.fault _), lines) => ⟨lines.toList, 101⟩

/-- The output for the words of a command line. -/
def Output.ofWords (words : List String) : Output :=
  match Arguments.parse words with
  | .run a => .ofPrinting a.run
  | .version => ⟨["gourd-solver 0.1.0"], 0⟩
  | .misuse => ⟨[], 2⟩

end BoundsSolver
