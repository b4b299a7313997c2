/-
# Solutions one after the other

`solveOne` moves until the search comes to an answer; called again it goes on to
the next one.  Whatever the brancher does, `solveOne` comes to an answer or to a
fault, and every solution it hands out leaves less to search
(`solveOne_solution_weight`), so that collecting all solutions ends as well.
-/

import BoundsSolver.Search.Solver

namespace BoundsSolver
namespace Solver

variable {σ : Type}

/-- Searches on until there is an answer. -/
def solveOne (s : Solver σ) : Checked (Answer × Solver σ) :=
  match _e : s.step with
  | .error f => .error f
  | .ok (t, some a) => .ok (a, t)
  | .ok (t, none) => t.solveOne
termination_by 2 * s.weight + s.rank
decreasing_by
  -- Leaving a node may keep the weight; the rank says that no second such move follows.
  have hrank := t.rank_le_one
  rcases step_progress _e with h | ⟨h, hr⟩ <;> omega

/-- **A solution leaves less to search.** -/
theorem solveOne_solution_weight {s t : Solver σ} {values : List Int}
    (h : s.solveOne = .ok (.solution values, t)) : t.weight < s.weight := by
  fun_induction solveOne s with
  | case1 => cases h
  | case2 s u a e =>
    obtain ⟨rfl, rfl⟩ := by simpa using h
    exact step_solution_weight e
  | case3 s u e ih =>
    have := ih h
    rcases step_progress e with h' | ⟨h', _⟩ <;> omega

/-- How collecting solutions came to an end. -/
inductive Ending where
  /-- Nothing is left, or as many have been found as are wanted. -/
  | complete
  /-- There may be more. -/
  | failed (error : SearchError)
  /-- The search for the next one stopped with a fault. -/
  | stopped (fault : Fault)
  deriving DecidableEq, Repr

/-- Further solutions, why they end, and the solver after the last search that came to
an answer. -/
structure Collected (σ : Type) where
  solutions : List (List Int)
  ending : Ending
  solver : Solver σ

/-- The solutions, if they are all that were to be found. -/
def Collected.outcome (c : Collected σ) : Checked (Except SearchError (List (List Int))) :=
  match c.ending with
  | .complete => .ok (.ok c.solutions)
  | .failed e => .ok (.error e)
  | .stopped f => .error f

/-- Searches on until nothing is left, or until as many more solutions as wanted have
been found; `found` holds those before, the latest first. -/
def collectOnto (found : List (List Int)) (wanted : Option Nat) (s : Solver σ) : Collected σ :=
  if wanted = some 0 then ⟨found.reverse, .complete, s⟩
  else
    match _e : s.solveOne with
    | .error f => ⟨found.reverse, .stopped f, s⟩
    | .ok (.exhausted, t) => ⟨found.reverse, .complete, t⟩
    | .ok (.overflow capacity, t) => ⟨found.reverse, .failed (.choicePointOverflow capacity), t⟩
    | .ok (.solution values, t) => t.collectOnto (values :: found) (wanted.map (· - 1))
termination_by s.weight
decreasing_by exact solveOne_solution_weight _e

/-- Collects all further solutions, or as many as wanted. -/
def collect (s : Solver σ) (wanted : Option Nat) : Collected σ := s.collectOnto [] wanted

/-- What was found before stands in front of what is still found. -/
theorem collectOnto_eq (found : List (List Int)) (wanted : Option Nat) (s : Solver σ) :
    s.collectOnto found wanted =
      { s.collect wanted with solutions := found.reverse ++ (s.collect wanted).solutions } := by
  rw [collect, collectOnto, collectOnto]
  split
  · simp
  · split
    · simp
    · simp
    · simp
    · rename_i values t e
      have hlt := solveOne_solution_weight e
      rw [collectOnto_eq (values :: found), collectOnto_eq [values]]
      simp
termination_by s.weight
decreasing_by all_goals exact hlt

/-- Counts the further solutions on top of those found before, and hands each of them to
`onSolution` together with what that made of the one before. -/
def countFrom {τ : Type} (onSolution : τ → List Int → τ) (seen : τ) (found : Nat) (s : Solver σ) :
    Checked (Except SearchError Nat × τ × Solver σ) :=
  match _e : s.solveOne with
  | .error f => .error f
  | .ok (.exhausted, t) => .ok (.ok found, seen, t)
  | .ok (.overflow capacity, t) => .ok (.error (.choicePointOverflow capacity), seen, t)
  | .ok (.solution values, t) => t.countFrom onSolution (onSolution seen values) (found + 1)
termination_by s.weight
decreasing_by exact solveOne_solution_weight _e

/-- The first solution from the start. -/
def findOne (s : Solver σ) : Checked (Except SearchError (Option (List Int)) × Solver σ) := do
  let (a, s) ← s.reset.solveOne
  return (a.next, s)

/-- All solutions from the start. -/
def findAll (s : Solver σ) : Checked (Except SearchError (List (List Int)) × Solver σ) := do
  let c := s.reset.collect none
  return (← c.outcome, c.solver)

/-- The number of further solutions, each of which is handed to `onSolution`. -/
def solveAllWith {τ : Type} (s : Solver σ) (onSolution : τ → List Int → τ) (seen : τ) :
    Checked (Except SearchError Nat × τ × Solver σ) :=
  s.countFrom onSolution seen 0

/-- The number of further solutions. -/
def solveAll (s : Solver σ) : Checked (Except SearchError Nat × Solver σ) := do
  let (count, _, s) ← s.solveAllWith (fun _ _ => ()) ()
  return (count, s)

end Solver

/-- The solutions of a solver, one at a time; once there is no next one it stays so. -/
structure Solutions (σ : Type) where
  solver : Solver σ
  finished : Bool

/-- What asking for the next solution brings. -/
inductive Solutions.Item where
  | solution (values : List Int)
  | failed (error : SearchError)
  | ended
  deriving DecidableEq, Repr

namespace Solutions

variable {σ : Type}

def of (s : Solver σ) : Solutions σ := ⟨s, false⟩

/-- The next solution, and what remains. -/
def next (it : Solutions σ) : Checked (Item × Solutions σ) :=
  if it.finished then .ok (.ended, it)
  else do
    match ← it.solver.solveOne with
    | (.solution values, s) => return (.solution values, ⟨s, false⟩)
    | (.exhausted, s) => return (.ended, ⟨s, true⟩)
    | (.overflow capacity, s) => return (.failed (.choicePointOverflow capacity), ⟨s, true⟩)

end Solutions
end BoundsSolver
