/-
# The best solution

After each solution the search goes on for a better one only.  It either starts
again with the objective confined to better values, or goes on below the choice
points it has, each narrowed in the same way.

Going on ends because every solution leaves less to search.  Starting again ends
if the objective is left with fewer values each time; at the end of the range of
values the bound cannot move any further, and the search finds one best solution
after the other until it runs out of choice points, if it ever does.
-/

import BoundsSolver.Loop
import BoundsSolver.Search.Enumeration

namespace BoundsSolver

/-- Which values of the objective are better. -/
inductive Direction where
  | minimise
  | maximise
  deriving DecidableEq, Repr, Inhabited

/-- How an optimisation goes on after a solution. -/
inductive OptimisationMode where
  /-- From the start. -/
  | reset
  /-- From where it is. -/
  | prune
  deriving DecidableEq, Repr, Inhabited

/-- The bound that confines the shared domain of the objective to better values; it
stops at the ends of the range of values. -/
def Direction.improve (dir : Direction) (v : View) (value : Int) : Branch :=
  match dir with
  | .minimise => ⟨v.domain, .max, Width.value.clamp (Width.value.clamp (value - 1) - v.offset)⟩
  | .maximise => ⟨v.domain, .min, Width.value.clamp (Width.value.clamp (value + 1) - v.offset)⟩

/-- What an optimisation comes to: the best solution, none, or the reason why there
may be a better one. -/
abbrev Optimum := Except SearchError (Option (List Int))

namespace Solver

variable {σ : Type}

/-- Notes the objective of a solution. -/
def tellObjective (s : Solver σ) (value : Int) : Solver σ :=
  { s with state := s.state.tell (.objective value) }

/-- Confines the choice points and the rest of the search to better solutions. -/
def prune (s : Solver σ) (b : Branch) : Solver σ :=
  { s with choicePoints := s.choicePoints.tightenAll b, objective := some b }

/-- Starts again with one bound of the objective tightened. -/
def restart (s : Solver σ) (b : Branch) : Solver σ :=
  let s := s.reset
  { s with state := { s.state with box := s.state.box.tighten b } }

/-- Narrowing the boxes of choice points leaves no more to search behind them. -/
theorem totalWeight_tighten_le (cs : List ChoicePoint) (b : Branch) :
    ChoicePoint.totalWeight (cs.map fun c => { c with box := c.box.tighten b }) ≤
      ChoicePoint.totalWeight cs := by
  induction cs with
  | nil => exact Nat.le_refl _
  | cons c cs ih =>
    have : Box.weight (Box.tighten (c.box.tighten b) c.alternative) ≤ c.otherBox.weight := by
      apply Box.weight_le
      rw [Box.tighten_comm]
      exact Box.totalSize_tighten_le _ _
    simp only [List.map_cons, ChoicePoint.totalWeight]
    exact Nat.add_le_add this ih

/-- Confining the search to better solutions leaves no more to search. -/
theorem prune_weight_le (s : Solver σ) (b : Branch) : (s.prune b).weight ≤ s.weight := by
  have hpending : (s.prune b).pending ≤ s.pending := by
    simp only [pending, prune, ChoicePoints.live_tightenAll]
    exact totalWeight_tighten_le _ b
  exact Nat.add_le_add_right hpending _

/-- Searches on for better solutions than the best so far. -/
def pruneOn (dir : Direction) (x : VariableId) (v : View) (best : Option (List Int))
    (s : Solver σ) : Checked (Optimum × Solver σ) :=
  match _e : s.solveOne with
  | .error f => .error f
  | .ok (.exhausted, t) => .ok (.ok best, { t with objective := none })
  | .ok (.overflow capacity, t) => .ok (.error (.choicePointOverflow capacity), t)
  | .ok (.solution values, t) =>
    let value := values.getD x.index 0
    pruneOn dir x v (some values) ((t.tellObjective value).prune (dir.improve v value))
termination_by s.weight
decreasing_by
  have hlt := solveOne_solution_weight _e
  exact Nat.lt_of_le_of_lt (prune_weight_le (t.tellObjective value) _) hlt

/-- A turn of an optimisation that starts again: a search for a solution, and the start of the
search for a better one. -/
def restartTurn (dir : Direction) (x : VariableId) (v : View) (a : Option (List Int) × Solver σ) :
    Checked (Turn (Option (List Int) × Solver σ) (Optimum × Solver σ)) := do
  match ← a.2.solveOne with
  | (.exhausted, t) => return .done (.ok a.1, { t with objective := none })
  | (.overflow capacity, t) => return .done (.error (.choicePointOverflow capacity), t)
  | (.solution values, t) =>
    let value := values.getD x.index 0
    return .again (some values, (t.tellObjective value).restart (dir.improve v value))

/-- Starts again for better solutions than the best so far. -/
def restartOn (dir : Direction) (x : VariableId) (v : View) (best : Option (List Int))
    (s : Solver σ) : Checked (Optimum × Solver σ) :=
  Turn.iterate (restartTurn dir x v) (best, s)

/-- The best solution for a variable, from the start. -/
def optimise (s : Solver σ) (x : VariableId) (mode : OptimisationMode) (dir : Direction) :
    Checked (Optimum × Solver σ) := do
  let s := s.reset
  let v ← s.network.views.get x
  match mode with
  | .prune => pruneOn dir x v none s
  | .reset => restartOn dir x v none s

/-- A solution with the least value of a variable. -/
def minimize (s : Solver σ) (x : VariableId) (mode : OptimisationMode) :
    Checked (Optimum × Solver σ) :=
  s.optimise x mode .minimise

/-- A solution with the greatest value of a variable. -/
def maximize (s : Solver σ) (x : VariableId) (mode : OptimisationMode) :
    Checked (Optimum × Solver σ) :=
  s.optimise x mode .maximise

end Solver
end BoundsSolver
