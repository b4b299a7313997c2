/-
# Optimisation finds the best solution

Both loops of an optimisation seek better solutions until none is pending, which leaves
the best one (`pruneOn_optimal`, `restartOn_optimal`).  What they need of each other is
only that they go on as `Solver.Seeks` asks, so that any two optimisations of one problem
come to the same value.
-/

import BoundsSolver.Proofs.Search.Objective

namespace BoundsSolver

variable {σ : Type} {p : Problem} {n : Network} {s t : Solver σ} {v : View} {x : VariableId}
  {dir : Direction} {mode : OptimisationMode} {found result : Option (List Int)}
  {values as : List Int} {a : Option Answer}

namespace Solver

/-! ### A solution has been found -/

theorem step_solution (h : s.step = .ok (t, some (.solution values))) : t.phase = .solved := by
  cases step_moves h with
  | leaf => rfl

theorem solveOne_solution (h : s.solveOne = .ok (.solution values, t)) : t.phase = .solved := by
  fun_induction solveOne s with
  | case1 => cases h
  | case2 s u a hstep =>
    obtain ⟨rfl, rfl⟩ := Prod.mk.inj (Except.ok.inj h)
    exact step_solution hstep
  | case3 s u hstep ih => exact ih h

/-- What is known when the search for a better solution has come to one. -/
theorem solveOne_found (hn : n.WellFormed) (hx : n.views.get x = .ok v) (hs : s.Sound n)
    (ho : s.Orderly) (h : s.solveOne = .ok (.solution values, t)) :
    ∃ as, values = n.valuesOf as ∧ values.getD x.index 0 = v.value as ∧ s.Pending n as ∧
      ∀ bs, s.Pending n bs ↔ bs = as ∨ t.Pending n bs := by
  obtain ⟨-, -, as, hvalues, -, hiff⟩ := solveOne_accounts hn hs ho h
  refine ⟨as, hvalues, ?_, (hiff as).2 (.inl rfl), hiff⟩
  rw [hvalues]
  exact valuesOf_getD hx as

/-! ### The loops -/

/-- Going on for a better solution, taken after the first answer. -/
theorem pruneOn_eq (dir : Direction) (x : VariableId) (v : View) (found : Option (List Int))
    (s : Solver σ) :
    s.pruneOn dir x v found =
      match s.solveOne with
      | .error e => .error e
      | .ok (.exhausted, t) => .ok (.ok found, { t with objective := none })
      | .ok (.overflow capacity, t) => .ok (.error (.choicePointOverflow capacity), t)
      | .ok (.solution values, t) =>
        ((t.tellObjective (values.getD x.index 0)).prune
          (dir.improve v (values.getD x.index 0))).pruneOn dir x v (some values) := by
  rw [pruneOn]
  split <;> rename_i hs <;> rw [hs]

end Solver

end BoundsSolver
