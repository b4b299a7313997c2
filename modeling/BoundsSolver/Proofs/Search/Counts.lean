/-
# What a search counts

Filtering a node counts its propagation and its trials; decisions, backtracks, the depth
and the solutions are counted by the search (`filter_ofSearch`).  So the number of
solutions grows with each solution that is handed out and never otherwise
(`collectOnto_solutions`).
-/

import BoundsSolver.Proofs.Propagation.Counters
import BoundsSolver.Proofs.Search.Handing

namespace BoundsSolver

/-- The counters without those of filtering. -/
def Statistics.ofSearch (c : Statistics) : Statistics :=
  { c.withoutRuns with filters := 0, inconsistencies := 0, shavingTrials := 0, shavedValues := 0 }

variable {σ : Type} {n : Network} {s t : State} {d : DomainId} {x : Bound} {br : Branch}
  {shaved kept : Bool} {o : Outcome} {ends : List (DomainId × Bound)} {c : Consistency}

/-! ### Filtering -/

theorem propagate_ofSearch (h : propagate n s = .ok (kept, t)) :
    t.statistics.ofSearch = s.statistics.ofSearch := by
  have := congrArg Statistics.ofSearch (propagate_statistics h)
  exact this

theorem trial_ofSearch (h : trial n s br = .ok (kept, t)) :
    t.statistics.ofSearch = s.statistics.ofSearch := by
  obtain ⟨⟨k, u⟩, hu, h⟩ := bind_eq_ok.1 h
  obtain ⟨rfl, rfl⟩ := Prod.mk.inj (Except.ok.inj h)
  have := propagate_ofSearch hu
  exact this

theorem shaveValue_ofSearch {v : Int} (h : shaveValue n s d x v = .ok (kept, t)) :
    t.statistics.ofSearch = s.statistics.ofSearch := by
  obtain ⟨next, -, h⟩ := bind_eq_ok.1 h
  have := propagate_ofSearch h
  exact this

theorem shaveBound_ofSearch (h : shaveBound n s d x shaved = .ok o) :
    o.state.statistics.ofSearch = s.statistics.ofSearch := by
  fun_induction shaveBound n s d x shaved with
  | case1 =>
    obtain rfl := Except.ok.inj h
    rfl
  | case2 => cases h
  | case3 s shaved i hi value counted t ht =>
    obtain rfl := Except.ok.inj h
    have := trial_ofSearch ht
    exact this
  | case4 => cases h
  | case5 s shaved i hi value counted t ht u hu =>
    obtain rfl := Except.ok.inj h
    have := (shaveValue_ofSearch hu).trans (trial_ofSearch ht)
    exact this
  | case6 s shaved i hi value counted t ht u hu ih =>
    have := (shaveValue_ofSearch hu).trans (trial_ofSearch ht)
    exact (ih h).trans this

theorem shavePass_ofSearch (h : shavePass n ends s shaved = .ok o) :
    o.state.statistics.ofSearch = s.statistics.ofSearch := by
  induction ends generalizing s shaved with
  | nil =>
    obtain rfl := Except.ok.inj h
    rfl
  | cons e ends ih =>
    obtain ⟨o', ho', h⟩ := bind_eq_ok.1 h
    split at h
    · exact (ih h).trans (shaveBound_ofSearch ho')
    · obtain rfl := Except.ok.inj h
      exact shaveBound_ofSearch ho'

theorem shave_ofSearch (h : shave n s = .ok (kept, t)) :
    t.statistics.ofSearch = s.statistics.ofSearch := by
  fun_induction shave n s with
  | case1 => cases h
  | case2 s changed u hu =>
    obtain ⟨-, rfl⟩ := Prod.mk.inj (Except.ok.inj h)
    exact shavePass_ofSearch hu
  | case3 s u hu =>
    obtain ⟨-, rfl⟩ := Prod.mk.inj (Except.ok.inj h)
    exact shavePass_ofSearch hu
  | case4 s u hu ih => exact (ih h).trans (shavePass_ofSearch hu)

/-- **Filtering leaves the counters of the search alone.** -/
theorem filter_ofSearch (h : Solver.filter n c s = .ok (kept, t)) :
    t.statistics.ofSearch = s.statistics.ofSearch := by
  unfold Solver.filter at h
  split at h
  · cases h
  · rename_i hu
    obtain ⟨-, rfl⟩ := Prod.mk.inj (Except.ok.inj h)
    exact propagate_ofSearch hu
  · rename_i hu
    split at h
    · obtain ⟨-, rfl⟩ := Prod.mk.inj (Except.ok.inj h)
      exact propagate_ofSearch hu
    · exact (shave_ofSearch h).trans (propagate_ofSearch hu)

theorem filter_solutions (h : Solver.filter n c s = .ok (kept, t)) :
    t.statistics.solutions = s.statistics.solutions := by
  have := congrArg Statistics.solutions (filter_ofSearch h)
  exact this

theorem filter_choices (h : Solver.filter n c s = .ok (kept, t)) :
    t.statistics.choices = s.statistics.choices := by
  have := congrArg Statistics.choices (filter_ofSearch h)
  exact this

theorem filter_maxDepth (h : Solver.filter n c s = .ok (kept, t)) :
    t.statistics.maxDepth = s.statistics.maxDepth := by
  have := congrArg Statistics.maxDepth (filter_ofSearch h)
  exact this

/-! ### Searching -/

namespace Solver

variable {s t : Solver σ} {found : List (List Int)} {wanted : Option Nat}

/-- Taking choice points back counts just that. -/
theorem backtrack_statistics {moved : Bool} (h : s.backtrack = (moved, t)) :
    t.state.statistics =
      { s.state.statistics with backtracks := t.state.statistics.backtracks } := by
  fun_induction backtrack s with
  | case1 =>
    obtain ⟨rfl, rfl⟩ := Prod.mk.inj h
    rfl
  | case2 s c cs hp _ ih => exact ih h
  | case3 s c cs hp _ =>
    obtain ⟨rfl, rfl⟩ := Prod.mk.inj h
    rw [resume_state]
    split <;> rfl

theorem leave_statistics (s : Solver σ) : s.leave.state.statistics =
    { s.state.statistics with backtracks := s.leave.state.statistics.backtracks } := by
  unfold leave
  split
  all_goals
    rename_i t ht
    have := backtrack_statistics ht
    exact this

theorem leave_solutions (s : Solver σ) :
    s.leave.state.statistics.solutions = s.state.statistics.solutions := by
  have := congrArg Statistics.solutions (leave_statistics s)
  exact this

theorem leave_choices (s : Solver σ) :
    s.leave.state.statistics.choices = s.state.statistics.choices := by
  have := congrArg Statistics.choices (leave_statistics s)
  exact this

theorem Decides.ofSearch {v : Solver σ} {d : Decision} {other : Branch} (h : s.Decides v d other) :
    v.state.statistics.ofSearch = s.state.statistics.ofSearch := by
  cases h with
  | intro _ hu => exact filter_ofSearch hu

theorem Decides.solutions {v : Solver σ} {d : Decision} {other : Branch} (h : s.Decides v d other) :
    v.state.statistics.solutions = s.state.statistics.solutions := by
  have := congrArg Statistics.solutions h.ofSearch
  exact this

theorem Decides.choices {v : Solver σ} {d : Decision} {other : Branch} (h : s.Decides v d other) :
    v.state.statistics.choices = s.state.statistics.choices := by
  have := congrArg Statistics.choices h.ofSearch
  exact this

/-- **A move counts the solution that it hands out.** -/
theorem step_solutions {a : Option Answer} (h : s.step = .ok (t, a)) :
    t.state.statistics.solutions =
      s.state.statistics.solutions + (a.elim [] Answer.solutions).length := by
  cases step_moves h with
  | close => rfl
  | enter => rfl
  | fail _ hu => exact filter_solutions hu
  | leaf _ hu => exact congrArg (· + 1) (filter_solutions hu)
  | commit hd => exact hd.solutions
  | overflow hd => exact hd.solutions
  | leave => exact leave_solutions s
  | stop => rfl

theorem solveOne_solutions {a : Answer} (h : s.solveOne = .ok (a, t)) :
    t.state.statistics.solutions = s.state.statistics.solutions + a.solutions.length := by
  fun_induction solveOne s with
  | case1 => cases h
  | case2 s u a hs =>
    obtain ⟨rfl, rfl⟩ := Prod.mk.inj (Except.ok.inj h)
    exact step_solutions hs
  | case3 s u hs ih => exact (ih h).trans (congrArg (· + _) (step_solutions hs))

/-- **The number of solutions is counted.** -/
theorem collectOnto_solutions :
    (s.collectOnto found wanted).solver.state.statistics.solutions + found.length =
      s.state.statistics.solutions + (s.collectOnto found wanted).solutions.length := by
  fun_induction collectOnto found wanted s with
  | case1 => rw [List.length_reverse]
  | case2 => rw [List.length_reverse]
  | case3 found wanted s _ t ht => rw [List.length_reverse, solveOne_solutions ht]; rfl
  | case4 found wanted s _ capacity t ht => rw [List.length_reverse, solveOne_solutions ht]; rfl
  | case5 found wanted s _ values t ht ih =>
    have hcount := solveOne_solutions ht
    rw [List.length_cons] at ih
    rw [show (Answer.solution values).solutions.length = 1 from rfl] at hcount
    omega

end Solver
end BoundsSolver
