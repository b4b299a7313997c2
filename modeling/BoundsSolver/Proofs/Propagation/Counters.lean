/-
# What propagation counts

Propagation counts its runs; everything else that is counted during a search belongs to
the search.  `Statistics.withoutRuns` drops the counters of runs, so that one equation
says what happens to all others: `propagate_statistics` adds one to the runs to a
fixpoint, and one to the failures if there is one.
-/

import BoundsSolver.Proofs.Propagation.Settle

namespace BoundsSolver

/-- The counters without those of the runs of single propagators. -/
def Statistics.withoutRuns (c : Statistics) : Statistics :=
  { c with propagatorCalls := 0, noOpCalls := 0, entailments := 0 }

/-- The counters after propagation, apart from those of runs. -/
def Statistics.propagated (c : Statistics) (kept : Bool) : Statistics :=
  { c.withoutRuns with
    filters := c.filters + 1
    inconsistencies := c.inconsistencies + if kept then 0 else 1 }

variable {n : Network} {id self : PropagatorId} {again changed kept : Bool} {s t : State}
  {p : Position} {ps : List Position} {o : Outcome}

theorem cut_statistics (h : cut n self again p s = .ok o) :
    o.state.statistics = s.statistics := by
  obtain ⟨_, -, h⟩ := bind_eq_ok.1 h
  obtain ⟨_, -, h⟩ := bind_eq_ok.1 h
  dsimp only at h
  split at h
  · obtain rfl := Except.ok.inj h
    rfl
  · obtain rfl := Except.ok.inj h
    dsimp only
    split <;> split <;> rfl

theorem writeBack_statistics (h : writeBack n self again ps s changed = .ok o) :
    o.state.statistics = s.statistics := by
  induction ps generalizing s changed with
  | nil =>
    obtain rfl := Except.ok.inj h
    rfl
  | cons p ps ih =>
    unfold writeBack at h
    split at h
    · exact ih h
    · split at h
      · obtain rfl := Except.ok.inj h
        rfl
      · obtain ⟨o', ho', h⟩ := bind_eq_ok.1 h
        split at h
        · exact (ih h).trans (cut_statistics ho')
        · obtain rfl := Except.ok.inj h
          show o'.state.statistics = s.statistics
          exact cut_statistics ho'

/-- A run is counted among the runs only. -/
theorem run_statistics (h : run n s id = .ok o) :
    o.state.statistics.withoutRuns = s.statistics.withoutRuns := by
  obtain ⟨q, -, h⟩ := bind_eq_ok.1 h
  obtain ⟨r, -, h⟩ := bind_eq_ok.1 h
  dsimp only at h
  split at h
  · obtain rfl := Except.ok.inj h
    rfl
  · obtain ⟨o', ho', h⟩ := bind_eq_ok.1 h
    have hback := congrArg Statistics.withoutRuns (writeBack_statistics ho')
    have hrun : o'.state.statistics.withoutRuns = s.statistics.withoutRuns := by
      rw [hback]
      split <;> rfl
    split at h
    · obtain rfl := Except.ok.inj h
      exact hrun
    · obtain rfl := Except.ok.inj h
      exact hrun

theorem run_inconsistencies (h : run n s id = .ok o) :
    o.state.statistics.inconsistencies = s.statistics.inconsistencies := by
  have := congrArg Statistics.inconsistencies (run_statistics h)
  exact this

theorem settle_statistics (h : settle n s = .ok (kept, t)) :
    t.statistics.withoutRuns = { s.statistics.withoutRuns with
      inconsistencies := s.statistics.inconsistencies + if kept then 0 else 1 } := by
  fun_induction settle n s with
  | case1 s hp =>
    obtain ⟨rfl, rfl⟩ := Prod.mk.inj (Except.ok.inj h)
    rfl
  | case2 s id rest hp he ih => exact ih h
  | case3 => cases h
  | case4 s id rest hp he changed u hr ih =>
    rw [ih h, run_statistics hr, run_inconsistencies hr]
  | case5 s id rest hp he changed u hr =>
    obtain ⟨rfl, rfl⟩ := Prod.mk.inj (Except.ok.inj h)
    show { u.statistics.withoutRuns with inconsistencies := u.statistics.inconsistencies + 1 } = _
    rw [run_statistics hr, run_inconsistencies hr]
    rfl

/-- **What propagation counts** besides the runs: itself, and its failure. -/
theorem propagate_statistics (h : propagate n s = .ok (kept, t)) :
    t.statistics.withoutRuns = s.statistics.propagated kept :=
  settle_statistics h

/-- Propagation takes no trials. -/
theorem propagate_shavingTrials (h : propagate n s = .ok (kept, t)) :
    t.statistics.shavingTrials = s.statistics.shavingTrials := by
  have := congrArg Statistics.shavingTrials (propagate_statistics h)
  exact this

end BoundsSolver
