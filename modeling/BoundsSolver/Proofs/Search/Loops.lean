/-
# The loops of a search

Around the propagators a search has five loops, each inside the next: propagation to a fixpoint,
trying out one bound of a shared domain, passing over all bounds, taking choice points back, and
moving on until there is an answer.  Listing the solutions and going on to better ones repeat the
last of them.  Each is written down here with its turns and shown to end, in any state, whatever
the brancher decides.

No one number falls in all of them.  A run of propagation takes a value away or triggers nothing,
and a value outweighs all that a run can trigger (`settle_endsWithin`).  A trial leaves the
box alone and a removed value is gone for good.  Backtracking widens the box again, but what is
pending on the stack is counted, and a decision splits what it counts (`solveOne_endsWithin`).
Going on to better solutions does not rely on the objective, which may stay where it is: each
solution leaves less to search (`pruneOn_endsWithin`).  Starting again does rely on it, and need
not end; `restartOn_ends` is about the times that it does.
-/

import BoundsSolver.Proofs.Loop
import BoundsSolver.Proofs.Propagation.Settle
import BoundsSolver.Search.Optimisation

namespace BoundsSolver

variable {σ : Type} {n : Network} {d : DomainId} {x : Bound}

/-! ### Propagation -/

section

variable {s t : State}

/-- Takes a propagator out of the queue and runs it, unless it is entailed. -/
def settleTurn (n : Network) (s : State) : Checked (Turn State (Bool × State)) :=
  match s.triggered.pop? with
  | none => .ok (.done (true, s))
  | some (id, rest) =>
    if s.entailed.entry id then .ok (.again { s with triggered := rest })
    else do
      let o ← run n { s with triggered := rest } id
      if o.kept then return .again o.state
      else
        return .done (false, { o.state.count fun c =>
          { c with inconsistencies := c.inconsistencies + 1 } with
            triggered := o.state.triggered.clear })

theorem settle_turn (n : Network) (s : State) :
    settle n s = settleTurn n s >>= Turn.andThen (settle n) := by
  unfold settleTurn
  split <;> rename_i hp
  · exact settle_of_idle hp
  · rename_i id rest
    rw [settle_of_pop hp]
    split
    · rfl
    · cases run n { s with triggered := rest } id with
      | error f => rfl
      | ok o =>
        obtain ⟨kept, changed, t⟩ := o
        cases kept <;> rfl

/-- A turn takes a propagator out, and what it triggers is outweighed by a value. -/
theorem settleTurn_again (h : settleTurn n s = .ok (.again t)) : t.rounds n < s.rounds n := by
  unfold settleTurn at h
  split at h <;> rename_i hp
  · cases h
  · rename_i id rest
    have hrest := State.rounds_of_pop? (n := n) hp
    split at h
    · obtain rfl := Turn.again.inj (Except.ok.inj h)
      exact hrest
    · obtain ⟨o, ho, h⟩ := bind_eq_ok.1 h
      split at h
      · rename_i hkept
        obtain rfl := Turn.again.inj (Except.ok.inj h)
        exact Nat.lt_of_le_of_lt (run_rounds ho hkept) hrest
      · cases h

/-- **Propagation to a fixpoint ends.** -/
theorem settle_endsWithin (n : Network) (s : State) :
    EndsWithin (settleTurn n) (s.rounds n + 1) s (settle n s) :=
  endsWithin_of_measure (fun s => s.rounds n) (settle_turn n) settleTurn_again s

/-! ### Shaving -/

/-- Tries a bound of a shared domain out and removes it unless it survives; the second component
says whether one has been removed before. -/
def shaveTurn (n : Network) (d : DomainId) (x : Bound) (s : State × Bool) :
    Checked (Turn (State × Bool) Outcome) :=
  if (s.1.box.entry d).max ≤ (s.1.box.entry d).min then .ok (.done ⟨true, s.2, s.1⟩)
  else do
    let value := (s.1.box.entry d).get x
    let counted := s.1.count fun c => { c with shavingTrials := c.shavingTrials + 1 }
    let (survives, t) ← trial n counted ⟨d, x.opposite, value⟩
    if survives then return .done ⟨true, s.2, t⟩
    else
      let (kept, u) ← shaveValue n t d x value
      if kept then return .again (u, true) else return .done ⟨false, true, u⟩

/-- Passes over both bounds of every shared domain. -/
def passTurn (n : Network) (s : State) : Checked (Turn State (Bool × State)) := do
  let o ← shavePass n (allEnds s.box) s false
  if o.kept && o.changed then return .again o.state else return .done (o.kept, o.state)

theorem shaveBound_turn (n : Network) (d : DomainId) (x : Bound) (s : State × Bool) :
    shaveBound n s.1 d x s.2 =
      shaveTurn n d x s >>= Turn.andThen fun s => shaveBound n s.1 d x s.2 := by
  rw [shaveBound, shaveTurn]
  dsimp only
  split
  · rfl
  · split <;> rename_i htrial <;> rw [htrial]
    · rfl
    · rfl
    · split <;> rename_i hvalue <;> rw [bind_of_ok rfl] <;> dsimp only <;> rw [hvalue] <;> rfl

/-- A turn that goes on has removed a value. -/
theorem shaveTurn_again {s t : State × Bool} (h : shaveTurn n d x s = .ok (.again t)) :
    t.1.box.totalSize < s.1.box.totalSize := by
  unfold shaveTurn at h
  split at h
  · cases h
  · rename_i hi
    obtain ⟨⟨survives, u⟩, htrial, h⟩ := bind_eq_ok.1 h
    cases survives with
    | true => cases h
    | false =>
      obtain ⟨⟨kept, v⟩, hvalue, h⟩ := bind_eq_ok.1 h
      cases kept with
      | false => cases h
      | true =>
        obtain rfl := Turn.again.inj (Except.ok.inj h)
        have hbox := trial_box htrial
        have hbox : u.box = s.1.box := hbox
        rw [← hbox] at hi hvalue ⊢
        exact shaveValue_totalSize (Int.not_le.1 hi) hvalue

theorem shave_turn (n : Network) (s : State) :
    shave n s = passTurn n s >>= Turn.andThen (shave n) := by
  rw [shave, passTurn]
  split <;> rename_i hpass <;> rw [hpass] <;> rfl

theorem passTurn_again (h : passTurn n s = .ok (.again t)) :
    t.box.totalSize < s.box.totalSize := by
  obtain ⟨o, ho, h⟩ := bind_eq_ok.1 h
  split at h
  · rename_i hon
    obtain rfl := Turn.again.inj (Except.ok.inj h)
    rw [Bool.and_eq_true] at hon
    rcases shavePass_totalSize ho hon.1 with hlt | ⟨-, hchanged⟩
    · exact hlt
    · rw [hon.2] at hchanged
      cases hchanged
  · cases h

/-- **Trying out one bound after the other ends.** -/
theorem shaveBound_endsWithin (n : Network) (s : State) (d : DomainId) (x : Bound)
    (shaved : Bool) :
    EndsWithin (shaveTurn n d x) (s.box.totalSize + 1) (s, shaved) (shaveBound n s d x shaved) :=
  endsWithin_of_measure (fun s => s.1.box.totalSize) (f := fun s => shaveBound n s.1 d x s.2)
    (shaveBound_turn n d x) shaveTurn_again (s, shaved)

/-- **The passes over all bounds end.** -/
theorem shave_endsWithin (n : Network) (s : State) :
    EndsWithin (passTurn n) (s.box.totalSize + 1) s (shave n s) :=
  endsWithin_of_measure (fun s => s.box.totalSize) (shave_turn n) passTurn_again s

end

/-! ### Searching -/

namespace Solver

variable {s t : Solver σ}

/-- Takes the last choice point back and enters its other branch, unless that is empty. -/
def backtrackTurn (s : Solver σ) : Checked (Turn (Solver σ) (Bool × Solver σ)) :=
  match s.choicePoints.pop? with
  | none => .ok (.done (false, s))
  | some (c, cs) =>
    .ok (.unless (¬ c.otherBox.anyEmpty = true) (true, (s.restore c cs).resume c.alternative)
      (s.restore c cs))

/-- Moves on, unless the search has come to an answer. -/
def searchTurn (s : Solver σ) : Checked (Turn (Solver σ) (Answer × Solver σ)) := do
  match ← s.step with
  | (t, some a) => return .done (a, t)
  | (t, none) => return .again t

theorem backtrack_turn (s : Solver σ) :
    .ok s.backtrack = s.backtrackTurn >>= Turn.andThen fun s => .ok s.backtrack := by
  rw [backtrack, backtrackTurn]
  split <;> rename_i hpop <;> rw [hpop]
  · rfl
  · rename_i c cs
    refine Eq.trans ?_ (Turn.andThen_unless _ (¬ c.otherBox.anyEmpty = true) _ _).symm
    by_cases hempty : c.otherBox.anyEmpty = true
    · rw [if_pos hempty, if_neg (not_not_intro hempty)]
    · rw [if_neg hempty, if_pos hempty]

theorem backtrackTurn_again (h : s.backtrackTurn = .ok (.again t)) :
    t.choicePoints.depth < s.choicePoints.depth := by
  unfold backtrackTurn at h
  split at h <;> rename_i hpop
  · cases h
  · obtain ⟨-, rfl⟩ := Turn.unless_eq_again.1 (Except.ok.inj h)
    have hdepth := ChoicePoints.depth_of_pop? hpop
    simp only [restore]
    omega

theorem solveOne_turn (s : Solver σ) : s.solveOne = s.searchTurn >>= Turn.andThen solveOne := by
  rw [solveOne, searchTurn]
  split <;> rename_i hstep <;> rw [hstep] <;> rfl

/-- A move gives up weight, or is the last that does not. -/
theorem searchTurn_again (h : s.searchTurn = .ok (.again t)) :
    2 * t.weight + t.rank < 2 * s.weight + s.rank := by
  obtain ⟨⟨u, a⟩, hstep, h⟩ := bind_eq_ok.1 h
  cases a with
  | some a => cases h
  | none =>
    obtain rfl := Turn.again.inj (Except.ok.inj h)
    -- Leaving a node may keep the weight; the rank says that no second such move follows.
    have hrank := u.rank_le_one
    rcases step_progress hstep with hlt | ⟨hle, hlt⟩ <;> omega

/-- **Taking choice points back ends.** -/
theorem backtrack_endsWithin (s : Solver σ) :
    EndsWithin backtrackTurn (s.choicePoints.depth + 1) s (.ok s.backtrack) :=
  endsWithin_of_measure (fun s => s.choicePoints.depth) (f := fun s => .ok s.backtrack)
    backtrack_turn backtrackTurn_again s

/-- **A search for the next solution ends.** -/
theorem solveOne_endsWithin (s : Solver σ) :
    EndsWithin searchTurn (2 * s.weight + s.rank + 1) s s.solveOne :=
  endsWithin_of_measure (fun s => 2 * s.weight + s.rank) solveOne_turn searchTurn_again s

/-! ### Solution after solution -/

/-- Searches for one more solution, unless enough have been found. -/
def collectTurn (s : List (List Int) × Option Nat × Solver σ) :
    Checked (Turn (List (List Int) × Option Nat × Solver σ) (Collected σ)) :=
  if s.2.1 = some 0 then .ok (.done ⟨s.1.reverse, .complete, s.2.2⟩)
  else
    match s.2.2.solveOne with
    | .error f => .ok (.done ⟨s.1.reverse, .stopped f, s.2.2⟩)
    | .ok (.exhausted, t) => .ok (.done ⟨s.1.reverse, .complete, t⟩)
    | .ok (.overflow capacity, t) =>
      .ok (.done ⟨s.1.reverse, .failed (.choicePointOverflow capacity), t⟩)
    | .ok (.solution values, t) => .ok (.again (values :: s.1, s.2.1.map (· - 1), t))

/-- Searches for a solution and confines the search to better ones. -/
def pruneTurn (dir : Direction) (y : VariableId) (v : View)
    (s : Option (List Int) × Solver σ) :
    Checked (Turn (Option (List Int) × Solver σ) (Optimum × Solver σ)) := do
  match ← s.2.solveOne with
  | (.exhausted, t) => return .done (.ok s.1, { t with objective := none })
  | (.overflow capacity, t) => return .done (.error (.choicePointOverflow capacity), t)
  | (.solution values, t) =>
    let value := values.getD y.index 0
    return .again (some values, (t.tellObjective value).prune (dir.improve v value))

theorem collectOnto_turn (s : List (List Int) × Option Nat × Solver σ) :
    .ok (s.2.2.collectOnto s.1 s.2.1) =
      collectTurn s >>= Turn.andThen fun s => .ok (s.2.2.collectOnto s.1 s.2.1) := by
  rw [collectOnto, collectTurn]
  split
  · rfl
  · split <;> rename_i hs <;> rw [hs] <;> rfl

theorem collectTurn_again {s t : List (List Int) × Option Nat × Solver σ}
    (h : collectTurn s = .ok (.again t)) : t.2.2.weight < s.2.2.weight := by
  unfold collectTurn at h
  split at h
  · cases h
  · split at h <;> rename_i hs
    · cases h
    · cases h
    · cases h
    · obtain rfl := Turn.again.inj (Except.ok.inj h)
      exact solveOne_solution_weight hs

theorem pruneOn_turn (dir : Direction) (y : VariableId) (v : View)
    (s : Option (List Int) × Solver σ) :
    s.2.pruneOn dir y v s.1 =
      pruneTurn dir y v s >>= Turn.andThen fun s => s.2.pruneOn dir y v s.1 := by
  rw [pruneOn, pruneTurn]
  split <;> rename_i hs <;> rw [hs] <;> rfl

theorem pruneTurn_again {dir : Direction} {y : VariableId} {v : View}
    {s t : Option (List Int) × Solver σ} (h : pruneTurn dir y v s = .ok (.again t)) :
    t.2.weight < s.2.weight := by
  obtain ⟨⟨a, u⟩, hu, h⟩ := bind_eq_ok.1 h
  cases a with
  | exhausted => cases h
  | overflow => cases h
  | solution values =>
    obtain rfl := Turn.again.inj (Except.ok.inj h)
    have hlt := solveOne_solution_weight hu
    exact Nat.lt_of_le_of_lt (prune_weight_le (u.tellObjective _) _) hlt

/-- **Listing the solutions ends.** -/
theorem collectOnto_endsWithin (s : Solver σ) (found : List (List Int)) (wanted : Option Nat) :
    EndsWithin collectTurn (s.weight + 1) (found, wanted, s) (.ok (s.collectOnto found wanted)) :=
  endsWithin_of_measure (fun s => s.2.2.weight) (f := fun s => .ok (s.2.2.collectOnto s.1 s.2.1))
    collectOnto_turn collectTurn_again (found, wanted, s)

/-- **Going on to better solutions ends.** -/
theorem pruneOn_endsWithin (s : Solver σ) (dir : Direction) (y : VariableId) (v : View)
    (best : Option (List Int)) :
    EndsWithin (pruneTurn dir y v) (s.weight + 1) (best, s) (s.pruneOn dir y v best) :=
  endsWithin_of_measure (fun s => s.2.weight) (f := fun s => s.2.pruneOn dir y v s.1)
    (pruneOn_turn dir y v) pruneTurn_again (best, s)

/-! ### Starting again -/

variable {dir : Direction} {y : VariableId} {v : View} {a b : Option (List Int) × Solver σ}
  {best : Option (List Int)} {r : Optimum}

theorem restartTurn_eq_again (h : restartTurn dir y v a = .ok (.again b)) :
    ∃ values t, a.2.solveOne = .ok (.solution values, t) ∧ b = (some values,
      (t.tellObjective (values.getD y.index 0)).restart
        (dir.improve v (values.getD y.index 0))) := by
  obtain ⟨⟨answer, t⟩, ht, h⟩ := bind_eq_ok.1 h
  cases answer with
  | exhausted => cases h
  | overflow => cases h
  | solution values => exact ⟨values, t, ht, (Turn.again.inj (Except.ok.inj h)).symm⟩

/-- An optimisation that starts again ends because there is no better solution, or because the
search for one ran out of choice points. -/
theorem restartTurn_eq_done (h : restartTurn dir y v a = .ok (.done (r, t))) :
    (∃ u, a.2.solveOne = .ok (.exhausted, u) ∧ r = .ok a.1 ∧ t = { u with objective := none }) ∨
      ∃ capacity, a.2.solveOne = .ok (.overflow capacity, t) ∧
        r = .error (.choicePointOverflow capacity) := by
  obtain ⟨⟨answer, u⟩, hu, h⟩ := bind_eq_ok.1 h
  cases answer with
  | exhausted =>
    obtain ⟨rfl, rfl⟩ := Prod.mk.inj (Turn.done.inj (Except.ok.inj h))
    exact .inl ⟨u, hu, rfl, rfl⟩
  | overflow capacity =>
    obtain ⟨rfl, rfl⟩ := Prod.mk.inj (Turn.done.inj (Except.ok.inj h))
    exact .inr ⟨capacity, hu, rfl⟩
  | solution => cases h

/-- **What starting again preserves holds when it ends.** -/
theorem restartOn_ends {P : Option (List Int) → Solver σ → Prop} {Q : Optimum → Solver σ → Prop}
    (hagain : ∀ {best s values t}, P best s → s.solveOne = .ok (.solution values, t) →
      P (some values) ((t.tellObjective (values.getD y.index 0)).restart
        (dir.improve v (values.getD y.index 0))))
    (hexhausted : ∀ {best s t}, P best s → s.solveOne = .ok (.exhausted, t) →
      Q (.ok best) { t with objective := none })
    (hoverflow : ∀ {best s capacity t}, P best s → s.solveOne = .ok (.overflow capacity, t) →
      Q (.error (.choicePointOverflow capacity)) t)
    (hs : P best s) (h : s.restartOn dir y v best = .ok (r, t)) : Q r t := by
  rw [restartOn, Turn.iterate_eq_ok_iff] at h
  obtain ⟨k, hloop⟩ := h
  generalize ha : (best, s) = a at hloop
  generalize hb : Except.ok (r, t) = result at hloop
  induction hloop generalizing best s with
  | fault => cases hb
  | done hturn =>
    subst ha
    obtain rfl := Except.ok.inj hb
    obtain ⟨u, hu, rfl, rfl⟩ | ⟨capacity, ht, rfl⟩ := restartTurn_eq_done hturn
    · exact hexhausted hs hu
    · exact hoverflow hs ht
  | again hturn _ ih =>
    subst ha
    obtain ⟨values, u, hu, rfl⟩ := restartTurn_eq_again hturn
    exact ih (hagain hs hu) rfl hb

end Solver
end BoundsSolver
