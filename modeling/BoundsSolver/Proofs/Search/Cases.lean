/-
# What a move can do

A search moves in one of eight ways, which `Solver.Moves` lists with all that is known when
they are taken.  `step_moves` shows that there is no other, so that what holds of a move is
shown by going through this list, and no proof about the search has to open `Solver.step`.
-/

import BoundsSolver.Search.Enumeration

namespace BoundsSolver
namespace Solver

variable {σ : Type} {s t v : Solver σ} {d : Decision} {other : Branch} {a : Option Answer}

/-- A node has been left. -/
def Left (s : Solver σ) : Prop := s.phase = .solved ∨ s.phase = .backtrack

theorem Left.ne_filtering (h : s.Left) : s.phase ≠ .filtering := by
  rcases h with h | h <;> rw [h] <;> exact Phase.noConfusion

theorem Left.ne_exhausted (h : s.Left) : s.phase ≠ .exhausted := by
  rcases h with h | h <;> rw [h] <;> exact Phase.noConfusion

/-- At a node that is consistent but no solution, the brancher or the search itself takes a
decision that splits a shared domain. -/
inductive Decides (s : Solver σ) : Solver σ → Decision → Branch → Prop
  | intro {u : State} {x : DomainId} {i j : Interval} {own : Option Decision} {memory : σ}
    {generator : Generator} {other : Branch} : s.phase = .filtering →
    filter s.network s.options.consistency s.state = .ok (true, u) →
    u.box.firstUnfixed? = some (x, i) →
    s.brancher.next s.memory u.box s.generator = .ok (own, memory, generator) →
    u.box.get (own.getD (.atMost x i.min)).domain = .ok j →
    (own.getD (.atMost x i.min)).splits j = true →
    (own.getD (.atMost x i.min)).alternative = .ok other →
      Decides s { s with state := u, memory, generator } (own.getD (.atMost x i.min)) other

namespace Decides

theorem phase (h : s.Decides v d other) : v.phase = .filtering := by
  cases h with
  | intro hph => exact hph

theorem choicePoints (h : s.Decides v d other) : v.choicePoints = s.choicePoints := by
  cases h with
  | intro => rfl

theorem objective (h : s.Decides v d other) : v.objective = s.objective := by
  cases h with
  | intro => rfl

theorem splits (h : s.Decides v d other) : ∃ i, v.state.box.get d.domain = .ok i ∧
    d.splits i = true ∧ d.alternative = .ok other := by
  cases h with
  | intro _ _ _ _ hj hsplits hother => exact ⟨_, hj, hsplits, hother⟩

end Decides

/-! ### The move of each phase -/

theorem step_of_ready (h : s.phase = .ready) : s.step = .ok (s.enter, none) := by
  unfold step
  rw [h]

theorem step_of_left (h : s.Left) : s.step = .ok (s.leave, none) := by
  unfold step
  rcases h with h | h <;> rw [h]

theorem step_of_exhausted (h : s.phase = .exhausted) : s.step = .ok (s, some .exhausted) := by
  unfold step
  rw [h]

theorem step_of_fault {f : Fault} (h : s.phase = .filtering)
    (hu : filter s.network s.options.consistency s.state = .error f) : s.step = .error f := by
  unfold step
  rw [h, hu]

theorem step_of_refuted {u : State} (h : s.phase = .filtering)
    (hu : filter s.network s.options.consistency s.state = .ok (false, u)) :
    s.step = .ok ({ s with phase := .backtrack, state := u }, none) := by
  unfold step
  rw [h, hu]

theorem step_of_consistent {u : State} (h : s.phase = .filtering)
    (hu : filter s.network s.options.consistency s.state = .ok (true, u)) :
    s.step = ({ s with state := u } : Solver σ).advance := by
  unfold step
  rw [h, hu]

/-! ### All moves -/

/-- The moves of a search. -/
inductive Moves (s : Solver σ) : Solver σ → Option Answer → Prop
  /-- There is nothing to search. -/
  | close : s.phase = .ready → s.state.box.anyEmpty = true →
    Moves s { s with phase := .exhausted } none
  /-- The root is entered. -/
  | enter : s.phase = .ready → s.state.box.anyEmpty = false →
    Moves s { s with
      phase := .filtering
      state := s.state.triggerAll s.network.propagators.keys } none
  /-- The node is refuted. -/
  | fail {u : State} : s.phase = .filtering →
    filter s.network s.options.consistency s.state = .ok (false, u) →
    Moves s { s with phase := .backtrack, state := u } none
  /-- The node is a solution. -/
  | leaf {u : State} {values : List Int} : s.phase = .filtering →
    filter s.network s.options.consistency s.state = .ok (true, u) →
    u.box.firstUnfixed? = none → s.network.lowest u.box = .ok values →
    Moves s ({ s with state := u }.solve values) (some (.solution values))
  /-- A decision is taken. -/
  | commit {v : Solver σ} {d : Decision} {other : Branch} {cs : ChoicePoints} :
    s.Decides v d other →
    v.choicePoints.push ⟨v.state.box, v.state.entailed, other⟩ = .ok cs →
    Moves s (v.commit d cs) none
  /-- A decision needs more choice points than there may be. -/
  | overflow {v : Solver σ} {d : Decision} {other : Branch} {capacity : Nat} :
    s.Decides v d other →
    v.choicePoints.push ⟨v.state.box, v.state.entailed, other⟩ =
      .error (.choicePointOverflow capacity) →
    Moves s { v with phase := .exhausted } (some (.overflow capacity))
  /-- The node is left for what is pending. -/
  | leave : s.Left → Moves s s.leave none
  /-- Nothing is left. -/
  | stop : s.phase = .exhausted → Moves s s (some .exhausted)

theorem advance_moves {u : State} (hph : s.phase = .filtering)
    (hu : filter s.network s.options.consistency s.state = .ok (true, u))
    (h : ({ s with state := u } : Solver σ).advance = .ok (t, a)) : s.Moves t a := by
  unfold advance at h
  split at h
  · rename_i x i hfirst
    obtain ⟨⟨own, memory, generator⟩, hnext, h⟩ := bind_eq_ok.1 h
    obtain ⟨j, hj, h⟩ := bind_eq_ok.1 h
    split at h
    · rename_i hsplits
      obtain ⟨other, hother, h⟩ := bind_eq_ok.1 h
      have hdecides : s.Decides { s with state := u, memory, generator } _ other :=
        .intro hph hu hfirst hnext hj hsplits hother
      split at h
      · rename_i capacity hfull
        obtain ⟨rfl, rfl⟩ := Prod.mk.inj (Except.ok.inj h)
        exact .overflow hdecides hfull
      · rename_i cs hcs
        obtain ⟨rfl, rfl⟩ := Prod.mk.inj (Except.ok.inj h)
        exact .commit hdecides hcs
    · cases h
  · rename_i hfixed
    obtain ⟨values, hvalues, h⟩ := bind_eq_ok.1 h
    obtain ⟨rfl, rfl⟩ := Prod.mk.inj (Except.ok.inj h)
    exact .leaf hph hu hfixed hvalues

/-- **A move is one of these.** -/
theorem step_moves (h : s.step = .ok (t, a)) : s.Moves t a := by
  unfold step at h
  split at h
  · rename_i hph
    obtain ⟨rfl, rfl⟩ := Prod.mk.inj (Except.ok.inj h)
    unfold enter
    split
    · rename_i hempty
      exact .close hph hempty
    · rename_i hempty
      exact .enter hph (Bool.eq_false_iff.2 hempty)
  · rename_i hph
    split at h
    · cases h
    · rename_i u hu
      obtain ⟨rfl, rfl⟩ := Prod.mk.inj (Except.ok.inj h)
      exact .fail hph hu
    · rename_i u hu
      exact advance_moves hph hu h
  · rename_i hph
    obtain ⟨rfl, rfl⟩ := Prod.mk.inj (Except.ok.inj h)
    exact .leave (.inl hph)
  · rename_i hph
    obtain ⟨rfl, rfl⟩ := Prod.mk.inj (Except.ok.inj h)
    exact .leave (.inr hph)
  · rename_i hph
    obtain ⟨rfl, rfl⟩ := Prod.mk.inj (Except.ok.inj h)
    exact .stop hph

end Solver
end BoundsSolver
