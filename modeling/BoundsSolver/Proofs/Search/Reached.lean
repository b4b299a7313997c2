/-
# The points of a search

`Reached` collects the solvers that searching for solutions and optimising go through,
whatever the brancher decides.  `Entered` collects, for one node, the states in which
propagation is started: at the node itself and, when shaving, at each trial and after
each removed value.  What holds of a solver and is `Kept` by a search holds after it.

At every point no wake-up is lost and no flag is stale (`search_invariant`): what is
not stable when propagation starts is triggered, and a flagged propagator has nothing
to say about the box that the flag goes with, be it the current one or that of a choice
point.
-/

import BoundsSolver.Proofs.Search.Loops
import BoundsSolver.Proofs.Search.Moves
import BoundsSolver.Proofs.Search.Stacks

namespace BoundsSolver

/-- A solver that a search for the solutions or for a best solution of the problem goes
through. -/
inductive Reached {σ : Type} (p : Problem) : Solver σ → Prop
  | start (o : Options) (log : Log) (b : Brancher σ) (m : σ) :
    Reached p ((Solver.ofProblem p o log).withBrancher b m)
  | step {s t : Solver σ} {a : Option Answer} : Reached p s → s.step = .ok (t, a) → Reached p t
  | reset {s : Solver σ} : Reached p s → Reached p s.reset
  /-- An optimisation notes the objective of a solution. -/
  | tell {s : Solver σ} (value : Int) : Reached p s → Reached p (s.tellObjective value)
  /-- An optimisation goes on below its choice points. -/
  | prune {s : Solver σ} {br : Branch} : Reached p s →
    (∀ o, s.objective = some o → o.domain = br.domain ∧ o.bound = br.bound) →
      Reached p (s.prune br)
  /-- An optimisation starts again. -/
  | restart {s : Solver σ} (br : Branch) : Reached p s → Reached p (s.restart br)
  /-- An optimisation has come to its end. -/
  | drop {s : Solver σ} : Reached p s → s.phase = .exhausted →
    Reached p { s with objective := none }

/-- A search with the default brancher starts with a fresh solver. -/
theorem Reached.fresh (p : Problem) (o : Options) (log : Log) :
    Reached p (Solver.ofProblem p o log) :=
  .start o log (Strategy.default p.current).brancher ()

/-- The states between the trials of a node. -/
inductive Shaving (n : Network) (s : State) : State → Prop
  | start {t : State} : propagate n s = .ok (true, t) → Shaving n s t
  | kept {t u : State} {d : DomainId} {x : Bound} :
    Shaving n s t → (t.box.entry d).min < (t.box.entry d).max →
      trial n (t.count fun c => { c with shavingTrials := c.shavingTrials + 1 })
        ⟨d, x.opposite, (t.box.entry d).get x⟩ = .ok (true, u) → Shaving n s u
  | removed {t u v : State} {d : DomainId} {x : Bound} :
    Shaving n s t → (t.box.entry d).min < (t.box.entry d).max →
      trial n (t.count fun c => { c with shavingTrials := c.shavingTrials + 1 })
        ⟨d, x.opposite, (t.box.entry d).get x⟩ = .ok (false, u) →
      shaveValue n u d x ((t.box.entry d).get x) = .ok (true, v) → Shaving n s v

/-- The states in which filtering a node starts propagation. -/
inductive Entered (n : Network) (c : Consistency) (s : State) : State → Prop
  | node : Entered n c s s
  | trial {t : State} {d : DomainId} {x : Bound} :
    c = .shaving → Shaving n s t → (t.box.entry d).min < (t.box.entry d).max →
      Entered n c s ((t.count fun c => { c with shavingTrials := c.shavingTrials + 1 }).narrow n
        ⟨d, x.opposite, (t.box.entry d).get x⟩)
  | removal {t u : State} {d : DomainId} {x : Bound} {next : Int} :
    c = .shaving → Shaving n s t → (t.box.entry d).min < (t.box.entry d).max →
      BoundsSolver.trial n (t.count fun c => { c with shavingTrials := c.shavingTrials + 1 })
        ⟨d, x.opposite, (t.box.entry d).get x⟩ = .ok (false, u) →
      nextInwards x ((t.box.entry d).get x) = .ok next →
      Entered n c s (((u.tell (.shaving ((t.box.entry d).get x) d)).count fun c =>
        { c with shavedValues := c.shavedValues + 1 }).narrow n ⟨d, x, next⟩)

/-- Every assignment within the box satisfies the constraints that are flagged. -/
def FlagsHold (n : Network) (b : Box) (flags : Keyed PropagatorId Bool) : Prop :=
  ∀ {id : PropagatorId} {q : Propagator}, n.propagators.get? id = some q →
    flags.entry id = true → ∀ {as : List Int}, Mem as b.toList → q.Holds as

variable {σ : Type} {p : Problem} {n : Network} {s t : State} {o : Outcome} {c : Consistency}
  {d : DomainId} {x : Bound} {shaved : Bool}

/-! ### Filtering a node -/

theorem Shaving.resting (h : Shaving n s t) (hn : n.WellFormed) (hs : s.Primed n) :
    t.Resting n := by
  induction h with
  | start hp => exact (propagate_filtered hn hs hp).rests rfl
  | kept _ _ ht ih =>
    exact (trial_spec hn (ih.count _) (tighten_opposite_alive ih.alive) ht).1
  | removed _ hlt ht hu ih =>
    exact (removal_filtered hn (ih.count _) hlt ht hu).rests rfl

/-- **Propagation is only started in primed states.** -/
theorem Entered.primed (h : Entered n c s t) (hn : n.WellFormed) (hs : s.Primed n) :
    t.Primed n := by
  cases h with
  | node => exact hs
  | trial _ ht _ =>
    have hrest := ht.resting hn hs
    exact (hrest.count _).primed.narrow _ hn (tighten_opposite_alive hrest.alive)
  | @removal t u d x next _ ht hlt htrial hnext =>
    have hrest := ht.resting hn hs
    obtain ⟨hu, hbox, -⟩ := trial_spec hn (hrest.count _)
      (tighten_opposite_alive hrest.alive) htrial
    refine ((hu.tell _).count _).primed.narrow _ hn ?_
    have hbox : u.box = t.box := hbox
    show Box.Alive (u.box.tighten _)
    rw [hbox]
    exact tighten_next_alive hrest.alive hlt hnext

/-- Those are all the states of a node that is not refuted. -/
theorem shaveBound_shaving {u : State} (hu : Shaving n s u)
    (h : shaveBound n u d x shaved = .ok o) (hk : o.kept = true) : Shaving n s o.state := by
  fun_induction shaveBound n u d x shaved with
  | case1 =>
    obtain rfl := Except.ok.inj h
    exact hu
  | case2 => cases h
  | case3 u shaved i hi value counted t ht =>
    obtain rfl := Except.ok.inj h
    exact hu.kept (Int.not_le.1 hi) ht
  | case4 => cases h
  | case5 =>
    obtain rfl := Except.ok.inj h
    cases hk
  | case6 u shaved i hi value counted t ht v hv ih =>
    exact ih (hu.removed (Int.not_le.1 hi) ht hv) h

theorem shavePass_shaving {ends : List (DomainId × Bound)} {u : State} (hu : Shaving n s u)
    (h : shavePass n ends u shaved = .ok o) (hk : o.kept = true) : Shaving n s o.state := by
  induction ends generalizing u shaved with
  | nil =>
    obtain rfl := Except.ok.inj h
    exact hu
  | cons e ends ih =>
    obtain ⟨o', ho', h⟩ := bind_eq_ok.1 h
    split at h
    · rename_i hk'
      exact ih (shaveBound_shaving hu ho' hk') h
    · rename_i hk'
      obtain rfl := Except.ok.inj h
      exact absurd hk hk'

theorem shave_shaving {u : State} (hu : Shaving n s u) (h : shave n u = .ok (true, t)) :
    Shaving n s t := by
  fun_induction shave n u with
  | case1 => cases h
  | case2 => cases h
  | case3 u v hv =>
    obtain ⟨-, rfl⟩ := Prod.mk.inj (Except.ok.inj h)
    exact shavePass_shaving hu hv rfl
  | case4 u v hv ih => exact ih (shavePass_shaving hu hv rfl) h

theorem State.Coherent.flagsHold (h : s.Coherent n) (hn : n.WellFormed) :
    FlagsHold n s.box s.entailed := by
  intro id q hq he as hm
  exact (hn.posted q (Keyed.mem_of_get? hq)).holds_of_settledOn h.inside (h.settled hq he) hm

theorem ChoicePoint.Sound.flagsHold {e : ChoicePoint} (h : e.Sound n) (hn : n.WellFormed) :
    FlagsHold n e.box e.entailed := by
  intro id q hq he as hm
  exact (hn.posted q (Keyed.mem_of_get? hq)).holds_of_settledOn h.inside (h.settled hq he) hm

/-- What is not stable in a primed state is triggered and not flagged. -/
theorem State.Primed.triggered_of_not_stableOn (h : s.Primed n) {id : PropagatorId}
    {q : Propagator} (hq : n.propagators.get? id = some q) (hst : ¬ q.StableOn s.box) :
    id ∈ s.triggered ∧ s.triggered.contains id = true ∧ s.entailed.entry id = false := by
  have hid := (h.attends id hq).resolve_left hst
  refine ⟨hid, h.coherent.faithful.contains_iff.2 hid, Bool.eq_false_iff.2 fun he => ?_⟩
  exact hst ((h.coherent.settled hq he).stableOn h.alive)

/-! ### The search -/

theorem Reached.sound {s : Solver σ} (hp : Built p) (h : Reached p s) : s.Sound p.network := by
  have hn := hp.sound.network
  induction h with
  | start o log b m => exact Solver.start_sound hp.sound o log b m
  | step _ hs ih => exact (Solver.step_sound hn ih hs).1
  | reset _ ih => exact Solver.reset_sound ih
  | tell value _ ih => exact Solver.tellObjective_sound ih value
  | prune _ ho ih => exact Solver.prune_sound ih ho
  | restart br _ ih => exact Solver.restart_sound ih br
  | drop _ hph ih => exact Solver.drop_sound ih hph

/-! ### What a search goes through -/

namespace Solver

variable {s t : Solver σ} {a : Option Answer}

/-- The solvers agree on all that moves leave alone. -/
structure Keeps (s t : Solver σ) : Prop where
  network : t.network = s.network
  options : t.options = s.options
  brancher : t.brancher = s.brancher
  objective : t.objective = s.objective
  capacity : t.choicePoints.capacity = s.choicePoints.capacity

theorem Keeps.refl (s : Solver σ) : s.Keeps s := ⟨rfl, rfl, rfl, rfl, rfl⟩

theorem Keeps.trans {u : Solver σ} (h : s.Keeps t) (h' : t.Keeps u) : s.Keeps u :=
  ⟨h'.network.trans h.network, h'.options.trans h.options, h'.brancher.trans h.brancher,
    h'.objective.trans h.objective, h'.capacity.trans h.capacity⟩

theorem Keeps.symm (h : s.Keeps t) : t.Keeps s :=
  ⟨h.network.symm, h.options.symm, h.brancher.symm, h.objective.symm, h.capacity.symm⟩

theorem resume_keeps (s : Solver σ) (br : Branch) : s.Keeps (s.resume br) := by
  unfold resume
  dsimp only
  split <;> exact ⟨rfl, rfl, rfl, rfl, rfl⟩

theorem restore_keeps {e : ChoicePoint} {cs : ChoicePoints}
    (h : s.choicePoints.pop? = some (e, cs)) : s.Keeps (s.restore e cs) :=
  ⟨rfl, rfl, rfl, rfl, ChoicePoints.pop?_capacity h⟩

theorem backtrack_keeps {found : Bool} (h : s.backtrack = (found, t)) : s.Keeps t := by
  fun_induction backtrack s with
  | case1 =>
    obtain ⟨-, rfl⟩ := Prod.mk.inj h
    exact .refl _
  | case2 s e cs hp _ ih => exact (restore_keeps hp).trans (ih h)
  | case3 s e cs hp _ =>
    obtain ⟨-, rfl⟩ := Prod.mk.inj h
    exact (restore_keeps hp).trans (resume_keeps ..)

theorem leave_keeps (s : Solver σ) : s.Keeps s.leave := by
  unfold leave
  split
  all_goals
    rename_i t ht
    have h := backtrack_keeps ht
    exact ⟨h.network, h.options, h.brancher, h.objective, h.capacity⟩

theorem Decides.keeps {v : Solver σ} {d : Decision} {other : Branch} (h : s.Decides v d other) :
    s.Keeps v := by
  cases h with
  | intro => exact ⟨rfl, rfl, rfl, rfl, rfl⟩

/-- **Moves leave the setting of a search alone.** -/
theorem step_keeps (h : s.step = .ok (t, a)) : s.Keeps t := by
  cases step_moves h with
  | close => exact ⟨rfl, rfl, rfl, rfl, rfl⟩
  | enter => exact ⟨rfl, rfl, rfl, rfl, rfl⟩
  | fail => exact ⟨rfl, rfl, rfl, rfl, rfl⟩
  | leaf => exact ⟨rfl, rfl, rfl, rfl, rfl⟩
  | commit hd hcs =>
    have hk := hd.keeps
    have hcapacity := (ChoicePoints.push_depth hcs).2.2
    exact ⟨hk.network, hk.options, hk.brancher, hk.objective, hcapacity.trans hk.capacity⟩
  | overflow hd =>
    have hk := hd.keeps
    exact ⟨hk.network, hk.options, hk.brancher, hk.objective, hk.capacity⟩
  | leave => exact leave_keeps s
  | stop => exact .refl _

theorem solveOne_keeps {a : Answer} (h : s.solveOne = .ok (a, t)) : s.Keeps t := by
  fun_induction solveOne s with
  | case1 => cases h
  | case2 s u a hs =>
    obtain ⟨-, rfl⟩ := Prod.mk.inj (Except.ok.inj h)
    exact step_keeps hs
  | case3 s u hs ih => exact (step_keeps hs).trans (ih h)

/-- The search says that nothing is left only once it is exhausted. -/
theorem step_exhausted (h : s.step = .ok (t, some .exhausted)) : s.phase = .exhausted ∧ t = s := by
  cases step_moves h with
  | stop hph => exact ⟨hph, rfl⟩

theorem solveOne_exhausted (h : s.solveOne = .ok (.exhausted, t)) : t.phase = .exhausted := by
  fun_induction solveOne s with
  | case1 => cases h
  | case2 s u a hs =>
    obtain ⟨rfl, rfl⟩ := Prod.mk.inj (Except.ok.inj h)
    obtain ⟨hph, rfl⟩ := step_exhausted hs
    exact hph
  | case3 s u hs ih => exact ih h

end Solver

namespace Solver

/-- A search keeps the property: no move breaks it, and neither does what searching for the
solutions or for a best solution does in between. -/
structure Kept (P : Solver σ → Prop) : Prop where
  step : ∀ {s t : Solver σ} {a : Option Answer}, P s → s.step = .ok (t, a) → P t
  reset : ∀ {s : Solver σ}, P s → P s.reset
  tell : ∀ {s : Solver σ} (value : Int), P s → P (s.tellObjective value)
  prune : ∀ {s : Solver σ} {br : Branch}, P s →
    (∀ o, s.objective = some o → o.domain = br.domain ∧ o.bound = br.bound) → P (s.prune br)
  restart : ∀ {s : Solver σ} (br : Branch), P s → P (s.restart br)
  drop : ∀ {s : Solver σ}, P s → s.phase = .exhausted → P { s with objective := none }

namespace Kept

variable {P : Solver σ → Prop} {s t : Solver σ} {dir : Direction} {y : VariableId} {v : View}
  {best : Option (List Int)} {r : Optimum} (hP : Kept P)
include hP

theorem solveOne {a : Answer} (hs : P s) (h : s.solveOne = .ok (a, t)) : P t := by
  fun_induction Solver.solveOne s with
  | case1 => cases h
  | case2 s u a hu =>
    obtain ⟨-, rfl⟩ := Prod.mk.inj (Except.ok.inj h)
    exact hP.step hs hu
  | case3 s u hu ih => exact ih (hP.step hs hu) h

theorem collectOnto (hs : P s) (found : List (List Int)) (wanted : Option Nat) :
    P (s.collectOnto found wanted).solver := by
  fun_induction Solver.collectOnto found wanted s with
  | case1 => exact hs
  | case2 => exact hs
  | case3 found wanted s _ t ht => exact hP.solveOne hs ht
  | case4 found wanted s _ capacity t ht => exact hP.solveOne hs ht
  | case5 found wanted s _ values t ht ih => exact ih (hP.solveOne hs ht)

theorem countFrom {τ : Type} {f : τ → List Int → τ} {seen seen' : τ} {found : Nat}
    {r : Except SearchError Nat} (hs : P s)
    (h : s.countFrom f seen found = .ok (r, seen', t)) : P t := by
  fun_induction Solver.countFrom f seen found s with
  | case1 => cases h
  | case2 seen found s u hu =>
    obtain ⟨-, -, rfl⟩ := by simpa using h
    exact hP.solveOne hs hu
  | case3 seen found s capacity u hu =>
    obtain ⟨-, -, rfl⟩ := by simpa using h
    exact hP.solveOne hs hu
  | case4 seen found s values u hu ih => exact ih (hP.solveOne hs hu) h

theorem findOne {r : Except SearchError (Option (List Int))} (hs : P s)
    (h : s.findOne = .ok (r, t)) : P t := by
  obtain ⟨⟨a, u⟩, hu, h⟩ := bind_eq_ok.1 h
  obtain ⟨-, rfl⟩ := Prod.mk.inj (Except.ok.inj h)
  exact hP.solveOne (hP.reset hs) hu

theorem findAll {r : Except SearchError (List (List Int))} (hs : P s)
    (h : s.findAll = .ok (r, t)) : P t := by
  obtain ⟨_, -, h⟩ := bind_eq_ok.1 h
  obtain ⟨-, rfl⟩ := Prod.mk.inj (Except.ok.inj h)
  exact hP.collectOnto (hP.reset hs) [] none

theorem pruneOn (hs : P s) (ho : ∀ o, s.objective = some o →
      ∀ value, o.domain = (dir.improve v value).domain ∧ o.bound = (dir.improve v value).bound)
    (h : s.pruneOn dir y v best = .ok (r, t)) : P t := by
  fun_induction Solver.pruneOn dir y v best s with
  | case1 => cases h
  | case2 best s u hu =>
    obtain ⟨-, rfl⟩ := Prod.mk.inj (Except.ok.inj h)
    exact hP.drop (hP.solveOne hs hu) (solveOne_exhausted hu)
  | case3 best s capacity u hu =>
    obtain ⟨-, rfl⟩ := Prod.mk.inj (Except.ok.inj h)
    exact hP.solveOne hs hu
  | case4 best s values u hu value ih =>
    refine ih (hP.prune (hP.tell value (hP.solveOne hs hu)) fun o hobj => ?_) (fun o hobj => ?_) h
    · refine ho o ?_ value
      rw [← (solveOne_keeps hu).objective]
      exact hobj
    · obtain rfl := Option.some.inj hobj
      intro value
      cases dir <;> exact ⟨rfl, rfl⟩

theorem restartOn (hs : P s) (h : s.restartOn dir y v best = .ok (r, t)) : P t :=
  restartOn_ends (P := fun _ s => P s) (Q := fun _ t => P t)
    (fun hs hu => hP.restart _ (hP.tell _ (hP.solveOne hs hu)))
    (fun hs hu => hP.drop (hP.solveOne hs hu) (solveOne_exhausted hu))
    (fun hs hu => hP.solveOne hs hu) hs h

/-- **An optimisation keeps what a search keeps.** -/
theorem optimise {mode : OptimisationMode} (hs : P s) (h : s.optimise y mode dir = .ok (r, t)) :
    P t := by
  obtain ⟨v, -, h⟩ := bind_eq_ok.1 h
  cases mode with
  | prune => exact hP.pruneOn (hP.reset hs) (fun o ho => absurd ho (Option.some_ne_none o).symm) h
  | reset => exact hP.restartOn (hP.reset hs) h

end Kept
end Solver

/-- Searching and optimising stays among the points of a search. -/
theorem Reached.kept : Solver.Kept (Reached p : Solver σ → Prop) :=
  ⟨.step, .reset, .tell, .prune, .restart, .drop⟩

/-- **No wake-up is lost and no flag is stale**, at any point of a search.  A choice point
is pushed with a stable box.  Wherever filtering starts propagation, a propagator that is
not stable is triggered and not flagged.  The flags of the current state, of each state
that propagation goes through and of each choice point are such that every assignment
within the box that goes with them satisfies the flagged constraints. -/
theorem search_invariant {s : Solver σ} (hp : Built p) (hs : Reached p s) :
    s.network = p.network ∧
    (∀ {t : Solver σ} {a : Option Answer} {e : ChoicePoint}, s.step = .ok (t, a) →
      t.choicePoints.live = s.choicePoints.live ++ [e] →
        e.box.Alive ∧ p.network.StableOn e.box) ∧
    (s.phase = .filtering → ∀ {u : State},
      Entered p.network s.options.consistency s.state u →
        (∀ {id : PropagatorId} {q : Propagator}, p.network.propagators.get? id = some q →
          ¬ q.StableOn u.box →
            id ∈ u.triggered ∧ u.triggered.contains id = true ∧ u.entailed.entry id = false) ∧
        ∀ {v : State}, Propagating p.network u v → FlagsHold p.network v.box v.entailed) ∧
    FlagsHold p.network s.state.box s.state.entailed ∧
    ∀ e ∈ s.choicePoints.live, FlagsHold p.network e.box e.entailed := by
  have hn := hp.sound.network
  have h := hs.sound hp
  refine ⟨h.network, fun hstep hlive => (Solver.step_sound hn h hstep).2.stableOn hlive,
    fun hph {u} hu => ?_, h.coherent.flagsHold hn, fun e he => (h.points e he).flagsHold hn⟩
  have hprimed := hu.primed hn (h.primed hph)
  exact ⟨fun hq hst => hprimed.triggered_of_not_stableOn hq hst,
    fun hv => (hv.primed hn hprimed).coherent.flagsHold hn⟩

/-- In `Problem.either` the first decision, that the cost is zero, pushes the stable box of the
root.  After it the costs of the other two variables are triggered, and neither is stable. -/
theorem search_invariant_either : ∃ (s t : Solver Unit) (e : ChoicePoint),
    Reached .either s ∧ s.step = .ok (t, none) ∧ t.choicePoints.live = [e] ∧
      Problem.either.network.StableOn e.box ∧ t.phase = .filtering ∧
      ∀ {id : PropagatorId}, id = ⟨1⟩ ∨ id = ⟨2⟩ →
        ∃ q, Problem.either.network.propagators.get? id = some q ∧ ¬ q.StableOn t.state.box ∧
          t.state.triggered.contains id = true ∧ t.state.entailed.entry id = false := by
  let s := (Solver.ofProblem .either .default .off).enter
  have hs : Reached .either s := (Reached.fresh .either .default .off).step rfl
  have hstep : ∃ r, s.step = .ok r ∧ (r.2 = none ∧ r.1.choicePoints.live.length = 1 ∧
      r.1.phase = .filtering ∧ ∀ id ∈ [(⟨1⟩ : PropagatorId), ⟨2⟩],
        (Problem.either.network.propagators.get? id).any fun q =>
          decide (¬ q.StableOn r.1.state.box)) := by
    decide +kernel
  obtain ⟨⟨t, a⟩, ht, ha, hlive, hph, hunstable⟩ := hstep
  obtain rfl : a = none := ha
  obtain ⟨e, he⟩ := List.length_eq_one_iff.1 hlive
  obtain ⟨-, hpush, -⟩ := search_invariant .either hs
  obtain ⟨-, -, hentered, -⟩ := search_invariant .either (hs.step ht)
  have hpushed : t.choicePoints.live = s.choicePoints.live ++ [e] := by
    have hnone : s.choicePoints.live = [] := by decide +kernel
    rw [hnone]
    exact he
  refine ⟨s, t, e, hs, ht, he, (hpush ht hpushed).2, hph, fun {id} hid => ?_⟩
  have hmem : id ∈ [(⟨1⟩ : PropagatorId), ⟨2⟩] := by simpa using hid
  obtain ⟨q, hq, hst⟩ := (Option.any_eq_true _ _).1 (hunstable id hmem)
  have hst := of_decide_eq_true hst
  exact ⟨q, hq, hst, ((hentered hph .node).1 hq hst).2⟩

end BoundsSolver
