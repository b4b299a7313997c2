/-
# Searches end

A search takes finitely many turns in each of its loops (`Network.LoopsEnd`, `Solver.LoopsEnd`),
and so do the propagators in theirs (`PropagatorsEnd`), in whatever state they are.  What it comes
to, if the decisions of the brancher split, is an answer or a fault of arithmetic: a solver stays
steady through calls in any order (`History.steady`).  Both together are `search_ends`.

A strategy that does not draw at random takes decisions that split (`Strategy.splits`).
-/

import BoundsSolver.Proofs.Constraint.Loops
import BoundsSolver.Proofs.Search.Branching
import BoundsSolver.Proofs.Search.Completes
import BoundsSolver.Proofs.Search.Loops

namespace BoundsSolver

/-- The loops inside the propagators end, whatever the intervals and the parameters are; a walk
that redirects links does so unless it notices that it would go round for ever. -/
structure PropagatorsEnd : Prop where
  equation (rhs : Int) (as : List Int) (is : List Interval) (low high : Int) :
    EndsWithin (Affine.turn rhs as) (totalSize is + 1) (is, low, high)
      (Affine.settle rhs as is low high)
  counting (value count : Int) (is : List Interval) :
    EndsWithin (Exactly.turn value count) (totalSize is + 1) is (Exactly.settle value count is)
  maximum (es : List Interval) (m : Interval) :
    EndsWithin Maximum.turn (totalSize (m :: es) + 1) (es, m) (.ok (Maximum.settle es m))
  element (v : Element.Variables) :
    EndsWithin Element.turn (Element.weight v + 1) v (Element.settle v)
  raising (es : List Interval) (value index : Interval) :
    EndsWithin (Element.raiseTurn es value) (index.size + 1) index
      (Element.raiseIndex es value index)
  lowering (es : List Interval) (value index : Interval) :
    EndsWithin (Element.lowerTurn es value) (index.size + 1) index
      (Element.lowerIndex es value index)
  ordering (pairs : List (Interval × Interval)) :
    EndsWithin Lexicographic.turn (Lexicographic.weight pairs + 1) ([], pairs)
      (.ok (Lexicographic.narrow pairs))
  merging (lows highs : List (Int × Nat)) (r : AllDifferent.Ranking) :
    EndsWithin AllDifferent.mergeTurn (lows.length + highs.length + 1) (lows, highs, r)
      (AllDifferent.Ranking.merge lows highs r)
  climbing (links : Array Nat) (node : Nat) :
    EndsWithin (AllDifferent.climbTurn links) (links.size - node + 1) node
      (AllDifferent.climb links node)
  sinking (links : Array Nat) (node : Nat) :
    EndsWithin (AllDifferent.sinkTurn links) (node + 1) node (AllDifferent.sink links node)
  redirecting {links : Array Nat} {node stop target : Nat}
    (h : AllDifferent.redirect links node stop target ≠ .error .endless) :
    EndsWithin (AllDifferent.redirectTurn stop target)
      (2 * links.countP (· ≠ target) + (if node = target then 0 else 1) + 1) (links, node)
      (AllDifferent.redirect links node stop target)

/-- Filtering ends in any state: propagation to a fixpoint, the trials of a bound and the passes
over all bounds. -/
structure Network.LoopsEnd (n : Network) : Prop where
  fixpoint (s : State) : EndsWithin (settleTurn n) (s.rounds n + 1) s (settle n s)
  trials (s : State) (d : DomainId) (x : Bound) (shaved : Bool) :
    EndsWithin (shaveTurn n d x) (s.box.totalSize + 1) (s, shaved) (shaveBound n s d x shaved)
  passes (s : State) : EndsWithin (passTurn n) (s.box.totalSize + 1) s (shave n s)

/-- Searching from the solver ends: taking choice points back, moving on to the next solution,
listing the solutions and going on to better ones. -/
structure Solver.LoopsEnd {σ : Type} (s : Solver σ) : Prop where
  backtrack : EndsWithin backtrackTurn (s.choicePoints.depth + 1) s (.ok s.backtrack)
  solveOne : EndsWithin searchTurn (2 * s.weight + s.rank + 1) s s.solveOne
  collect (found : List (List Int)) (wanted : Option Nat) :
    EndsWithin collectTurn (s.weight + 1) (found, wanted, s) (.ok (s.collectOnto found wanted))
  prune (dir : Direction) (y : VariableId) (v : View) (best : Option (List Int)) :
    EndsWithin (pruneTurn dir y v) (s.weight + 1) (best, s) (s.pruneOn dir y v best)

variable {σ : Type} {p : Problem} {n : Network} {s t : Solver σ} {c : Call} {r : Reply}
  {es : List (Call × Reply)}

theorem propagatorsEnd : PropagatorsEnd where
  equation := Affine.settle_endsWithin
  counting := Exactly.settle_endsWithin
  maximum := Maximum.settle_endsWithin
  element := Element.settle_endsWithin
  raising := Element.raiseIndex_endsWithin
  lowering := Element.lowerIndex_endsWithin
  ordering := Lexicographic.narrow_endsWithin
  merging := AllDifferent.merge_endsWithin
  climbing := AllDifferent.climb_endsWithin
  sinking := AllDifferent.sink_endsWithin
  redirecting := AllDifferent.redirect_endsWithin

theorem Network.loopsEnd (n : Network) : n.LoopsEnd :=
  ⟨settle_endsWithin n, shaveBound_endsWithin n, shave_endsWithin n⟩

theorem Solver.loopsEnd (s : Solver σ) : s.LoopsEnd :=
  ⟨s.backtrack_endsWithin, s.solveOne_endsWithin, s.collectOnto_endsWithin, s.pruneOn_endsWithin⟩

/-! ### Strategies -/

/-- **The decisions of a strategy split**, if it does not draw at random. -/
theorem Strategy.splits {st : Strategy} (hst : st.values ≠ .randomSplitter)
    (hds : ∀ d ∈ st.domains, d.index < n.initial.size) : st.brancher.Splits n := by
  intro m b g hb ha _
  have hin : ∀ d ∈ st.domains, d.index < b.size := by
    rw [hb.size_eq]
    exact hds
  obtain ⟨hnext, -⟩ | ⟨d, hpicks, ⟨c, g', hnext, rfl, hsplits⟩ | ⟨hrandom, -⟩⟩ :=
    Strategy.next_cases ha (fun h => absurd h hst) hin g
  · rw [hnext]
    exact ⟨.ok _, fun h => nomatch h⟩
  · rw [hnext]
    refine ⟨.ok _, fun h => ?_⟩
    obtain rfl := Option.some.inj (Prod.mk.inj (Except.ok.inj h)).1
    exact ⟨_, get_of_lt (hin _ hpicks.mem), hsplits⟩
  · exact absurd hrandom hst

/-- **The decisions of the default brancher split.** -/
theorem default_splits {c : Box} (hc : c.size = n.initial.size) :
    (Strategy.default c).brancher.Splits n := by
  refine Strategy.splits ValueOrder.noConfusion fun d hd => ?_
  obtain ⟨k, hk, rfl⟩ := List.mem_map.1 hd
  exact lt_of_lt_of_eq (List.mem_range.1 hk) hc

/-! ### Calls -/

namespace Solver

namespace Kept

variable {P : Solver σ → Prop} (hP : Kept P)
include hP

theorem take {k : Nat} {it it' : Solutions σ} {is : List Solutions.Item} (hs : P it.solver)
    (h : it.take k = .ok (is, it')) : P it'.solver := by
  induction k generalizing it is with
  | zero =>
    obtain ⟨-, rfl⟩ := Prod.mk.inj (Except.ok.inj h)
    exact hs
  | succ k ih =>
    obtain ⟨⟨i, rest⟩, hi, h⟩ := bind_eq_ok.1 h
    obtain ⟨⟨others, it''⟩, hothers, h⟩ := bind_eq_ok.1 h
    obtain ⟨-, rfl⟩ := Prod.mk.inj (Except.ok.inj h)
    refine ih ?_ hothers
    unfold Solutions.next at hi
    split at hi
    · obtain ⟨-, rfl⟩ := Prod.mk.inj (Except.ok.inj hi)
      exact hs
    · obtain ⟨⟨a, u⟩, hu, hi⟩ := bind_eq_ok.1 hi
      have hrest := hP.solveOne hs hu
      cases a
      all_goals
        obtain ⟨-, rfl⟩ := Prod.mk.inj (Except.ok.inj hi)
        exact hrest

/-- **A call keeps what a search keeps**, if taking choice points back does. -/
theorem run (hback : P s.backtrack.2) (hs : P s) (h : c.run s = .ok (r, t)) : P t := by
  cases c with
  | solveOne =>
    obtain ⟨⟨a, u⟩, hu, h⟩ := bind_eq_ok.1 h
    obtain ⟨-, rfl⟩ := Prod.mk.inj (Except.ok.inj h)
    exact hP.solveOne hs hu
  | iterate count =>
    obtain ⟨⟨is, it⟩, hit, h⟩ := bind_eq_ok.1 h
    obtain ⟨-, rfl⟩ := Prod.mk.inj (Except.ok.inj h)
    have hstart : P (Solutions.of s).solver := hs
    exact hP.take hstart hit
  | solveAllWith =>
    obtain ⟨⟨count, seen, u⟩, hu, h⟩ := bind_eq_ok.1 h
    obtain ⟨-, rfl⟩ := Prod.mk.inj (Except.ok.inj h)
    exact hP.countFrom hs hu
  | findOne =>
    obtain ⟨⟨r', u⟩, hu, h⟩ := bind_eq_ok.1 h
    obtain ⟨-, rfl⟩ := Prod.mk.inj (Except.ok.inj h)
    exact hP.findOne hs hu
  | findAll =>
    obtain ⟨⟨r', u⟩, hu, h⟩ := bind_eq_ok.1 h
    obtain ⟨-, rfl⟩ := Prod.mk.inj (Except.ok.inj h)
    exact hP.findAll hs hu
  | minimize x mode =>
    obtain ⟨⟨r', u⟩, hu, h⟩ := bind_eq_ok.1 h
    obtain ⟨-, rfl⟩ := Prod.mk.inj (Except.ok.inj h)
    exact hP.optimise hs hu
  | maximize x mode =>
    obtain ⟨⟨r', u⟩, hu, h⟩ := bind_eq_ok.1 h
    obtain ⟨-, rfl⟩ := Prod.mk.inj (Except.ok.inj h)
    exact hP.optimise hs hu
  | backtrack =>
    obtain ⟨-, rfl⟩ := Prod.mk.inj (Except.ok.inj h)
    exact hback
  | reset =>
    obtain ⟨-, rfl⟩ := Prod.mk.inj (Except.ok.inj h)
    exact hP.reset hs

end Kept

theorem start_steady {b : Brancher σ} (hp : Built p) (hb : b.Splits p.network) (o : Options)
    (log : Log) (m : σ) : ((ofProblem p o log).withBrancher b m).Steady p.network where
  sound := start_sound hp.sound o log b m
  grounded := State.start_grounded p log
  splits := hb

/-- Between two calls the caller may take choice points back. -/
theorem Steady.backtrack (hn : n.WellFormed) (hg : n.Grounded) (hs : s.Steady n)
    (haway : s.phase ≠ .filtering) : s.backtrack.2.Steady n where
  sound := (backtrack_sound hn hs.sound haway rfl).1
  grounded := backtrack_grounded hg hs.sound.network hs.grounded rfl
  splits := (backtrack_keeps (s := s) rfl).brancher ▸ hs.splits

end Solver

/-- **Calls in any order keep a solver steady.** -/
theorem History.steady (h : History s es t) (hn : n.WellFormed) (hg : n.Grounded)
    (hidle : s.Idle n) (hs : s.Steady n) : t.Steady n := by
  induction h with
  | nil => exact hs
  | cons hrun _ ih =>
    -- Between calls the solver is not at a node, so that the caller may take choice points back.
    refine ih (Call.run_serves hn hidle hrun).idle ?_
    exact (Solver.Steady.kept hn hg).run (hs.backtrack hn hg hidle.away) hs hrun

/-! ### The whole -/

/-- **The search always ends.**  Take a problem that was built, any options and a brancher whose
decisions split, and a solver after calls in any order:

* all loops end, those of the propagators, those of filtering and those of the search, in any
  state that they may be started in;
* a propagator that runs on intervals with values comes to an answer or to a fault of arithmetic,
  so that no walk of it goes round for ever;
* so do a search for the next solution, a search for all of them, and an optimisation that goes
  on below its choice points.  An answer may be that the search ran out of choice points. -/
theorem search_ends {o : Options} {log : Log} {b : Brancher σ} {m : σ} (hp : Built p)
    (hb : b.Splits p.network)
    (h : History ((Solver.ofProblem p o log).withBrancher b m) es s) :
    (PropagatorsEnd ∧ p.network.LoopsEnd ∧ ∀ t : Solver σ, t.LoopsEnd) ∧
    (∀ {u : State} {id : PropagatorId}, u.box.Inside p.network.initial → u.box.Alive →
      id.index < p.network.propagators.size → Completes (run p.network u id)) ∧
    Completes s.solveOne ∧ Completes s.findAll ∧
    ∀ {y : VariableId} {dir : Direction}, y.index < p.network.views.size →
      Completes (s.optimise y .prune dir) := by
  have hn := hp.sound.network
  have hg : p.network.Grounded := hp.grounded
  have hs : s.Steady p.network :=
    h.steady hn hg (Solver.start_idle hp o log b m) (Solver.start_steady hp hb o log m)
  refine ⟨⟨propagatorsEnd, p.network.loopsEnd, Solver.loopsEnd⟩, ?_, ?_, ?_, ?_⟩
  · exact fun hin ha hid => run_completes hn hin ha hid
  · exact Solver.solveOne_completes hn hg hs
  · exact Solver.findAll_completes hn hg hs
  · exact fun hy => Solver.optimise_completes hn hg hs hy

/-- In `Problem.either`, with the default brancher, so do the searches that go on after the first
solution, and the search for the greatest value of the second variable. -/
theorem search_ends_either : ∃ s : Solver Unit,
    History (Solver.ofProblem .either .default .off)
      [(.solveOne, .answer (.ok (some [2, 0, 1])))] s ∧ 0 < s.depth ∧
      Completes s.solveOne ∧ Completes s.findAll ∧
      Completes (s.optimise ⟨1⟩ .prune .maximise) := by
  have hfound : ∃ s, Call.solveOne.run (Solver.ofProblem .either .default .off) =
      .ok (.answer (.ok (some [2, 0, 1])), s) ∧ 0 < s.depth := by
    decide +kernel
  obtain ⟨s, hs, hdeep⟩ := hfound
  have hhistory : History (Solver.ofProblem .either .default .off)
      [(.solveOne, .answer (.ok (some [2, 0, 1])))] s := .cons hs .nil
  have hb : (Strategy.default Problem.either.current).brancher.Splits Problem.either.network :=
    default_splits rfl
  obtain ⟨-, -, hone, hall, hbest⟩ := search_ends (m := ()) .either hb hhistory
  exact ⟨s, hhistory, hdeep, hone, hall, hbest (by decide)⟩

end BoundsSolver
