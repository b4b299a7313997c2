/-
# The counters account for the search tree

Every node of the search tree is filtered once: the root, the branch of each decision, and
the other branch of each choice point that is taken back.  Shaving filters once more for
each trial and for each value that it removes (`Statistics.Filters`).  A filtered node is
refuted, is a solution, or has been decided on; only one that the capacity refuses a
decision is none of these.

`Solver.Reckoned` says this of the counters at every point of a search, and of the choice
points that what is behind them has values left, so that taking back one of them is
enough.  Every move keeps the account (`Solver.step_reckoned`), and so does every call that
searches on (`Call.run_continues`).  `statistics_account` reads the equations off it.
-/

import BoundsSolver.Proofs.Search.Calls
import BoundsSolver.Proofs.Search.Counts
import BoundsSolver.Proofs.Search.Stacks

namespace BoundsSolver

/-- What filtering counts from `c` to `e`: it runs to a fixpoint for each trial, for each
value that is removed, and `extra` times besides, and it fails for each value that is
removed and once more unless it succeeds. -/
structure Statistics.Filters (c e : Statistics) (extra : Nat) (kept : Bool) : Prop where
  runs : e.filters + c.shavingTrials + c.shavedValues =
    c.filters + e.shavingTrials + e.shavedValues + extra
  failures : e.inconsistencies + c.shavedValues =
    c.inconsistencies + e.shavedValues + if kept then 0 else 1

/-- The nodes that have been entered and not yet filtered. -/
def Phase.entered : Phase → Nat
  | .ready | .filtering => 1
  | .solved | .backtrack | .exhausted => 0

/-- The counters at a point of a search that started with none: so many choice points are on
the stack, so many nodes have been entered and not filtered, so many are neither refuted nor
solutions nor decided on, and so many solutions have been handed out. -/
structure Statistics.Reckons (c : Statistics) (depth unfiltered pending found : Nat) : Prop where
  depth : depth + c.backtracks = c.choices
  nodes : c.filters + unfiltered =
    1 + c.choices + c.backtracks + c.shavingTrials + c.shavedValues
  leaves : c.inconsistencies + c.solutions + pending = 1 + c.backtracks + c.shavedValues
  solutions : c.solutions = found

/-- The counters are right for where the search stands; `refused` tells whether its last node
was refused a decision. -/
structure Solver.Reckoned {σ : Type} (s : Solver σ) (found : Nat) (refused : Bool) : Prop where
  counters : s.state.statistics.Reckons s.depth s.phase.entered
    (s.phase.entered + refused.toNat) found
  /-- What is behind the choice points has values left. -/
  others : ∀ e ∈ s.choicePoints.live, e.otherBox.Alive
  root : s.phase = .ready → s.state.box.Alive
  ended : s.phase = .exhausted → s.depth = if refused then s.choicePoints.capacity else 0
  finished : refused = true → s.phase = .exhausted

/-- The answer is that the capacity does not suffice. -/
def Answer.refuses : Answer → Bool
  | .overflow _ => true
  | .solution _ | .exhausted => false

/-- The item is that the capacity does not suffice. -/
def Solutions.Item.refuses : Solutions.Item → Bool
  | .failed _ => true
  | .solution _ | .ended => false

/-- The capacity has refused the call a decision. -/
def Reply.refuses : Reply → Bool
  | .items is => is.any Solutions.Item.refuses
  | .answer (.error _) | .count (.error _) _ | .all (.error _) => true
  | .answer (.ok _) | .count (.ok _) _ | .all (.ok _) | .moved _ | .done => false

theorem Answer.next_refuses (a : Answer) : (Reply.answer a.next).refuses = a.refuses := by
  cases a <;> rfl

/-- The call searches on from where the search stands. -/
def Call.searches : Call → Bool
  | .solveOne | .iterate _ | .solveAllWith => true
  | .findOne | .findAll | .minimize .. | .maximize .. | .backtrack | .reset => false

variable {σ : Type} {p : Problem} {n : Network} {c e : Statistics} {b : Box} {d : Decision}
  {i : Interval} {other br : Branch} {x : DomainId} {y : Bound} {kept shaved refused : Bool}
  {k l found : Nat} {o : Outcome} {ends : List (DomainId × Bound)}

/-! ### Filtering -/

namespace Statistics

theorem Filters.trans {f : Statistics} (h : c.Filters e k true) (h' : e.Filters f l kept) :
    c.Filters f (k + l) kept where
  runs := by
    have := h.runs
    have := h'.runs
    omega
  failures := by
    have hfirst := h.failures
    have := h'.failures
    rw [if_pos rfl] at hfirst
    omega

/-- Propagation is a run of its own. -/
theorem filters_of_propagated (h : e.withoutRuns = c.propagated kept) : c.Filters e 1 kept := by
  have hruns := congrArg filters h
  have hfailures := congrArg inconsistencies h
  have htrials := congrArg shavingTrials h
  have hvalues := congrArg shavedValues h
  simp only [withoutRuns, propagated] at hruns hfailures htrials hvalues
  exact ⟨by omega, by omega⟩

/-- Filtering accounts for a node, unless it is still to be decided on. -/
theorem Reckons.filtered (h : c.Reckons k 1 1 found) (hf : c.Filters e 1 kept)
    (hsearch : e.ofSearch = c.ofSearch) : e.Reckons k 0 (if kept then 1 else 0) found := by
  obtain ⟨hruns, hfailures⟩ := hf
  obtain ⟨hdepth, hnodes, hleaves, hfound⟩ := h
  have hchoices := congrArg choices hsearch
  have hbacktracks := congrArg backtracks hsearch
  have hsolutions := congrArg Statistics.solutions hsearch
  simp only [ofSearch, withoutRuns] at hchoices hbacktracks hsolutions
  refine ⟨by omega, by omega, ?_, by omega⟩
  cases kept with
  | false =>
    rw [if_neg Bool.false_ne_true] at hfailures ⊢
    omega
  | true =>
    rw [if_pos rfl] at hfailures ⊢
    omega

theorem Reckons.solved (h : c.Reckons k 0 1 found) :
    ({ c with solutions := c.solutions + 1 } : Statistics).Reckons k 0 0 (found + 1) where
  depth := h.depth
  nodes := h.nodes
  leaves := h.leaves
  solutions := congrArg (· + 1) h.solutions

/-- A decision takes the place of its node and enters another one. -/
theorem Reckons.decided (h : c.Reckons k 0 1 found) (depth : Nat) :
    ({ c with choices := c.choices + 1 }.recordDepth depth).Reckons (k + 1) 1 1 found where
  depth := by
    have := h.depth
    simp only [recordDepth]
    omega
  nodes := by
    have := h.nodes
    simp only [recordDepth]
    omega
  leaves := h.leaves
  solutions := h.solutions

/-- Taking back a choice point enters the other branch. -/
theorem Reckons.left (h : c.Reckons (k + 1) 0 0 found) :
    ({ c with backtracks := c.backtracks + 1 } : Statistics).Reckons k 1 1 found where
  depth := by
    have := h.depth
    dsimp only
    omega
  nodes := by
    have := h.nodes
    dsimp only
    omega
  leaves := by
    have := h.leaves
    dsimp only
    omega
  solutions := h.solutions

end Statistics

section Filtering

variable {s t : State}

theorem propagate_filters (h : propagate n s = .ok (kept, t)) :
    s.statistics.Filters t.statistics 1 kept :=
  Statistics.filters_of_propagated (propagate_statistics h)

/-- A trial that is counted as one is no further run. -/
theorem trial_filters
    (h : trial n (s.count fun c => { c with shavingTrials := c.shavingTrials + 1 }) br =
      .ok (kept, t)) :
    s.statistics.Filters t.statistics 0 kept := by
  obtain ⟨⟨k, u⟩, hu, h⟩ := bind_eq_ok.1 h
  obtain ⟨rfl, rfl⟩ := Prod.mk.inj (Except.ok.inj h)
  obtain ⟨hruns, hfailures⟩ := propagate_filters hu
  refine ⟨?_, hfailures⟩
  simp only [State.narrow, State.wake, State.triggerAll, State.count] at hruns
  dsimp only
  omega

/-- **A value whose trial failed pays for the failure** and for the run that follows. -/
theorem removal_filters {u : State} {v : Int}
    (ht : trial n (s.count fun c => { c with shavingTrials := c.shavingTrials + 1 }) br =
      .ok (false, t))
    (hu : shaveValue n t x y v = .ok (kept, u)) :
    s.statistics.Filters u.statistics 0 kept := by
  obtain ⟨hruns, hfailures⟩ := trial_filters ht
  obtain ⟨next, -, hu⟩ := bind_eq_ok.1 hu
  obtain ⟨hruns', hfailures'⟩ := propagate_filters hu
  simp only [State.narrow, State.wake, State.triggerAll, State.count, State.tell]
    at hruns' hfailures'
  rw [if_neg Bool.false_ne_true] at hfailures
  exact ⟨by omega, by omega⟩

theorem shaveBound_filters (h : shaveBound n s x y shaved = .ok o) :
    s.statistics.Filters o.state.statistics 0 o.kept := by
  fun_induction shaveBound n s x y shaved with
  | case1 =>
    obtain rfl := Except.ok.inj h
    exact ⟨rfl, rfl⟩
  | case2 => cases h
  | case3 s shaved i hi value counted t ht =>
    obtain rfl := Except.ok.inj h
    exact trial_filters ht
  | case4 => cases h
  | case5 s shaved i hi value counted t ht u hu =>
    obtain rfl := Except.ok.inj h
    exact removal_filters ht hu
  | case6 s shaved i hi value counted t ht u hu ih =>
    exact (removal_filters ht hu).trans (ih h)

theorem shavePass_filters (h : shavePass n ends s shaved = .ok o) :
    s.statistics.Filters o.state.statistics 0 o.kept := by
  induction ends generalizing s shaved with
  | nil =>
    obtain rfl := Except.ok.inj h
    exact ⟨rfl, rfl⟩
  | cons end' ends ih =>
    obtain ⟨o', ho', h⟩ := bind_eq_ok.1 h
    have hfirst := shaveBound_filters ho'
    split at h
    · rename_i hk
      rw [hk] at hfirst
      exact hfirst.trans (ih h)
    · obtain rfl := Except.ok.inj h
      exact hfirst

theorem shave_filters (h : shave n s = .ok (kept, t)) :
    s.statistics.Filters t.statistics 0 kept := by
  fun_induction shave n s with
  | case1 => cases h
  | case2 s changed u hu =>
    obtain ⟨rfl, rfl⟩ := Prod.mk.inj (Except.ok.inj h)
    exact shavePass_filters hu
  | case3 s u hu =>
    obtain ⟨rfl, rfl⟩ := Prod.mk.inj (Except.ok.inj h)
    exact shavePass_filters hu
  | case4 s u hu ih => exact (shavePass_filters hu).trans (ih h)

/-- **Filtering a node is one run** besides those of shaving. -/
theorem filter_filters {a : Consistency} (h : Solver.filter n a s = .ok (kept, t)) :
    s.statistics.Filters t.statistics 1 kept := by
  unfold Solver.filter at h
  split at h
  · cases h
  · rename_i hu
    obtain ⟨rfl, rfl⟩ := Prod.mk.inj (Except.ok.inj h)
    exact propagate_filters hu
  · rename_i hu
    cases a with
    | bounds =>
      obtain ⟨rfl, rfl⟩ := Prod.mk.inj (Except.ok.inj h)
      exact propagate_filters hu
    | shaving => exact (propagate_filters hu).trans (shave_filters h)

end Filtering

/-! ### Moves -/

/-- The branch that a decision leaves behind has values left. -/
theorem alternative_alive (ha : b.Alive) (hi : b.get d.domain = .ok i) (hs : d.splits i = true)
    (ho : d.alternative = .ok other) : (Box.tighten b other).Alive := by
  have he := entry_of_get hi
  refine tighten_alive ha ?_
  cases d with
  | atMost d v =>
    obtain ⟨w, hw, ho⟩ := bind_eq_ok.1 ho
    obtain ⟨-, rfl⟩ := Width.add_eq_ok.1 hw
    obtain rfl := Except.ok.inj ho
    simp only [Decision.splits, decide_eq_true_eq] at hs
    simp only [Decision.domain] at he
    simp only [he, Interval.tighten, Interval.tightenMin_min, Interval.tightenMin_max]
    omega
  | atLeast d v =>
    obtain ⟨w, hw, ho⟩ := bind_eq_ok.1 ho
    obtain ⟨-, rfl⟩ := Width.sub_eq_ok.1 hw
    obtain rfl := Except.ok.inj ho
    simp only [Decision.splits, decide_eq_true_eq] at hs
    simp only [Decision.domain] at he
    simp only [he, Interval.tighten, Interval.tightenMax_min, Interval.tightenMax_max]
    omega

namespace Solver

variable {s t u v : Solver σ} {a : Option Answer}

/-- A solver on which nothing has been called yet. -/
theorem start_reckoned (hne : p.current.anyEmpty = false) (o : Options) (log : Log)
    (br : Brancher σ) (m : σ) : ((ofProblem p o log).withBrancher br m).Reckoned 0 false where
  counters := ⟨rfl, rfl, rfl, rfl⟩
  others _ he := absurd he List.not_mem_nil
  root _ := Box.anyEmpty_eq_false_iff.1 hne
  ended := Phase.noConfusion
  finished := Bool.noConfusion

theorem Reckoned.filtered {w : State} (hs : s.Reckoned found false) (hph : s.phase = .filtering)
    (hw : filter s.network s.options.consistency s.state = .ok (kept, w)) :
    w.statistics.Reckons s.depth 0 (if kept then 1 else 0) found := by
  have hcounters := hs.counters
  rw [hph] at hcounters
  exact hcounters.filtered (filter_filters hw) (filter_ofSearch hw)

theorem commit_reckoned {points : ChoicePoints} (hn : n.WellFormed) (hs : s.Sound n)
    (hr : s.Reckoned found false) (hd : s.Decides v d other)
    (hpush : v.choicePoints.push ⟨v.state.box, v.state.entailed, other⟩ = .ok points) :
    (v.commit d points).Reckoned found false := by
  have halive := ((hd.filtered hn hs).2.rests rfl).alive
  have hph : (v.commit d points).phase = .filtering := hd.phase
  obtain ⟨i, hi, hsplits, hother⟩ := hd.splits
  have hlive := ChoicePoints.live_push hpush
  have hdepth : points.depth = v.depth + 1 := (ChoicePoints.push_depth hpush).2.1
  refine
    { counters := ?_, others := ?_
      root := fun h => absurd (hph.symm.trans h) Phase.noConfusion
      ended := fun h => absurd (hph.symm.trans h) Phase.noConfusion
      finished := Bool.noConfusion }
  · have hv : v.state.statistics.Reckons v.depth 0 1 found := by
      cases hd with
      | intro hphase hu => exact hr.filtered hphase hu
    rw [hph]
    show Statistics.Reckons _ points.depth 1 1 found
    rw [hdepth]
    exact hv.decided points.depth
  · intro e he
    have he : e ∈ points.live := he
    rw [hlive] at he
    rcases List.mem_append.1 he with he | he
    · exact hr.others e (hd.choicePoints ▸ he)
    · rw [List.mem_singleton.1 he]
      exact alternative_alive halive hi hsplits hother

theorem overflow_reckoned {capacity : Nat} (hr : s.Reckoned found false) (hd : s.Decides v d other)
    (hpush : v.choicePoints.push ⟨v.state.box, v.state.entailed, other⟩ =
      .error (.choicePointOverflow capacity)) :
    ({ v with phase := .exhausted } : Solver σ).Reckoned found true := by
  have hfull : v.choicePoints.depth = v.choicePoints.capacity := by
    by_contra hne
    obtain ⟨points, hok, -⟩ := ChoicePoints.push_of_ne hne
    rw [hok] at hpush
    cases hpush
  cases hd with
  | intro hph hu =>
    exact
      { counters := hr.filtered hph hu, others := hr.others, root := Phase.noConfusion
        ended := fun _ => hfull, finished := fun _ => rfl }

/-- **Leaving a node takes back one choice point**, if there is any. -/
theorem leave_reckoned (hr : s.Reckoned found false) (hl : s.Left) :
    s.leave.Reckoned found false := by
  have hcounters : s.state.statistics.Reckons s.depth 0 0 found := by
    have := hr.counters
    rcases hl with h | h
    all_goals
      rw [h] at this
      exact this
  cases hp : s.choicePoints.pop? with
  | none =>
    have hsame : s.leave = { s with phase := .exhausted } := by
      unfold leave
      rw [backtrack_of_bare hp]
    rw [hsame]
    exact
      { counters := hcounters, others := hr.others, root := Phase.noConfusion
        ended := fun _ => ChoicePoints.depth_eq_zero_of_pop? hp, finished := Bool.noConfusion }
  | some top =>
    obtain ⟨e, points⟩ := top
    have hlive := ChoicePoints.live_pop? hp
    have halive : e.otherBox.Alive := hr.others e (hlive ▸ List.mem_concat_self)
    have hleave : s.leave =
        { (s.restore e points).resume e.alternative with phase := .filtering } := by
      unfold leave
      rw [backtrack_of_pop hp, Box.anyEmpty_eq_false_iff.2 halive, if_neg Bool.false_ne_true]
    have hstatistics : s.leave.state.statistics =
        { s.state.statistics with backtracks := s.state.statistics.backtracks + 1 } := by
      rw [hleave]
      show ((s.restore e points).resume e.alternative).state.statistics = _
      rw [resume_state]
      split <;> rfl
    have hpoints : s.leave.choicePoints = points := by
      rw [hleave]
      exact resume_choicePoints (s.restore e points) e.alternative
    have hph : s.leave.phase = .filtering := by rw [hleave]
    refine
      { counters := ?_, others := ?_
        root := fun h => absurd (hph.symm.trans h) Phase.noConfusion
        ended := fun h => absurd (hph.symm.trans h) Phase.noConfusion
        finished := Bool.noConfusion }
    · rw [hph, hstatistics, depth, hpoints]
      have hdepth : s.depth = points.depth + 1 := ChoicePoints.depth_of_pop? hp
      rw [hdepth] at hcounters
      exact hcounters.left
    · rw [hpoints]
      intro e' he'
      exact hr.others e' (hlive ▸ List.mem_append_left _ he')

/-- **A move keeps the account.** -/
theorem step_reckoned (hn : n.WellFormed) (hs : s.Sound n) (hr : s.Reckoned found false)
    (h : s.step = .ok (t, a)) :
    t.Reckoned (found + (a.elim [] Answer.solutions).length) (a.elim false Answer.refuses) := by
  cases step_moves h with
  | close hph hempty =>
    rw [Box.anyEmpty_eq_false_iff.2 (hr.root hph)] at hempty
    cases hempty
  | enter hph =>
    have hcounters := hr.counters
    rw [hph] at hcounters
    exact
      { counters := hcounters, others := hr.others, root := Phase.noConfusion
        ended := Phase.noConfusion, finished := Bool.noConfusion }
  | fail hph hu =>
    exact
      { counters := hr.filtered hph hu, others := hr.others, root := Phase.noConfusion
        ended := Phase.noConfusion, finished := Bool.noConfusion }
  | leaf hph hu =>
    exact
      { counters := (hr.filtered hph hu).solved, others := hr.others, root := Phase.noConfusion
        ended := Phase.noConfusion, finished := Bool.noConfusion }
  | commit hd hpush => exact commit_reckoned hn hs hr hd hpush
  | overflow hd hpush => exact overflow_reckoned hr hd hpush
  | leave hl => exact leave_reckoned hr hl
  | stop => exact hr

/-- **A search keeps the account.**  One that has been refused a decision is over. -/
theorem solveOne_reckoned {a : Answer} (hn : n.WellFormed) (hs : s.Sound n)
    (hr : s.Reckoned found refused) (h : s.solveOne = .ok (a, t)) :
    t.Sound n ∧ t.Reckoned (found + a.solutions.length) (refused || a.refuses) := by
  cases refused with
  | true =>
    rw [solveOne_of_end (hr.finished rfl)] at h
    obtain ⟨rfl, rfl⟩ := Prod.mk.inj (Except.ok.inj h)
    exact ⟨hs, hr⟩
  | false =>
    fun_induction solveOne s with
    | case1 => cases h
    | case2 s u a hstep =>
      obtain ⟨rfl, rfl⟩ := Prod.mk.inj (Except.ok.inj h)
      exact ⟨(step_sound hn hs hstep).1, step_reckoned hn hs hr hstep⟩
    | case3 s u hstep ih => exact ih (step_sound hn hs hstep).1 h (step_reckoned hn hs hr hstep)

/-- A search that has come to an answer is not at a node that is still to be filtered. -/
theorem entered_of_solveOne {a : Answer} (h : s.solveOne = .ok (a, t)) : t.phase.entered = 0 := by
  cases a with
  | solution values =>
    have hph : t.phase = .solved := solveOne_solution h
    rw [hph]
    rfl
  | exhausted =>
    rw [solveOne_exhausted h]
    rfl
  | overflow =>
    rw [solveOne_overflow h]
    rfl

/-! ### Searching on -/

/-- Going on from one solver to the other keeps the account: it hands out so many solutions,
and `again` tells whether it is refused a decision. -/
structure Continues (n : Network) (s t : Solver σ) (count : Nat) (again : Bool) : Prop where
  keeps : s.Keeps t
  reckoned : ∀ {found refused}, s.Sound n → s.Reckoned found refused →
    t.Sound n ∧ t.Reckoned (found + count) (refused || again)

theorem Continues.refl (n : Network) (s : Solver σ) : Continues n s s 0 false where
  keeps := .refl s
  reckoned {_ refused} hs hr := ⟨hs, by rwa [Bool.or_false]⟩

theorem Continues.trans {again again' : Bool} (h : Continues n s t k again)
    (h' : Continues n t u l again') : Continues n s u (k + l) (again || again') where
  keeps := h.keeps.trans h'.keeps
  reckoned hs hr := by
    obtain ⟨ht, hrt⟩ := h.reckoned hs hr
    rw [← Nat.add_assoc, ← Bool.or_assoc]
    exact h'.reckoned ht hrt

theorem solveOne_continues {a : Answer} (hn : n.WellFormed) (h : s.solveOne = .ok (a, t)) :
    Continues n s t a.solutions.length a.refuses where
  keeps := solveOne_keeps h
  reckoned hs hr := solveOne_reckoned hn hs hr h

theorem next_continues {it it' : Solutions σ} {item : Solutions.Item} (hn : n.WellFormed)
    (h : it.next = .ok (item, it')) :
    Continues n it.solver it'.solver item.solutions.length item.refuses := by
  unfold Solutions.next at h
  split at h
  · obtain ⟨rfl, rfl⟩ := Prod.mk.inj (Except.ok.inj h)
    exact .refl n _
  · obtain ⟨⟨a, u⟩, hu, h⟩ := bind_eq_ok.1 h
    have hone := solveOne_continues hn hu
    cases a
    all_goals
      obtain ⟨rfl, rfl⟩ := Prod.mk.inj (Except.ok.inj h)
      exact hone

theorem take_continues {it it' : Solutions σ} {items : List Solutions.Item} (hn : n.WellFormed)
    (h : it.take k = .ok (items, it')) :
    Continues n it.solver it'.solver (items.flatMap Solutions.Item.solutions).length
      (items.any Solutions.Item.refuses) := by
  induction k generalizing it items with
  | zero =>
    obtain ⟨rfl, rfl⟩ := Prod.mk.inj (Except.ok.inj h)
    exact .refl n _
  | succ k ih =>
    obtain ⟨⟨item, rest⟩, hitem, h⟩ := bind_eq_ok.1 h
    obtain ⟨⟨others, it''⟩, hothers, h⟩ := bind_eq_ok.1 h
    obtain ⟨rfl, rfl⟩ := Prod.mk.inj (Except.ok.inj h)
    rw [List.flatMap_cons, List.length_append, List.any_cons]
    exact (next_continues hn hitem).trans (ih hothers)

theorem countFrom_continues {r : Except SearchError Nat} {seen seen' : List (List Int)}
    (hn : n.WellFormed)
    (h : s.countFrom (fun seen values => seen ++ [values]) seen k = .ok (r, seen', t)) :
    ∃ vs, seen' = seen ++ vs ∧ Continues n s t vs.length (Reply.count r vs).refuses := by
  fun_induction countFrom (fun seen values => seen ++ [values]) seen k s with
  | case1 => cases h
  | case2 seen k s u hu =>
    obtain ⟨rfl, rfl, rfl⟩ := by simpa using h
    exact ⟨[], (List.append_nil _).symm, solveOne_continues hn hu⟩
  | case3 seen k s capacity u hu =>
    obtain ⟨rfl, rfl, rfl⟩ := by simpa using h
    exact ⟨[], (List.append_nil _).symm, solveOne_continues hn hu⟩
  | case4 seen k s values u hu ih =>
    obtain ⟨vs, rfl, hrest⟩ := ih h
    have hsame : (Reply.count r (values :: vs)).refuses = (Reply.count r vs).refuses := by
      cases r <;> rfl
    refine ⟨values :: vs, List.append_assoc .., ?_⟩
    rw [List.length_cons, Nat.add_comm, hsame]
    exact (solveOne_continues hn hu).trans hrest

end Solver

/-- **A call that searches on keeps the account.** -/
theorem Call.run_continues {s t : Solver σ} {call : Call} {r : Reply} (hn : n.WellFormed)
    (hc : call.searches = true) (h : call.run s = .ok (r, t)) :
    Solver.Continues n s t r.solutions.length r.refuses := by
  cases call with
  | solveOne =>
    obtain ⟨⟨a, u⟩, hu, h⟩ := bind_eq_ok.1 h
    obtain ⟨rfl, rfl⟩ := Prod.mk.inj (Except.ok.inj h)
    rw [a.next_solutions, a.next_refuses]
    exact Solver.solveOne_continues hn hu
  | iterate count =>
    obtain ⟨⟨items, it⟩, hit, h⟩ := bind_eq_ok.1 h
    obtain ⟨rfl, rfl⟩ := Prod.mk.inj (Except.ok.inj h)
    exact Solver.take_continues hn hit
  | solveAllWith =>
    obtain ⟨⟨count, seen, u⟩, hu, h⟩ := bind_eq_ok.1 h
    obtain ⟨rfl, rfl⟩ := Prod.mk.inj (Except.ok.inj h)
    obtain ⟨vs, rfl, hcount⟩ := Solver.countFrom_continues hn hu
    exact hcount
  | findOne => cases hc
  | findAll => cases hc
  | minimize => cases hc
  | maximize => cases hc
  | backtrack => cases hc
  | reset => cases hc

theorem History.continues {s t : Solver σ} {es : List (Call × Reply)} (hn : n.WellFormed)
    (h : History s es t) (hes : ∀ e ∈ es, e.1.searches = true) :
    Solver.Continues n s t (es.flatMap fun e => e.2.solutions).length
      (es.any fun e => e.2.refuses) := by
  induction h with
  | nil => exact .refl n _
  | cons hrun _ ih =>
    obtain ⟨hc, hes⟩ := List.forall_mem_cons.1 hes
    rw [List.flatMap_cons, List.length_append, List.any_cons]
    exact (Call.run_continues hn hc hrun).trans (ih hes)

/-! ### The result -/

/-- **The counters account for the search tree.**  Take a fresh solver on which nothing has been
called but what searches on.  Whenever searching for one more solution then comes to a solution
or to the end,

* there are as many choice points as decisions that have not been taken back;
* there was one run to a fixpoint for the root, for each decision, for each choice point
  that was taken back, for each trial and for each value that shaving removed;
* the solutions that were counted are those that were handed out.

As long as the capacity has refused no decision, the failures and solutions are one for each
choice point that was taken back, one for each value that was removed and one more, and at
the end no choice point is left.  After a refusal the search is at its end; the refused node
is neither a failure nor a solution, and the stack stays full. -/
theorem statistics_account (hp : Built p) (hne : p.current.anyEmpty = false) (o : Options)
    (log : Log) (b : Brancher σ) (m : σ) {es : List (Call × Reply)} {s t : Solver σ} {a : Answer}
    (hes : History ((Solver.ofProblem p o log).withBrancher b m) es s)
    (hcalls : ∀ e ∈ es, e.1.searches = true) (h : s.solveOne = .ok (a, t))
    (ha : a.refuses = false) :
    let c := t.state.statistics
    t.depth + c.backtracks = c.choices ∧
    c.filters = 1 + c.choices + c.backtracks + c.shavingTrials + c.shavedValues ∧
    c.solutions = ((es.flatMap fun e => e.2.solutions) ++ a.solutions).length ∧
    ((∀ e ∈ es, e.2.refuses = false) →
      c.inconsistencies + c.solutions = 1 + c.backtracks + c.shavedValues ∧
      (a = .exhausted → t.depth = 0)) ∧
    ((∃ e ∈ es, e.2.refuses = true) →
      c.inconsistencies + c.solutions = c.backtracks + c.shavedValues ∧
      a = .exhausted ∧ t.depth = o.capacity) := by
  have hn := hp.sound.network
  have hbefore := hes.continues hn hcalls
  obtain ⟨hsound, hs⟩ := hbefore.reckoned (Solver.start_sound hp.sound o log b m)
    (Solver.start_reckoned hne o log b m)
  obtain ⟨-, ht⟩ := Solver.solveOne_reckoned hn hsound hs h
  rw [Nat.zero_add, ← List.length_append, Bool.false_or, ha, Bool.or_false] at ht
  rw [Bool.false_or] at hs
  obtain ⟨hdepth, hnodes, hleaves, hfound⟩ := ht.counters
  have hentered : t.phase.entered = 0 := Solver.entered_of_solveOne h
  rw [hentered] at hnodes hleaves
  refine ⟨hdepth, hnodes, hfound, fun hnone => ?_, fun hsome => ?_⟩
  · have hany : (es.any fun e => e.2.refuses) = false :=
      List.any_eq_false.2 fun e he => Bool.not_eq_true _ ▸ hnone e he
    rw [hany] at hleaves ht
    refine ⟨hleaves, ?_⟩
    rintro rfl
    exact ht.ended (Solver.solveOne_exhausted h)
  · have hany : (es.any fun e => e.2.refuses) = true := List.any_eq_true.2 hsome
    rw [hany] at hleaves hs
    rw [Solver.solveOne_of_end (hs.finished rfl)] at h
    obtain ⟨rfl, rfl⟩ := Prod.mk.inj (Except.ok.inj h)
    refine ⟨?_, rfl, ?_⟩
    · simp only [Bool.toNat_true] at hleaves
      omega
    · rw [hs.ended (hs.finished rfl), if_pos rfl, hbefore.keeps.capacity]
      rfl

/-- In `Problem.either` shaving removes two values at the root, and a decision separates the two
solutions; its choice point is taken back, and then there is nothing. -/
theorem statistics_account_either :
    ∃ s t, History (Solver.ofProblem .either { Options.default with consistency := .shaving } .off)
        [(.solveOne, .answer (.ok (some [2, 0, 1]))),
          (.solveOne, .answer (.ok (some [2, 1, 0])))] s ∧
      s.solveOne = .ok (.exhausted, t) ∧
      let c := t.state.statistics
      c.choices = 1 ∧ c.shavedValues = 2 ∧ t.depth = 0 ∧ c.backtracks = 1 ∧ c.solutions = 2 ∧
        c.filters = 5 + c.shavingTrials ∧ c.inconsistencies = 2 := by
  let o := { Options.default with consistency := .shaving }
  let es : List (Call × Reply) := [(.solveOne, .answer (.ok (some [2, 0, 1]))),
    (.solveOne, .answer (.ok (some [2, 1, 0])))]
  have hrun : ∃ s, Call.runAll (Solver.ofProblem .either o .off) (es.map (·.1)) =
      .ok (es.map (·.2), s) ∧ ∃ t, s.solveOne = .ok (.exhausted, t) ∧
        (t.state.statistics.choices = 1 ∧ t.state.statistics.shavedValues = 2) := by
    decide +kernel
  obtain ⟨s, hs, t, ht, hchoices, hshaved⟩ := hrun
  have hhistory : History (Solver.ofProblem .either o .off) es s := .of_runAll hs
  obtain ⟨hdepth, hfilters, hsolutions, hleaves, -⟩ := statistics_account .either
    (by decide +kernel) o .off (Strategy.default Problem.either.current).brancher () hhistory
    (by decide) ht rfl
  obtain ⟨hleaves, hbottom⟩ := hleaves (by decide)
  have hbottom := hbottom rfl
  have hsolutions : t.state.statistics.solutions = 2 := hsolutions
  refine ⟨s, t, hhistory, ht, hchoices, hshaved, hbottom, ?_, hsolutions, ?_, ?_⟩ <;> omega

/-- With room for one choice point the search for two truth values is refused its second
decision.  The next answer is that nothing is left, with the choice point still on the stack
and the refused node neither a failure nor a solution. -/
theorem statistics_of_refused :
    let p := Problem.ofIntervals [⟨0, 1⟩, ⟨0, 1⟩]
    Built p ∧ p.current.anyEmpty = false ∧
      ∃ s t, History (Solver.ofProblem p { Options.default with capacity := 1 } .off)
          [(.solveOne, .answer (.error (.choicePointOverflow 1)))] s ∧
        s.solveOne = .ok (.exhausted, t) ∧
        let c := t.state.statistics
        t.depth = 1 ∧ c.inconsistencies + c.solutions ≠ 1 + c.backtracks + c.shavedValues := by
  intro p
  let z := Solver.ofProblem p { Options.default with capacity := 1 } .off
  have hrefused : ∃ s, Call.solveOne.run z = .ok (.answer (.error (.choicePointOverflow 1)), s) ∧
      ∃ t, s.solveOne = .ok (.exhausted, t) ∧ (t.depth = 1 ∧
        t.state.statistics.inconsistencies + t.state.statistics.solutions ≠
          1 + t.state.statistics.backtracks + t.state.statistics.shavedValues) := by
    decide +kernel
  obtain ⟨s, hs, t, ht, hdepth, hcounts⟩ := hrefused
  exact ⟨.ofIntervals (by decide), by decide +kernel, s, t, .cons hs .nil, ht, hdepth, hcounts⟩

end BoundsSolver
