/-
# The search

A solver searches depth first.  At every node it propagates, and shaves if asked
to; a node in which every shared domain is fixed is a solution.  Otherwise the
brancher decides, the other side of the decision is left as a choice point, and
the search goes on below.  A failed node and a solution are left by taking back
the last choice point whose other side still has a value in every shared domain.

The search moves by `step`.  `step_progress` is why it always comes to an
answer: a decision splits a box into two whose weights together are less, and
each node that is left gives up its weight.
-/

import BoundsSolver.Problem.Basic
import BoundsSolver.Search.Brancher
import BoundsSolver.Search.ChoicePoints
import BoundsSolver.Search.Shaving

namespace BoundsSolver

/-- What holds at every node of a search. -/
inductive Consistency where
  /-- No propagator narrows the box any further. -/
  | bounds
  /-- Moreover both bounds of each shared domain survive a trial. -/
  | shaving
  deriving DecidableEq, Repr, Inhabited

/-- How a solver behaves. -/
structure Options where
  consistency : Consistency
  /-- The number of choice points a search may use. -/
  capacity : Nat
  seed : UInt64
  deriving DecidableEq, Repr

def Options.default : Options := ⟨.bounds, 10000, 42⟩

instance : Inhabited Options := ⟨.default⟩

/-- Where a search stands. -/
inductive Phase where
  /-- Nothing has been searched. -/
  | ready
  /-- The current node is to be propagated. -/
  | filtering
  /-- The current node is a solution. -/
  | solved
  /-- The current node has failed. -/
  | backtrack
  /-- There is nothing left to search. -/
  | exhausted
  deriving DecidableEq, Repr, Inhabited

def Phase.name : Phase → String
  | .ready => "ready"
  | .filtering => "filtering"
  | .solved => "solved"
  | .backtrack => "backtrack"
  | .exhausted => "exhausted"

/-- A search for the solutions of a problem, with a brancher whose state has type `σ`. -/
structure Solver (σ : Type) where
  network : Network
  options : Options
  brancher : Brancher σ
  /-- The state of the brancher. -/
  memory : σ
  generator : Generator
  phase : Phase
  state : State
  choicePoints : ChoicePoints
  /-- The bound that every choice point has been tightened to while optimising. -/
  objective : Option Branch

/-- What a search can come to. -/
inductive Answer where
  /-- A value for every variable. -/
  | solution (values : List Int)
  | exhausted
  /-- The next decision needs more choice points than there may be. -/
  | overflow (capacity : Nat)
  deriving DecidableEq, Repr

/-- An answer as the next solution, none, or the reason why there may be more. -/
def Answer.next : Answer → Except SearchError (Option (List Int))
  | .solution values => .ok (some values)
  | .exhausted => .ok none
  | .overflow capacity => .error (.choicePointOverflow capacity)

namespace Solver

variable {σ τ : Type}

/-- A solver that follows the default strategy. -/
def ofProblem (p : Problem) (o : Options) (log : Log) : Solver Unit :=
  let strategy := Strategy.default p.current
  { network := p.network
    options := o
    brancher := strategy.brancher
    memory := ()
    generator := .ofSeed o.seed
    phase := .ready
    state :=
      { box := p.current
        entailed := .ofList (List.replicate p.numPropagators false)
        triggered := .ofSize p.numPropagators
        statistics := .zero
        log := log.addAll strategy.advice }
    choicePoints := .ofCapacity o.capacity
    objective := none }

/-- The same solver with another brancher. -/
def withBrancher (s : Solver σ) (b : Brancher τ) (memory : τ) : Solver τ :=
  { s with brancher := b, memory }

/-- The problem with the current intervals of the shared domains. -/
def problem (s : Solver σ) : Problem := ⟨s.network, s.state.box⟩

/-- The number of choice points. -/
def depth (s : Solver σ) : Nat := s.choicePoints.depth

/-- Gives the shared domains their initial intervals back and forgets the search; the
statistics, the generator and the state of the brancher are kept. -/
def reset (s : Solver σ) : Solver σ :=
  { s with
    phase := .ready
    state :=
      { s.state with
        box := s.network.initial
        entailed := s.state.entailed.map fun _ => false
        triggered := s.state.triggered.clear }
    choicePoints := s.choicePoints.clear
    objective := none }

/-- Establishes the consistency of the options at a node. -/
def filter (n : Network) (c : Consistency) (s : State) : Checked (Bool × State) :=
  match propagate n s with
  | .error f => .error f
  | .ok (false, t) => .ok (false, t)
  | .ok (true, t) =>
    match c with
    | .bounds => .ok (true, t)
    | .shaving => shave n t

/-- Enters the root of the search. -/
def enter (s : Solver σ) : Solver σ :=
  if s.state.box.anyEmpty then { s with phase := .exhausted }
  else { s with phase := .filtering, state := s.state.triggerAll s.network.propagators.keys }

/-- Hands out the current node as a solution. -/
def solve (s : Solver σ) (values : List Int) : Solver σ :=
  let state := s.state.count fun c => { c with solutions := c.solutions + 1 }
  { s with
    phase := .solved
    memory := s.brancher.onSolution s.memory values
    state := state.tell (.solution state.statistics.solutions s.depth) }

/-- Goes down the branch of a decision; the choice point for the other one is on the
stack already. -/
def commit (s : Solver σ) (d : Decision) (cs : ChoicePoints) : Solver σ :=
  let state := s.state.count fun c => { c with choices := c.choices + 1 }.recordDepth cs.depth
  let state := state.tell (.decision d cs.depth)
  { s with choicePoints := cs, state := state.narrow s.network d.commitment }

/-- Takes a decision, which has to split its shared domain. -/
def branchOn (s : Solver σ) (d : Decision) : Checked (Solver σ × Option Answer) := do
  let i ← s.state.box.get d.domain
  if d.splits i then
    let other ← d.alternative
    match s.choicePoints.push ⟨s.state.box, s.state.entailed, other⟩ with
    | .error (.choicePointOverflow capacity) =>
      return ({ s with phase := .exhausted }, some (.overflow capacity))
    | .ok cs => return (s.commit d cs, none)
  else .error (.noSplit d i)

/-- Asks the brancher for a decision and takes it, or a decision of its own. -/
def takeDecision (s : Solver σ) (own : Decision) : Checked (Solver σ × Option Answer) := do
  let (d, memory, generator) ← s.brancher.next s.memory s.state.box s.generator
  { s with memory, generator }.branchOn (d.getD own)

/-- Goes on from a consistent node. -/
def advance (s : Solver σ) : Checked (Solver σ × Option Answer) :=
  match s.state.box.firstUnfixed? with
  | some (d, i) => s.takeDecision (.atMost d i.min)
  | none => do
    let values ← s.network.lowest s.state.box
    return (s.solve values, some (.solution values))

/-- Enters the branch that a choice point left, and triggers what that and the
objective may have changed. -/
def resume (s : Solver σ) (branch : Branch) : Solver σ :=
  let state := s.state.tell (.backtracked s.depth)
  let state := state.wake s.network branch.domain branch.bound
  match s.objective with
  | none => { s with state }
  | some o => { s with state := state.wake s.network o.domain o.bound }

/-- Replaces the node by the other branch of a choice point. -/
def restore (s : Solver σ) (c : ChoicePoint) (cs : ChoicePoints) : Solver σ :=
  let state := s.state.count fun k => { k with backtracks := k.backtracks + 1 }
  { s with
    choicePoints := cs
    memory := s.brancher.onBacktrack s.memory
    state := { state with box := c.otherBox, entailed := c.entailed } }

/-- Takes choice points back, up to the first whose other branch keeps a value in every
shared domain, and enters it; the answer is false if there is none. -/
def backtrack (s : Solver σ) : Bool × Solver σ :=
  match _e : s.choicePoints.pop? with
  | none => (false, s)
  | some (c, cs) =>
    if c.otherBox.anyEmpty then (s.restore c cs).backtrack
    else (true, (s.restore c cs).resume c.alternative)
termination_by s.choicePoints.depth
decreasing_by
  have := ChoicePoints.depth_of_pop? _e
  simp only [restore]; omega

/-- Leaves a node for what is pending, if there is anything. -/
def leave (s : Solver σ) : Solver σ :=
  match s.backtrack with
  | (true, t) => { t with phase := .filtering }
  | (false, t) => { t with phase := .exhausted }

/-- One move of the search, with an answer if it has come to one. -/
def step (s : Solver σ) : Checked (Solver σ × Option Answer) :=
  match s.phase with
  | .ready => .ok (s.enter, none)
  | .filtering =>
    match filter s.network s.options.consistency s.state with
    | .error f => .error f
    | .ok (false, t) => .ok ({ s with phase := .backtrack, state := t }, none)
    | .ok (true, t) => { s with state := t }.advance
  | .solved | .backtrack => .ok (s.leave, none)
  | .exhausted => .ok (s, some .exhausted)

/-- The weights of the other branches of all choice points. -/
def pending (s : Solver σ) : Nat := ChoicePoint.totalWeight s.choicePoints.live

/-- The weight of everything that is still to be searched. -/
def weight (s : Solver σ) : Nat :=
  s.pending +
    match s.phase with
    | .ready | .filtering => s.state.box.weight
    | _ => 0

/-- Whether a move that keeps the weight is still to come. -/
def rank (s : Solver σ) : Nat :=
  match s.phase with
  | .ready | .solved | .backtrack => 1
  | _ => 0

theorem rank_le_one (s : Solver σ) : s.rank ≤ 1 := by
  unfold rank
  split <;> omega

theorem filter_totalSize_le {n : Network} {c : Consistency} {s t : State}
    (h : filter n c s = .ok (true, t)) : t.box.totalSize ≤ s.box.totalSize := by
  unfold filter at h
  split at h
  · cases h
  · simp at h
  · rename_i u hu
    have hle := propagate_totalSize_le hu
    split at h
    · obtain rfl : u = t := by simpa using h
      exact hle
    · exact Nat.le_trans (shave_totalSize_le h) hle

/-- Both branches of a decision have fewer values than the box. -/
theorem totalSize_of_splits {b : Box} {d : Decision} {i : Interval} {other : Branch}
    (hi : b.get d.domain = .ok i) (hs : d.splits i = true) (ho : d.alternative = .ok other) :
    Box.totalSize (b.tighten d.commitment) < b.totalSize ∧
      Box.totalSize (b.tighten other) < b.totalSize := by
  have he := Keyed.entry_of_get? (Keyed.get_eq_ok.1 hi)
  cases d with
  | atMost d v =>
    obtain ⟨w, hw, ho⟩ := bind_eq_ok.1 ho
    obtain ⟨_, rfl⟩ := Width.add_eq_ok.1 hw
    obtain rfl := Except.ok.inj ho
    simp only [Decision.splits, decide_eq_true_eq] at hs
    subst he
    refine ⟨Box.totalSize_tighten_lt ?_ ?_, Box.totalSize_tighten_lt ?_ ?_⟩
    · exact Int.lt_of_le_of_lt hs.1 hs.2
    · intro e
      have := congrArg Interval.max e
      simp only [Interval.tighten, Interval.tightenMax_max, Decision.domain] at this hs
      omega
    · exact Int.lt_of_le_of_lt hs.1 hs.2
    · intro e
      have := congrArg Interval.min e
      simp only [Interval.tighten, Interval.tightenMin_min, Decision.domain] at this hs
      omega
  | atLeast d v =>
    obtain ⟨w, hw, ho⟩ := bind_eq_ok.1 ho
    obtain ⟨_, rfl⟩ := Width.sub_eq_ok.1 hw
    obtain rfl := Except.ok.inj ho
    simp only [Decision.splits, decide_eq_true_eq] at hs
    subst he
    refine ⟨Box.totalSize_tighten_lt ?_ ?_, Box.totalSize_tighten_lt ?_ ?_⟩
    · exact Int.lt_of_lt_of_le hs.1 hs.2
    · intro e
      have := congrArg Interval.min e
      simp only [Interval.tighten, Interval.tightenMin_min, Decision.domain] at this hs
      omega
    · exact Int.lt_of_lt_of_le hs.1 hs.2
    · intro e
      have := congrArg Interval.max e
      simp only [Interval.tighten, Interval.tightenMax_max, Decision.domain] at this hs
      omega

/-- A decision gives up weight, and an overflow all of the node. -/
theorem branchOn_weight {s t : Solver σ} {d : Decision} {a : Option Answer}
    (h : s.branchOn d = .ok (t, a)) (hp : s.phase = .filtering) : t.weight < s.weight := by
  obtain ⟨i, hi, h⟩ := bind_eq_ok.1 h
  split at h
  · rename_i hs
    obtain ⟨other, ho, h⟩ := bind_eq_ok.1 h
    have hlt := totalSize_of_splits hi hs ho
    split at h
    · obtain ⟨rfl, rfl⟩ := by simpa [pure, Except.pure] using h
      have := s.state.box.weight_pos
      simp only [weight, pending, hp]
      omega
    · rename_i cs hcs
      obtain ⟨rfl, rfl⟩ := by simpa [pure, Except.pure] using h
      have := Box.weight_add_lt hlt.1 hlt.2
      simp only [weight, pending, commit, hp, ChoicePoints.live_push hcs,
        ChoicePoint.totalWeight_append, ChoicePoint.totalWeight, ChoicePoint.otherBox]
      show _ + _ + Box.weight (s.state.box.tighten d.commitment) < _
      omega
  · cases h

theorem takeDecision_weight {s t : Solver σ} {d : Decision} {a : Option Answer}
    (h : s.takeDecision d = .ok (t, a)) (hp : s.phase = .filtering) : t.weight < s.weight := by
  obtain ⟨⟨d', memory, generator⟩, _, h⟩ := bind_eq_ok.1 h
  exact branchOn_weight (s := { s with memory, generator }) h hp

/-- Going on from a node gives up weight. -/
theorem advance_weight {s t : Solver σ} {a : Option Answer}
    (h : s.advance = .ok (t, a)) (hp : s.phase = .filtering) : t.weight < s.weight := by
  unfold advance at h
  split at h
  · exact takeDecision_weight h hp
  · obtain ⟨values, _, h⟩ := bind_eq_ok.1 h
    obtain ⟨rfl, _⟩ := by simpa [pure, Except.pure] using h
    have := s.state.box.weight_pos
    simp only [weight, pending, solve, hp]
    omega

/-- What a backtrack enters was pending before. -/
theorem backtrack_weight {s t : Solver σ} {b : Bool} (h : s.backtrack = (b, t)) :
    t.pending + (if b then t.state.box.weight else 0) ≤ s.pending := by
  fun_induction backtrack s with
  | case1 s =>
    obtain ⟨rfl, rfl⟩ := by simpa using h
    simp
  | case2 s c cs he _ ih =>
    have := ih h
    simp only [pending, restore, ChoicePoints.live_pop? he, ChoicePoint.totalWeight_append,
      ChoicePoint.totalWeight] at *
    omega
  | case3 s c cs he _ =>
    obtain ⟨rfl, rfl⟩ := by simpa using h
    have hbox : ((s.restore c cs).resume c.alternative).state.box = c.otherBox := by
      unfold resume; dsimp only; split <;> rfl
    have hcs : ((s.restore c cs).resume c.alternative).choicePoints = cs := by
      unfold resume; dsimp only; split <;> rfl
    simp [pending, hbox, hcs, ChoicePoints.live_pop? he, ChoicePoint.totalWeight]

theorem leave_progress {s : Solver σ} (hw : s.weight = s.pending) (hr : s.rank = 1) :
    s.leave.weight ≤ s.weight ∧ s.leave.rank < s.rank := by
  unfold leave
  split
  · rename_i t ht
    have := backtrack_weight ht
    simp only [if_true] at this
    exact ⟨by rw [hw]; exact this, by rw [hr]; exact Nat.zero_lt_one⟩
  · rename_i t ht
    have := backtrack_weight ht
    simp only [Bool.false_eq_true, if_false] at this
    exact ⟨by rw [hw]; exact this, by rw [hr]; exact Nat.zero_lt_one⟩

/-- **Every move gives up weight or is the last that does not.** -/
theorem step_progress {s t : Solver σ} (h : s.step = .ok (t, none)) :
    t.weight < s.weight ∨ t.weight ≤ s.weight ∧ t.rank < s.rank := by
  unfold step at h
  split at h
  · rename_i hp
    obtain rfl := by simpa using h
    right
    unfold enter
    split <;> simp [weight, rank, pending, hp, State.triggerAll]
  · rename_i hp
    left
    split at h
    · cases h
    · obtain rfl := by simpa using h
      have := s.state.box.weight_pos
      simp only [weight, pending, hp]
      omega
    · rename_i u hu
      have hlt := advance_weight (s := { s with state := u }) h hp
      have hle := Box.weight_le (filter_totalSize_le hu)
      simp only [weight, pending, hp] at hlt ⊢
      omega
  · rename_i hp
    obtain rfl := by simpa using h
    exact .inr (leave_progress (by simp [weight, hp]) (by simp [rank, hp]))
  · rename_i hp
    obtain rfl := by simpa using h
    exact .inr (leave_progress (by simp [weight, hp]) (by simp [rank, hp]))
  · cases h

/-- A solution gives up the weight of its node. -/
theorem step_solution_weight {s t : Solver σ} {values : List Int}
    (h : s.step = .ok (t, some (.solution values))) : t.weight < s.weight := by
  unfold step at h
  split at h
  · cases h
  · rename_i hp
    split at h
    · cases h
    · simp at h
    · rename_i u hu
      have hlt := advance_weight (s := { s with state := u }) h hp
      have hle := Box.weight_le (filter_totalSize_le hu)
      simp only [weight, pending, hp] at hlt ⊢
      omega
  · cases h
  · cases h
  · cases h

end Solver
end BoundsSolver
