/-
# Calls in any order

A `History` is a row of calls on one solver with what each of them returned, none of which
stopped with a fault.  The calls may come in any order: after an error, in the middle of an
enumeration, or with choice points taken back by the caller.

Between calls the solver is idle (`History.idle`), so that calls without a reset among them
hand out nothing twice, and a search that has come to its end stays there until a reset
(`Call.run_exhausted`).  `calls_safe` puts this together with the assertions of the search:
it changes its phase as it may, and propagation leaves nothing triggered.
-/

import BoundsSolver.Proofs.Search.Handing

namespace BoundsSolver

/-- What can be called on a solver. -/
inductive Call where
  | solveOne
  /-- So many items from one iterator over the solutions. -/
  | iterate (count : Nat)
  | solveAllWith
  | findOne
  | findAll
  | minimize (x : VariableId) (mode : OptimisationMode)
  | maximize (x : VariableId) (mode : OptimisationMode)
  | backtrack
  | reset
  deriving DecidableEq, Repr

/-- What a call returns. -/
inductive Reply where
  | answer (r : Optimum)
  | items (is : List Solutions.Item)
  /-- The number of solutions, and those that the caller was handed one by one. -/
  | count (r : Except SearchError Nat) (seen : List (List Int))
  | all (r : Except SearchError (List (List Int)))
  | moved (found : Bool)
  | done
  deriving DecidableEq

/-- The solutions that a call hands out. -/
def Reply.solutions : Reply → List (List Int)
  | .answer r => r.solutions
  | .items is => is.flatMap Solutions.Item.solutions
  | .count _ seen => seen
  | .all (.ok solutions) => solutions
  | .all (.error _) | .moved _ | .done => []

/-- The phase of a search may change in this way: it does not go on once it is exhausted, and
finds its solutions at nodes. -/
structure Phase.Admits (before after : Phase) : Prop where
  filtering : after = .filtering → before ≠ .exhausted
  solved : after = .solved → before = .filtering

variable {σ : Type}

namespace Call

/-- The call starts from the initial intervals again. -/
def resets : Call → Bool
  | .findOne | .findAll | .minimize .. | .maximize .. | .reset => true
  | .solveOne | .iterate _ | .solveAllWith | .backtrack => false

/-- What a call does. -/
def run (s : Solver σ) : Call → Checked (Reply × Solver σ)
  | .solveOne => do
    let (a, t) ← s.solveOne
    return (.answer a.next, t)
  | .iterate count => do
    let (is, it) ← (Solutions.of s).take count
    return (.items is, it.solver)
  | .solveAllWith => do
    let (r, seen, t) ← s.solveAllWith (fun seen values => seen ++ [values]) []
    return (.count r seen, t)
  | .findOne => do
    let (r, t) ← s.findOne
    return (.answer r, t)
  | .findAll => do
    let (r, t) ← s.findAll
    return (.all r, t)
  | .minimize x mode => do
    let (r, t) ← s.minimize x mode
    return (.answer r, t)
  | .maximize x mode => do
    let (r, t) ← s.maximize x mode
    return (.answer r, t)
  | .backtrack =>
    let (found, t) := s.backtrack
    .ok (.moved found, t)
  | .reset => .ok (.done, s.reset)

/-- Several calls, each with what it returns. -/
def runAll (s : Solver σ) : List Call → Checked (List Reply × Solver σ)
  | [] => .ok ([], s)
  | c :: cs => do
    let (r, t) ← c.run s
    let (rs, u) ← runAll t cs
    return (r :: rs, u)

end Call

/-- The calls on a solver, each with what it returned, and what they made of the solver. -/
inductive History : Solver σ → List (Call × Reply) → Solver σ → Prop
  | nil {s : Solver σ} : History s [] s
  | cons {s t u : Solver σ} {c : Call} {r : Reply} {es : List (Call × Reply)} :
    c.run s = .ok (r, t) → History t es u → History s ((c, r) :: es) u

variable {p : Problem} {n : Network} {s t : Solver σ} {c : Call} {r : Reply}
  {es pre post mid : List (Call × Reply)} {e e' : Call × Reply} {kept : Bool} {u v : State}
  {a : Option Answer}

/-- Calls that are made one after the other and come to no fault are a history. -/
theorem History.of_runAll {cs : List Call} {rs : List Reply}
    (h : Call.runAll s cs = .ok (rs, t)) : History s (cs.zip rs) t := by
  induction cs generalizing s rs with
  | nil =>
    obtain ⟨rfl, rfl⟩ := Prod.mk.inj (Except.ok.inj h)
    exact .nil
  | cons c cs ih =>
    obtain ⟨⟨r, u⟩, hr, h⟩ := bind_eq_ok.1 h
    obtain ⟨⟨rs', t'⟩, hrs, h⟩ := bind_eq_ok.1 h
    obtain ⟨rfl, rfl⟩ := Prod.mk.inj (Except.ok.inj h)
    exact .cons hr (ih hrs)

/-! ### One call -/

theorem Answer.next_solutions (a : Answer) : (Reply.answer a.next).solutions = a.solutions := by
  cases a <;> rfl

/-- **A call hands out what was pending before it**, or at the root if it resets. -/
theorem Call.run_serves (hn : n.WellFormed) (hs : s.Idle n) (h : c.run s = .ok (r, t)) :
    Solver.Serves n (if c.resets then s.reset else s) t r.solutions := by
  cases c with
  | solveOne =>
    obtain ⟨⟨a, u⟩, hu, h⟩ := bind_eq_ok.1 h
    obtain ⟨rfl, rfl⟩ := Prod.mk.inj (Except.ok.inj h)
    rw [a.next_solutions]
    exact Solver.solveOne_serves hn hs hu
  | iterate count =>
    obtain ⟨⟨is, it⟩, hit, h⟩ := bind_eq_ok.1 h
    obtain ⟨rfl, rfl⟩ := Prod.mk.inj (Except.ok.inj h)
    exact Solver.take_serves hn hs hit
  | solveAllWith =>
    obtain ⟨⟨count, seen, u⟩, hu, h⟩ := bind_eq_ok.1 h
    obtain ⟨rfl, rfl⟩ := Prod.mk.inj (Except.ok.inj h)
    obtain ⟨vs, rfl, hserves⟩ := Solver.countFrom_serves hn hs hu
    exact hserves
  | findOne =>
    obtain ⟨⟨r', u⟩, hu, h⟩ := bind_eq_ok.1 h
    obtain ⟨rfl, rfl⟩ := Prod.mk.inj (Except.ok.inj h)
    obtain ⟨⟨a, u'⟩, ha, hu⟩ := bind_eq_ok.1 hu
    obtain ⟨rfl, rfl⟩ := Prod.mk.inj (Except.ok.inj hu)
    rw [a.next_solutions]
    exact Solver.solveOne_serves hn hs.reset ha
  | findAll =>
    obtain ⟨⟨r', u⟩, hu, h⟩ := bind_eq_ok.1 h
    obtain ⟨rfl, rfl⟩ := Prod.mk.inj (Except.ok.inj h)
    obtain ⟨r'', hr, hu⟩ := bind_eq_ok.1 hu
    obtain ⟨rfl, rfl⟩ := Prod.mk.inj (Except.ok.inj hu)
    obtain ⟨vs, hsolutions, hserves⟩ := Solver.collectOnto_serves hn hs.reset [] none
    cases r'' with
    | error => exact hserves.keep_quiet
    | ok solutions =>
      have hall : solutions = (s.reset.collect none).solutions := by
        unfold Solver.Collected.outcome at hr
        split at hr
        · exact (Except.ok.inj (Except.ok.inj hr)).symm
        · cases hr
        · cases hr
      rw [hall]
      exact (hsolutions.trans (List.nil_append vs)) ▸ hserves
  | minimize x mode =>
    obtain ⟨⟨r', u⟩, hu, h⟩ := bind_eq_ok.1 h
    obtain ⟨rfl, rfl⟩ := Prod.mk.inj (Except.ok.inj h)
    exact (Solver.optimise_settles hn hs hu).serves hs.sound.network
  | maximize x mode =>
    obtain ⟨⟨r', u⟩, hu, h⟩ := bind_eq_ok.1 h
    obtain ⟨rfl, rfl⟩ := Prod.mk.inj (Except.ok.inj h)
    exact (Solver.optimise_settles hn hs hu).serves hs.sound.network
  | backtrack =>
    obtain ⟨rfl, rfl⟩ := Prod.mk.inj (Except.ok.inj h)
    exact Solver.backtrack_serves hn hs rfl
  | reset =>
    obtain ⟨rfl, rfl⟩ := Prod.mk.inj (Except.ok.inj h)
    exact .refl hs.reset

theorem Solver.solveOne_of_end (h : s.phase = .exhausted) : s.solveOne = .ok (.exhausted, s) := by
  refine Solver.solveOne_of_answer ?_
  unfold Solver.step
  rw [h]

theorem Solutions.take_of_end {it it' : Solutions σ} {is : List Solutions.Item} {k : Nat}
    (hph : it.solver.phase = .exhausted) (h : it.take k = .ok (is, it')) :
    it'.solver.phase = .exhausted := by
  induction k generalizing it is with
  | zero =>
    obtain ⟨-, rfl⟩ := Prod.mk.inj (Except.ok.inj h)
    exact hph
  | succ k ih =>
    obtain ⟨⟨i, rest⟩, hi, h⟩ := bind_eq_ok.1 h
    obtain ⟨⟨others, it''⟩, hothers, h⟩ := bind_eq_ok.1 h
    obtain ⟨-, rfl⟩ := Prod.mk.inj (Except.ok.inj h)
    refine ih ?_ hothers
    unfold Solutions.next at hi
    split at hi
    · obtain ⟨-, rfl⟩ := Prod.mk.inj (Except.ok.inj hi)
      exact hph
    · rw [Solver.solveOne_of_end hph] at hi
      obtain ⟨-, rfl⟩ := Prod.mk.inj (Except.ok.inj hi)
      exact hph

/-- **A search that has come to its end stays there** until a reset. -/
theorem Call.run_exhausted (hn : n.WellFormed) (hs : s.Idle n) (hph : s.phase = .exhausted)
    (hc : c.resets = false) (h : c.run s = .ok (r, t)) :
    t.phase = .exhausted ∧ (c = .solveOne → r = .answer (.ok none)) := by
  cases c with
  | solveOne =>
    obtain ⟨⟨a, u⟩, hu, h⟩ := bind_eq_ok.1 h
    rw [Solver.solveOne_of_end hph] at hu
    obtain ⟨rfl, rfl⟩ := Prod.mk.inj (Except.ok.inj hu)
    obtain ⟨rfl, rfl⟩ := Prod.mk.inj (Except.ok.inj h)
    exact ⟨hph, fun _ => rfl⟩
  | iterate count =>
    obtain ⟨⟨is, it⟩, hit, h⟩ := bind_eq_ok.1 h
    obtain ⟨rfl, rfl⟩ := Prod.mk.inj (Except.ok.inj h)
    have hbefore : (Solutions.of s).solver.phase = .exhausted := hph
    exact ⟨Solutions.take_of_end hbefore hit, fun hother => Call.noConfusion hother⟩
  | solveAllWith =>
    obtain ⟨⟨count, seen, u⟩, hu, h⟩ := bind_eq_ok.1 h
    rw [Solver.solveAllWith, Solver.countFrom_of_exhausted (Solver.solveOne_of_end hph)] at hu
    obtain ⟨rfl, rfl⟩ := Prod.mk.inj (Except.ok.inj h)
    obtain ⟨-, -, rfl⟩ := by simpa using hu
    exact ⟨hph, fun hother => Call.noConfusion hother⟩
  | backtrack =>
    obtain ⟨rfl, rfl⟩ := Prod.mk.inj (Except.ok.inj h)
    obtain ⟨-, hsame, -⟩ := Solver.backtrack_sound hn hs.sound hs.away rfl
    exact ⟨hsame.trans hph, fun hother => Call.noConfusion hother⟩
  | findOne => cases hc
  | findAll => cases hc
  | minimize => cases hc
  | maximize => cases hc
  | reset => cases hc

/-- A search comes to its end when it hands out no solution. -/
theorem Call.solveOne_ends (hr : ∀ values, r ≠ .answer (.ok (some values)))
    (h : Call.solveOne.run s = .ok (r, t)) : t.phase = .exhausted := by
  obtain ⟨⟨a, u⟩, hu, h⟩ := bind_eq_ok.1 h
  obtain ⟨rfl, rfl⟩ := Prod.mk.inj (Except.ok.inj h)
  cases a with
  | solution values => exact absurd rfl (hr values)
  | exhausted => exact Solver.solveOne_exhausted hu
  | overflow => exact Solver.solveOne_overflow hu

/-! ### Rows of calls -/

namespace History

theorem split (h : History s (pre ++ post) t) : ∃ u, History s pre u ∧ History u post t := by
  induction pre generalizing s with
  | nil => exact ⟨s, .nil, h⟩
  | cons e pre ih =>
    cases h with
    | cons hrun hrest =>
      obtain ⟨u, hpre, hpost⟩ := ih hrest
      exact ⟨u, .cons hrun hpre, hpost⟩

theorem idle (h : History s es t) (hn : n.WellFormed) (hs : s.Idle n) : t.Idle n := by
  induction h with
  | nil => exact hs
  | cons hrun _ ih => exact ih (Call.run_serves hn hs hrun).idle

/-- **Calls without a reset among them hand out what was pending before them.** -/
theorem serves (h : History s es t) (hn : n.WellFormed) (hs : s.Idle n)
    (hes : ∀ e ∈ es, e.1.resets = false) :
    Solver.Serves n s t (es.flatMap fun e => e.2.solutions) := by
  induction h with
  | nil => exact .refl hs
  | @cons s t u c r es hrun _ ih =>
    obtain ⟨hc, hes⟩ := List.forall_mem_cons.1 hes
    have hserves := Call.run_serves hn hs hrun
    rw [if_neg (Bool.eq_false_iff.1 hc)] at hserves
    exact hserves.trans (ih hserves.idle hes)

theorem exhausted (h : History s es t) (hn : n.WellFormed) (hs : s.Idle n)
    (hph : s.phase = .exhausted) (hes : ∀ e ∈ es, e.1.resets = false) : t.phase = .exhausted := by
  induction h with
  | nil => exact hph
  | cons hrun _ ih =>
    obtain ⟨hc, hes⟩ := List.forall_mem_cons.1 hes
    exact ih (Call.run_serves hn hs hrun).idle (Call.run_exhausted hn hs hph hc hrun).1 hes

end History

/-! ### Assertions -/

/-- A move changes the phase as it may. -/
theorem Solver.step_admits (h : s.step = .ok (t, a)) : s.phase.Admits t.phase := by
  have hleave (hl : s.Left) : s.phase.Admits s.leave.phase := by
    refine ⟨fun _ => hl.ne_exhausted, ?_⟩
    unfold Solver.leave
    split <;> exact Phase.noConfusion
  cases step_moves h with
  | close => exact ⟨Phase.noConfusion, Phase.noConfusion⟩
  | enter hph => exact ⟨fun _ => hph ▸ Phase.noConfusion, Phase.noConfusion⟩
  | fail => exact ⟨Phase.noConfusion, Phase.noConfusion⟩
  | leaf hph => exact ⟨Phase.noConfusion, fun _ => hph⟩
  | commit hd =>
    have hph : s.phase = .filtering := by
      cases hd with
      | intro hph => exact hph
    exact ⟨fun _ => hph ▸ Phase.noConfusion, fun _ => hph⟩
  | overflow => exact ⟨Phase.noConfusion, Phase.noConfusion⟩
  | leave hl => exact hleave hl
  | stop hph =>
    rw [hph]
    exact ⟨Phase.noConfusion, Phase.noConfusion⟩

theorem Triggered.isEmpty_of_pop? {q : Triggered} (h : q.pop? = none) : q.isEmpty = true := by
  unfold Triggered.pop? at h
  split at h
  · rename_i hq
    unfold Triggered.isEmpty
    cases hh : q.queue with
    | leaf => rfl
    | node => rw [hh] at hq; cases hq
  · cases h

/-- Propagation goes on until nothing is triggered, or gives up all that is. -/
theorem settle_isEmpty (h : settle n u = .ok (kept, v)) : v.triggered.isEmpty = true := by
  fun_induction settle n u with
  | case1 u hp =>
    obtain ⟨-, rfl⟩ := Prod.mk.inj (Except.ok.inj h)
    exact Triggered.isEmpty_of_pop? hp
  | case2 _ _ _ _ _ ih => exact ih h
  | case3 => cases h
  | case4 _ _ _ _ _ _ _ _ ih => exact ih h
  | case5 =>
    obtain ⟨-, rfl⟩ := Prod.mk.inj (Except.ok.inj h)
    rfl

/-! ### The whole -/

/-- **Calls in any order are safe.**  Whatever is called on a solver of a problem that was
built, with any options and any brancher:

* each solution that is handed out solves the problem;
* none is handed out twice unless there is a reset in between, where the calls that search
  from the start count as resets;
* once `solveOne` has handed out none, it says that there is none until a reset;
* the search never goes on from its end and finds solutions at nodes only, and propagation
  leaves nothing triggered. -/
theorem calls_safe {o : Options} {log : Log} {b : Brancher σ} {m : σ} (hp : Built p)
    (h : History ((Solver.ofProblem p o log).withBrancher b m) es t) :
    (∀ e ∈ es, ∀ values ∈ e.2.solutions,
      ∃ as, p.network.Solves as ∧ p.network.valuesOf as = values) ∧
    (∀ {pre mid post e}, es = pre ++ e :: (mid ++ post) → (∀ e ∈ mid, e.1.resets = false) →
      ((e :: mid).flatMap fun e => e.2.solutions).Nodup) ∧
    (∀ {pre mid post e e'}, es = pre ++ e :: (mid ++ e' :: post) → e.1 = .solveOne →
      (∀ values, e.2 ≠ .answer (.ok (some values))) → (∀ e ∈ mid, e.1.resets = false) →
        e'.1 = .solveOne → e'.2 = .answer (.ok none)) ∧
    (∀ {u v : Solver σ} {a : Option Answer}, u.step = .ok (v, a) → u.phase.Admits v.phase) ∧
    ∀ {u v : State} {kept : Bool}, propagate p.network u = .ok (kept, v) →
      v.triggered.isEmpty = true := by
  have hn := hp.sound.network
  have hstart := Solver.start_idle hp o log b m
  -- The solver that a call starts from, once it has been reset if it is to be.
  have hfrom {s : Solver σ} (hs : s.Idle p.network) (c : Call) :
      (if c.resets then s.reset else s).Sound p.network := by
    split
    · exact hs.reset.sound
    · exact hs.sound
  refine ⟨?_, ?_, ?_, Solver.step_admits, settle_isEmpty⟩
  · intro e he
    obtain ⟨pre, post, rfl⟩ := List.mem_iff_append.1 he
    obtain ⟨s, hpre, hrest⟩ := h.split
    have hs := hpre.idle hn hstart
    cases hrest with
    | cons hrun => exact (Call.run_serves hn hs hrun).solves (hfrom hs _)
  · rintro pre mid post e rfl hmid
    obtain ⟨s, hpre, hrest⟩ := h.split
    have hs := hpre.idle hn hstart
    cases hrest with
    | cons hrun hrest =>
      obtain ⟨u, hmids, -⟩ := hrest.split
      have hserves := Call.run_serves hn hs hrun
      exact (hserves.trans (hmids.serves hn hserves.idle hmid)).nodup hn (hfrom hs _)
  · rintro pre mid post ⟨c, r⟩ ⟨c', r'⟩ rfl rfl hr hmid rfl
    obtain ⟨s, hpre, hrest⟩ := h.split
    have hs := hpre.idle hn hstart
    cases hrest with
    | cons hrun hrest =>
      obtain ⟨u, hmids, hlast⟩ := hrest.split
      have hidle := (Call.run_serves hn hs hrun).idle
      have hend := Call.solveOne_ends hr hrun
      have hend' := hmids.exhausted hn hidle hend hmid
      cases hlast with
      | cons hrun' =>
        exact (Call.run_exhausted hn (hmids.idle hn hidle) hend' rfl hrun').2 rfl

/-- In `Problem.either` two solutions are handed out and then none, also if the caller asks for a
choice point to be taken back; after a reset they are handed out again. -/
theorem calls_safe_either :
    let es : List (Call × Reply) :=
      [(.solveOne, .answer (.ok (some [2, 0, 1]))), (.solveOne, .answer (.ok (some [2, 1, 0]))),
        (.solveOne, .answer (.ok none)), (.backtrack, .moved false),
        (.solveOne, .answer (.ok none)), (.reset, .done),
        (.iterate 3, .items [.solution [2, 0, 1], .solution [2, 1, 0], .ended])]
    (∃ t, History (Solver.ofProblem .either .default .off) es t) ∧
      ∀ e ∈ es, ∀ values ∈ e.2.solutions, ∃ as, Problem.either.network.Solves as ∧
        Problem.either.network.valuesOf as = values := by
  intro es
  have hrun : ∃ t, Call.runAll (Solver.ofProblem .either .default .off) (es.map (·.1)) =
      .ok (es.map (·.2), t) := by
    decide +kernel
  obtain ⟨t, ht⟩ := hrun
  have hhistory : History (Solver.ofProblem .either .default .off) es t := .of_runAll ht
  obtain ⟨hsolves, -⟩ := calls_safe (b := (Strategy.default Problem.either.current).brancher)
    (m := ()) .either hhistory
  exact ⟨⟨t, hhistory⟩, hsolves⟩

end BoundsSolver
