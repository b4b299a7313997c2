/-
# Searches that agree

Two solvers agree (`Solver.Agrees`) when they are set up alike, stand at the same place and
have the same choice points; what they have counted and told may differ in any way that
entries on both sides keep (`Balanced`).  Solvers that agree come to the same answers, faults
included, and agree again: this is shown of filtering, of a move and, by induction on the
moves, of every loop of the search.

The brancher must not use the generator (`Brancher.Quiet`), so that the generator stays as it
was set up.
-/

import BoundsSolver.Proofs.Search.Handing
import BoundsSolver.Proofs.Search.Shaving
import BoundsSolver.Proofs.Search.Stacks

namespace BoundsSolver

/-- The brancher leaves the generator alone. -/
def Brancher.Quiet {σ : Type} (br : Brancher σ) : Prop :=
  ∀ {m m' : σ} {b : Box} {g g' : Generator} {d : Option Decision},
    br.next m b g = .ok (d, m', g') → g' = g

namespace Solver

variable {σ : Type}

/-- The solvers are set up like `z` and stand at the same place of a search. -/
inductive Agrees (z : Solver σ) (B : Books → Books → Prop) : Solver σ → Solver σ → Prop
  | intro {memory : σ} {phase : Phase} {v w : State} {cs ds : ChoicePoints}
    {objective : Option Branch} : v.Agrees B w → cs.Agrees ds →
    cs.capacity = z.choicePoints.capacity →
      Agrees z B { z with memory, phase, state := v, choicePoints := cs, objective }
        { z with memory, phase, state := w, choicePoints := ds, objective }

/-- A move comes to the same answer and to solvers that agree. -/
def Moved (z : Solver σ) (B : Books → Books → Prop) (x y : Solver σ × Option Answer) : Prop :=
  z.Agrees B x.1 y.1 ∧ x.2 = y.2

/-- So does a search. -/
def Came {α : Type} (z : Solver σ) (B : Books → Books → Prop) (x y : α × Solver σ) : Prop :=
  x.1 = y.1 ∧ z.Agrees B x.2 y.2

end Solver

variable {σ τ : Type} {B : Books → Books → Prop} {n : Network} {s t : State} {br : Branch}
  {d : DomainId} {x : Bound} {shaved : Bool} {c : Consistency} {ends : List (DomainId × Bound)}

/-! ### Filtering -/

theorem trial_agrees (hB : Balanced B) (h : s.Agrees B t) :
    Matches (Ended B) (trial n s br) (trial n t br) := by
  refine (propagate_agrees hB (h.narrow n br)).bind fun {x y} hxy => ?_
  exact .answer ⟨hxy.1, ⟨h.twins.box, h.twins.entailed, hxy.2.twins.triggered⟩, hxy.2.books⟩

theorem shaveValue_agrees (hB : Balanced B) (h : s.Agrees B t) (value : Int) :
    Matches (Ended B) (shaveValue n s d x value) (shaveValue n t d x value) := by
  refine .bind_same fun next => propagate_agrees hB ?_
  exact ((h.tell hB _).count hB fun _ _ => rfl).narrow n _

theorem shaveBound_agrees (hB : Balanced B) (h : s.Agrees B t) :
    Matches (Outcome.Agrees B) (shaveBound n s d x shaved) (shaveBound n t d x shaved) := by
  induction hk : s.box.totalSize using Nat.strongRecOn generalizing s t shaved with
  | ind k ih =>
    subst hk
    have htried : s.tried.Agrees B t.tried := h.count hB fun _ _ => rfl
    rw [shaveBound_eq n s, shaveBound_eq n t, ← h.twins.box]
    split
    · exact .answer ⟨rfl, rfl, h⟩
    · rename_i hseveral
      refine (trial_agrees hB htried).bind_of fun {o o'} ho hoo => ?_
      obtain ⟨supported, v⟩ := o
      obtain ⟨supported', v'⟩ := o'
      obtain ⟨rfl, hv⟩ : supported = supported' ∧ v.Agrees B v' := hoo
      cases supported with
      | true => exact .answer ⟨rfl, rfl, hv⟩
      | false =>
        refine (shaveValue_agrees hB hv _).bind_of fun {w w'} hw hww => ?_
        obtain ⟨kept, w⟩ := w
        obtain ⟨kept', w'⟩ := w'
        obtain ⟨rfl, hwv⟩ : kept = kept' ∧ w.Agrees B w' := hww
        cases kept with
        | false => exact .answer ⟨rfl, rfl, hwv⟩
        | true =>
          refine ih _ ?_ hwv rfl
          have hbox : v.box = s.tried.box := trial_box ho
          have hbox : v.box = s.box := hbox
          rw [← hbox] at hseveral hw ⊢
          exact shaveValue_totalSize (Int.not_le.1 hseveral) hw

theorem shavePass_agrees (hB : Balanced B) (h : s.Agrees B t) :
    Matches (Outcome.Agrees B) (shavePass n ends s shaved) (shavePass n ends t shaved) := by
  induction ends generalizing s t shaved with
  | nil => exact .answer ⟨rfl, rfl, h⟩
  | cons e ends ih =>
    refine (shaveBound_agrees hB h).bind fun {o o'} ho => ?_
    rw [ho.kept, ho.changed]
    split
    · exact ih ho.state
    · exact .answer ho

theorem shave_eq (n : Network) (s : State) : shave n s = do
    let o ← shavePass n (allEnds s.box) s false
    if o.kept && o.changed then shave n o.state else return (o.kept, o.state) := by
  rw [shave]
  split
  all_goals
    rename_i ho
    rw [ho]
    rfl

theorem shave_agrees (hB : Balanced B) (h : s.Agrees B t) :
    Matches (Ended B) (shave n s) (shave n t) := by
  induction hk : s.box.totalSize using Nat.strongRecOn generalizing s t with
  | ind k ih =>
    subst hk
    rw [shave_eq n s, shave_eq n t, ← h.twins.box]
    refine (shavePass_agrees hB h).bind_of fun {o o'} ho hoo => ?_
    rw [← hoo.kept, ← hoo.changed]
    split
    · rename_i hagain
      obtain ⟨hkept, hchanged⟩ := Bool.and_eq_true_iff.1 hagain
      refine ih _ ?_ hoo.state rfl
      refine (shavePass_totalSize ho hkept).resolve_right fun hsame => ?_
      rw [hsame.2] at hchanged
      cases hchanged
    · exact .answer ⟨rfl, hoo.state⟩

theorem filter_eq (n : Network) (c : Consistency) (s : State) : Solver.filter n c s = do
    let (kept, t) ← propagate n s
    if kept && decide (c = .shaving) then shave n t else return (kept, t) := by
  unfold Solver.filter
  split
  all_goals
    rename_i hs
    rw [hs]
  · rfl
  · rfl
  · cases c <;> rfl

/-- **Filtering ends alike.** -/
theorem filter_agrees (hB : Balanced B) (h : s.Agrees B t) :
    Matches (Ended B) (Solver.filter n c s) (Solver.filter n c t) := by
  rw [filter_eq, filter_eq]
  refine (propagate_agrees hB h).bind fun {o o'} hoo => ?_
  obtain ⟨kept, u⟩ := o
  obtain ⟨kept', v⟩ := o'
  obtain ⟨rfl, huv⟩ : kept = kept' ∧ u.Agrees B v := hoo
  dsimp only
  split
  · exact shave_agrees hB huv
  · exact .answer ⟨rfl, huv⟩

namespace Solver

variable {z s u : Solver σ} {a : Option Answer} {e : Decision}

/-! ### Moves -/

variable (hB : Balanced B) (hq : z.brancher.Quiet)

theorem Agrees.depth (h : z.Agrees B s u) : s.depth = u.depth := by
  obtain ⟨-, hcs, -⟩ := h
  exact hcs.depth

theorem Agrees.setting (h : z.Agrees B s u) : s.network = z.network ∧ s.options = z.options ∧
    s.brancher = z.brancher ∧ s.generator = z.generator ∧
      s.choicePoints.capacity = z.choicePoints.capacity := by
  obtain ⟨-, -, hcapacity⟩ := h
  exact ⟨rfl, rfl, rfl, rfl, hcapacity⟩

theorem Agrees.books (h : z.Agrees B s u) : B s.state.books u.state.books := by
  obtain ⟨hstate, -, -⟩ := h
  exact hstate.books

theorem Agrees.box (h : z.Agrees B s u) : s.state.box = u.state.box := by
  obtain ⟨hstate, -, -⟩ := h
  exact hstate.twins.box

theorem Agrees.network (h : z.Agrees B s u) : s.network = u.network := by
  cases h
  rfl

theorem Agrees.phase (h : z.Agrees B s u) : s.phase = u.phase := by
  cases h
  rfl

theorem enter_agrees (h : z.Agrees B s u) : z.Agrees B s.enter u.enter := by
  obtain ⟨hstate, hcs, hcapacity⟩ := h
  unfold enter
  dsimp only
  rw [hstate.twins.box]
  split
  · exact ⟨hstate, hcs, hcapacity⟩
  · exact ⟨hstate.triggerAll _, hcs, hcapacity⟩

include hB

theorem solve_agrees (h : z.Agrees B s u) (values : List Int) :
    z.Agrees B (s.solve values) (u.solve values) := by
  cases h with
  | @intro memory phase v w cs ds objective hstate hcs hcapacity =>
    have hcount := hstate.count hB (f := fun c => { c with solutions := c.solutions + 1 })
      fun _ _ => rfl
    unfold solve
    dsimp only [Solver.depth]
    rw [hcs.depth]
    exact ⟨⟨hcount.twins.tell, hB.solved ds.depth hcount.books⟩, hcs, hcapacity⟩

theorem commit_agrees (h : z.Agrees B s u) {cs ds : ChoicePoints} (hcs : cs.Agrees ds)
    (hcapacity : cs.capacity = s.choicePoints.capacity) (d : Decision) :
    z.Agrees B (s.commit d cs) (u.commit d ds) := by
  obtain ⟨hstate, -, hcapacity'⟩ := h
  have hcount (depth : Nat) := hstate.count hB
    (f := fun c => { c with choices := c.choices + 1 }.recordDepth depth) fun c e => by
      simp only [Statistics.merge, Statistics.recordDepth, Nat.max_assoc]
      rfl
  unfold commit
  dsimp only
  rw [hcs.depth]
  exact ⟨((hcount ds.depth).tell hB _).narrow _ _, hcs, hcapacity.trans hcapacity'⟩

theorem branchOn_agrees (h : z.Agrees B s u) (d : Decision) :
    Matches (Moved z B) (s.branchOn d) (u.branchOn d) := by
  have hsame := h
  obtain ⟨hstate, hcs, hcapacity⟩ := h
  unfold branchOn
  dsimp only
  rw [hstate.twins.box, hstate.twins.entailed]
  refine .bind_same fun i => ?_
  split
  · refine .bind_same fun other => ?_
    rcases hcs.push ⟨_, _, other⟩ with ⟨f, hcs', hds'⟩ | ⟨cs', ds', hcs', hds', hagree⟩
    · rw [hcs', hds']
      exact .answer ⟨⟨hstate, hcs, hcapacity⟩, rfl⟩
    · rw [hcs', hds']
      have hcapacity' := (ChoicePoints.push_depth hcs').2.2
      exact .answer ⟨commit_agrees hB hsame hagree hcapacity' d, rfl⟩
  · exact .fault _

include hq

theorem takeDecision_agrees (h : z.Agrees B s u) (own : Decision) :
    Matches (Moved z B) (s.takeDecision own) (u.takeDecision own) := by
  cases h with
  | @intro memory phase v w cs ds objective hstate hcs hcapacity =>
    unfold takeDecision
    dsimp only
    rw [hstate.twins.box]
    cases hnext : z.brancher.next memory w.box z.generator with
    | error f => exact .fault f
    | ok o =>
      obtain ⟨d, memory', generator⟩ := o
      obtain rfl := hq hnext
      exact branchOn_agrees hB (h := ⟨hstate, hcs, hcapacity⟩) (d.getD own)

theorem advance_agrees (h : z.Agrees B s u) : Matches (Moved z B) s.advance u.advance := by
  have htake := fun own => takeDecision_agrees hB hq h own
  have hsolve := fun values => solve_agrees hB h values
  obtain ⟨hstate, hcs, hcapacity⟩ := h
  unfold advance
  dsimp only
  rw [hstate.twins.box]
  split
  · exact htake _
  · exact .bind_same fun values => .answer ⟨hsolve values, rfl⟩

omit hq

theorem resume_agrees (h : z.Agrees B s u) (br : Branch) :
    z.Agrees B (s.resume br) (u.resume br) := by
  cases h with
  | @intro memory phase v w cs ds objective hstate hcs hcapacity =>
    have htold := (hstate.tell hB (.backtracked cs.depth)).triggerAll
      (z.network.subscribersOf br.domain br.bound)
    unfold resume
    dsimp only [Solver.depth]
    rw [← hcs.depth]
    cases objective with
    | none => exact ⟨htold, hcs, hcapacity⟩
    | some o => exact ⟨htold.triggerAll _, hcs, hcapacity⟩

theorem restore_agrees (h : z.Agrees B s u) {e : ChoicePoint} {cs ds : ChoicePoints}
    (hcs : cs.Agrees ds) (hcapacity : cs.capacity = s.choicePoints.capacity) :
    z.Agrees B (s.restore e cs) (u.restore e ds) := by
  obtain ⟨hstate, -, hcapacity'⟩ := h
  have hcount := hstate.count hB (f := fun c => { c with backtracks := c.backtracks + 1 })
    fun _ _ => rfl
  exact ⟨⟨⟨rfl, rfl, hstate.twins.triggered⟩, hcount.books⟩, hcs, hcapacity.trans hcapacity'⟩

theorem backtrack_agrees (h : z.Agrees B s u) :
    s.backtrack.1 = u.backtrack.1 ∧ z.Agrees B s.backtrack.2 u.backtrack.2 := by
  have hpoints {s u : Solver σ} (h : z.Agrees B s u) : s.choicePoints.Agrees u.choicePoints := by
    obtain ⟨-, hcs, -⟩ := h
    exact hcs
  fun_induction backtrack s generalizing u with
  | case1 s hp =>
    rcases (hpoints h).pop? with ⟨-, hp'⟩ | ⟨_, _, _, hp', -⟩
    · rw [backtrack_of_bare hp']
      exact ⟨rfl, h⟩
    · rw [hp] at hp'
      cases hp'
  | case2 s e cs hp hempty ih =>
    rcases (hpoints h).pop? with ⟨hp', -⟩ | ⟨_, _, ds, hp', hq, hcs⟩
    · rw [hp] at hp'
      cases hp'
    · obtain ⟨rfl, rfl⟩ := Prod.mk.inj (Option.some.inj (hp.symm.trans hp'))
      rw [backtrack_of_pop hq, if_pos hempty]
      exact ih (restore_agrees hB h hcs (ChoicePoints.pop?_capacity hp))
  | case3 s e cs hp hempty =>
    rcases (hpoints h).pop? with ⟨hp', -⟩ | ⟨_, _, ds, hp', hq, hcs⟩
    · rw [hp] at hp'
      cases hp'
    · obtain ⟨rfl, rfl⟩ := Prod.mk.inj (Option.some.inj (hp.symm.trans hp'))
      rw [backtrack_of_pop hq, if_neg hempty]
      exact ⟨rfl, resume_agrees hB (restore_agrees hB h hcs (ChoicePoints.pop?_capacity hp)) _⟩

theorem leave_agrees (h : z.Agrees B s u) : z.Agrees B s.leave u.leave := by
  obtain ⟨hmoved, hagree⟩ := backtrack_agrees hB h
  unfold leave
  generalize s.backtrack = x at hmoved hagree ⊢
  generalize u.backtrack = y at hmoved hagree ⊢
  obtain ⟨found, s'⟩ := x
  obtain ⟨found', u'⟩ := y
  dsimp only at hmoved hagree
  subst hmoved
  obtain ⟨hstate, hcs, hcapacity⟩ := hagree
  cases found
  · exact ⟨hstate, hcs, hcapacity⟩
  · exact ⟨hstate, hcs, hcapacity⟩

include hq

/-- **A move does the same on solvers that agree.** -/
theorem step_agrees (h : z.Agrees B s u) : Matches (Moved z B) s.step u.step := by
  have hleave (hl : s.Left) (hl' : u.Left) : Matches (Moved z B) s.step u.step := by
    rw [step_of_left hl, step_of_left hl']
    exact .answer ⟨leave_agrees hB h, rfl⟩
  have hphase := h.phase
  cases hph : s.phase with
  | ready =>
    rw [step_of_ready hph, step_of_ready (hphase.symm.trans hph)]
    exact .answer ⟨enter_agrees h, rfl⟩
  | filtering =>
    have hfilter : Matches (Ended B) (filter s.network s.options.consistency s.state)
        (filter u.network u.options.consistency u.state) := by
      obtain ⟨hstate, -, -⟩ := h
      exact filter_agrees hB hstate
    have hat {v w : State} (hvw : v.Agrees B w) (ph : Phase) :
        z.Agrees B { s with state := v, phase := ph } { u with state := w, phase := ph } := by
      obtain ⟨-, hcs, hcapacity⟩ := h
      exact ⟨hvw, hcs, hcapacity⟩
    cases hs : filter s.network s.options.consistency s.state with
    | error f =>
      rw [step_of_fault hph hs,
        step_of_fault (hphase.symm.trans hph) (hfilter.of_error hs)]
      exact .fault f
    | ok o =>
      obtain ⟨kept, v⟩ := o
      obtain ⟨⟨kept', w⟩, hu, rfl, hvw⟩ := hfilter.of_ok hs
      cases kept with
      | false =>
        rw [step_of_refuted hph hs, step_of_refuted (hphase.symm.trans hph) hu]
        exact .answer ⟨hat hvw .backtrack, rfl⟩
      | true =>
        rw [step_of_consistent hph hs, step_of_consistent (hphase.symm.trans hph) hu]
        have hnode := hat hvw s.phase
        exact advance_agrees hB hq (hphase ▸ hnode)
  | solved => exact hleave (.inl hph) (.inl (hphase.symm.trans hph))
  | backtrack => exact hleave (.inr hph) (.inr (hphase.symm.trans hph))
  | exhausted =>
    rw [step_of_exhausted hph, step_of_exhausted (hphase.symm.trans hph)]
    exact .answer ⟨h, rfl⟩

/-! ### The loops -/

/-- **Solvers that agree come to the same answer.** -/
theorem solveOne_agrees (h : z.Agrees B s u) : Matches (Came z B) s.solveOne u.solveOne := by
  fun_induction solveOne s generalizing u with
  | case1 s f hs =>
    rw [solveOne_of_fault ((step_agrees hB hq h).of_error hs)]
    exact .fault f
  | case2 s t a hs =>
    obtain ⟨⟨v, b⟩, hu, htv, rfl⟩ := (step_agrees hB hq h).of_ok hs
    rw [solveOne_of_answer hu]
    exact .answer ⟨rfl, htv⟩
  | case3 s t hs ih =>
    obtain ⟨⟨v, b⟩, hu, htv, rfl⟩ := (step_agrees hB hq h).of_ok hs
    rw [solveOne_of_step hu]
    exact ih htv

theorem collectOnto_agrees (found : List (List Int)) (h : z.Agrees B s u) :
    (s.collectOnto found none).outcome = (u.collectOnto found none).outcome ∧
      z.Agrees B (s.collectOnto found none).solver (u.collectOnto found none).solver := by
  have hone {s u : Solver σ} (h : z.Agrees B s u) := solveOne_agrees hB hq h
  have hmore : ¬ (none : Option Nat) = some 0 := (Option.some_ne_none 0).symm
  generalize hw : (none : Option Nat) = wanted at hmore ⊢
  fun_induction collectOnto found wanted s generalizing u with
  | case1 => exact absurd rfl hmore
  | case2 found wanted s _ f hs =>
    have hu := (hone h).of_error hs
    subst hw
    rw [collectOnto_eq_match, hu]
    exact ⟨rfl, h⟩
  | case3 found wanted s _ t hs =>
    obtain ⟨⟨_, v⟩, hu, rfl, htv⟩ := (hone h).of_ok hs
    subst hw
    rw [collectOnto_of_exhausted hu]
    exact ⟨rfl, htv⟩
  | case4 found wanted s _ capacity t hs =>
    obtain ⟨⟨_, v⟩, hu, rfl, htv⟩ := (hone h).of_ok hs
    subst hw
    rw [collectOnto_eq_match, hu]
    exact ⟨rfl, htv⟩
  | case5 found wanted s _ values t hs ih =>
    obtain ⟨⟨_, v⟩, hu, rfl, htv⟩ := (hone h).of_ok hs
    subst hw
    rw [collectOnto_of_solution hu]
    exact ih htv rfl hmore

theorem countFrom_agrees {f : τ → List Int → τ} {seen : τ} {count : Nat} (h : z.Agrees B s u) :
    Matches (fun x y => x.1 = y.1 ∧ x.2.1 = y.2.1 ∧ z.Agrees B x.2.2 y.2.2)
      (s.countFrom f seen count) (u.countFrom f seen count) := by
  have hone {s u : Solver σ} (h : z.Agrees B s u) := solveOne_agrees hB hq h
  fun_induction countFrom f seen count s generalizing u with
  | case1 seen count s e hs =>
    have hu := (hone h).of_error hs
    rw [countFrom_eq, hu]
    exact .fault e
  | case2 seen count s t hs =>
    obtain ⟨⟨_, v⟩, hu, rfl, htv⟩ := (hone h).of_ok hs
    rw [countFrom_of_exhausted hu]
    exact .answer ⟨rfl, rfl, htv⟩
  | case3 seen count s capacity t hs =>
    obtain ⟨⟨_, v⟩, hu, rfl, htv⟩ := (hone h).of_ok hs
    rw [countFrom_eq, hu]
    exact .answer ⟨rfl, rfl, htv⟩
  | case4 seen count s values t hs ih =>
    obtain ⟨⟨_, v⟩, hu, rfl, htv⟩ := (hone h).of_ok hs
    rw [countFrom_of_solution hu]
    exact ih htv

/-! ### Optimisation -/

omit hq

theorem tellObjective_agrees (h : z.Agrees B s u) (value : Int) :
    z.Agrees B (s.tellObjective value) (u.tellObjective value) := by
  obtain ⟨hstate, hcs, hcapacity⟩ := h
  exact ⟨hstate.tell hB _, hcs, hcapacity⟩

omit hB

theorem prune_agrees (h : z.Agrees B s u) (br : Branch) :
    z.Agrees B (s.prune br) (u.prune br) := by
  obtain ⟨hstate, hcs, hcapacity⟩ := h
  exact ⟨hstate, hcs.tightenAll br, hcapacity⟩

theorem reset_agrees (h : z.Agrees B s u) : z.Agrees B s.reset u.reset := by
  obtain ⟨hstate, hcs, hcapacity⟩ := h
  unfold reset
  dsimp only
  rw [hstate.twins.entailed]
  exact ⟨⟨⟨rfl, rfl, hstate.twins.triggered.clear⟩, hstate.books⟩, hcs.clear, hcapacity⟩

theorem restart_agrees (h : z.Agrees B s u) (br : Branch) :
    z.Agrees B (s.restart br) (u.restart br) := by
  have hreset := reset_agrees h
  obtain ⟨hstate, hcs, hcapacity⟩ := h
  unfold restart reset
  dsimp only
  rw [hstate.twins.entailed]
  exact ⟨⟨⟨rfl, rfl, hstate.twins.triggered.clear⟩, hstate.books⟩, hcs.clear, hcapacity⟩

theorem drop_agrees (h : z.Agrees B s u) :
    z.Agrees B { s with objective := none } { u with objective := none } := by
  obtain ⟨hstate, hcs, hcapacity⟩ := h
  exact ⟨hstate, hcs, hcapacity⟩

include hB hq

theorem pruneOn_agrees {dir : Direction} {x : VariableId} {v : View} {best : Option (List Int)}
    (h : z.Agrees B s u) :
    Matches (Came z B) (s.pruneOn dir x v best) (u.pruneOn dir x v best) := by
  have hone {s u : Solver σ} (h : z.Agrees B s u) := solveOne_agrees hB hq h
  fun_induction pruneOn dir x v best s generalizing u with
  | case1 best s f hs =>
    have hu := (hone h).of_error hs
    rw [pruneOn_eq, hu]
    exact .fault f
  | case2 best s t hs =>
    obtain ⟨⟨_, w⟩, hu, rfl, htw⟩ := (hone h).of_ok hs
    rw [pruneOn_eq, hu]
    exact .answer ⟨rfl, drop_agrees htw⟩
  | case3 best s capacity t hs =>
    obtain ⟨⟨_, w⟩, hu, rfl, htw⟩ := (hone h).of_ok hs
    rw [pruneOn_eq, hu]
    exact .answer ⟨rfl, htw⟩
  | case4 best s values t hs value =>
    rename_i ih
    obtain ⟨⟨_, w⟩, hu, rfl, htw⟩ := (hone h).of_ok hs
    rw [pruneOn_eq dir x v best u, hu]
    exact ih (prune_agrees (tellObjective_agrees hB htw value) _)

theorem restartTurn_agrees {dir : Direction} {x : VariableId} {v : View}
    {a c : Option (List Int) × Solver σ} (h : Came z B a c) :
    Matches (Turn.Alike (Came z B) (Came z B)) (restartTurn dir x v a) (restartTurn dir x v c) := by
  obtain ⟨hbest, hagrees⟩ := h
  unfold restartTurn
  rw [hbest]
  refine (solveOne_agrees hB hq hagrees).bind ?_
  rintro ⟨answer, t⟩ ⟨_, w⟩ ⟨rfl, htw⟩
  cases answer with
  | exhausted => exact .answer (.done ⟨rfl, drop_agrees htw⟩)
  | overflow capacity => exact .answer (.done ⟨rfl, htw⟩)
  | solution values =>
    exact .answer (.again ⟨rfl, restart_agrees (tellObjective_agrees hB htw _) _⟩)

theorem optimise_agrees (h : z.Agrees B s u) (x : VariableId) (mode : OptimisationMode)
    (dir : Direction) : Matches (Came z B) (s.optimise x mode dir) (u.optimise x mode dir) := by
  have hreset := reset_agrees h
  have hnetwork : s.reset.network = u.reset.network := h.network
  unfold optimise
  dsimp only
  rw [hnetwork]
  refine .bind_same fun v => ?_
  cases mode with
  | prune => exact pruneOn_agrees hB hq hreset
  | reset => exact .iterate (restartTurn_agrees hB hq) ⟨rfl, hreset⟩

/-! ### From the start -/

theorem findOne_agrees (h : z.Agrees B s u) : Matches (Came z B) s.findOne u.findOne := by
  refine (solveOne_agrees hB hq (reset_agrees h)).bind fun {x y} hxy => ?_
  exact .answer ⟨congrArg Answer.next hxy.1, hxy.2⟩

theorem findAll_agrees (h : z.Agrees B s u) : Matches (Came z B) s.findAll u.findAll := by
  obtain ⟨houtcome, hsolver⟩ := collectOnto_agrees hB hq [] (reset_agrees h)
  unfold findAll collect
  dsimp only
  rw [houtcome]
  exact .bind_same fun r => .answer ⟨rfl, hsolver⟩

end Solver
end BoundsSolver
