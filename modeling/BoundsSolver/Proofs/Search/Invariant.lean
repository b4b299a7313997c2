/-
# The invariant of the search

A choice point remembers a box that was stable when the decision was taken.  While an
objective is optimised its box is narrowed behind the search's back, at the one bound
that the objective moves; `ChoicePoint.Rooted` keeps hold of the stable box and of the
fact that nothing else moved.  Entering the other branch therefore only has to wake
the subscribers of that bound and of the one that the branch moves, which is what
`Solver.resume` does (`resume_primed`).

`Solver.Sound` is the invariant.  Every move of the search preserves it
(`step_sound`), and so does whatever optimisation does in between.
-/

import BoundsSolver.Proofs.Search.Cases
import BoundsSolver.Proofs.Search.Filtering
import BoundsSolver.Search.Optimisation

namespace BoundsSolver

/-- The flags of a choice point hold in its box. -/
structure ChoicePoint.Sound (n : Network) (c : ChoicePoint) : Prop where
  inside : c.box.Inside n.initial
  flags : c.entailed.size = n.propagators.size
  settled : ∀ {id : PropagatorId} {q : Propagator}, n.propagators.get? id = some q →
    c.entailed.entry id = true → q.SettledOn c.box

/-- The box of a choice point is a stable box, apart from the bound that the objective
moves. -/
def ChoicePoint.Rooted (n : Network) (objective : Option Branch) (c : ChoicePoint) : Prop :=
  ∃ b : Box, b.Inside n.initial ∧ b.Alive ∧ n.StableOn b ∧ c.box.Inside b ∧
    ∀ {d : DomainId} {x : Bound}, (c.box.entry d).get x ≠ (b.entry d).get x →
      ∃ o, objective = some o ∧ o.domain = d ∧ o.bound = x

/-- What holds of a solver of the network at all times. -/
structure Solver.Sound {σ : Type} (n : Network) (s : Solver σ) : Prop where
  network : s.network = n
  coherent : s.state.Coherent n
  primed : s.phase = .filtering → s.state.Primed n
  points : ∀ c ∈ s.choicePoints.live, c.Sound n
  rooted : s.phase ≠ .exhausted → ∀ c ∈ s.choicePoints.live, c.Rooted n s.objective

variable {σ : Type} {n : Network} {s t : Solver σ} {u : State} {c : ChoicePoint}
  {cs : ChoicePoints} {br : Branch} {a : Option Answer} {b : Box}

/-! ### Choice points -/

theorem State.Resting.sound (h : u.Resting n) (other : Branch) :
    (⟨u.box, u.entailed, other⟩ : ChoicePoint).Sound n :=
  ⟨h.coherent.inside, h.coherent.flags, h.coherent.settled⟩

theorem State.Resting.rooted (h : u.Resting n) (other : Branch) (o : Option Branch) :
    (⟨u.box, u.entailed, other⟩ : ChoicePoint).Rooted n o :=
  ⟨u.box, h.coherent.inside, h.alive, h.stable, .refl _, fun hne => absurd rfl hne⟩

namespace ChoicePoint

theorem Sound.tighten (h : c.Sound n) (br : Branch) :
    ({ c with box := c.box.tighten br } : ChoicePoint).Sound n where
  inside := (Box.tighten_inside c.box br).trans h.inside
  flags := h.flags
  settled hq he := (h.settled hq he).of_inside (Box.tighten_inside c.box br)

/-- Narrowing the bound of the objective moves no other one. -/
theorem Rooted.tighten {o : Option Branch} (h : c.Rooted n o)
    (ho : ∀ p, o = some p → p.domain = br.domain ∧ p.bound = br.bound) :
    ({ c with box := c.box.tighten br } : ChoicePoint).Rooted n (some br) := by
  obtain ⟨b, hb, hba, hst, hin, hmoved⟩ := h
  refine ⟨b, hb, hba, hst, (Box.tighten_inside c.box br).trans hin, fun {d x} hne => ?_⟩
  refine ⟨br, rfl, ?_⟩
  by_cases hold : (c.box.entry d).get x = (b.entry d).get x
  · rw [← hold] at hne
    exact State.eq_of_tighten hne
  · obtain ⟨p, hp, hd, hx⟩ := hmoved hold
    obtain ⟨hd', hx'⟩ := ho p hp
    exact ⟨hd'.symm.trans hd, hx'.symm.trans hx⟩

end ChoicePoint

/-! ### Backtracking -/

namespace Solver

theorem resume_state (s : Solver σ) (br : Branch) : (s.resume br).state =
    match s.objective with
    | none => (s.state.tell (.backtracked s.depth)).wake s.network br.domain br.bound
    | some o => ((s.state.tell (.backtracked s.depth)).wake s.network br.domain br.bound).wake
        s.network o.domain o.bound := by
  unfold resume
  dsimp only
  cases s.objective <;> rfl

@[simp] theorem resume_network (s : Solver σ) (br : Branch) : (s.resume br).network = s.network := by
  unfold resume; dsimp only; split <;> rfl

@[simp] theorem resume_phase (s : Solver σ) (br : Branch) : (s.resume br).phase = s.phase := by
  unfold resume; dsimp only; split <;> rfl

@[simp] theorem resume_objective (s : Solver σ) (br : Branch) :
    (s.resume br).objective = s.objective := by
  unfold resume; dsimp only; split <;> rfl

@[simp] theorem resume_choicePoints (s : Solver σ) (br : Branch) :
    (s.resume br).choicePoints = s.choicePoints := by
  unfold resume; dsimp only; split <;> rfl

@[simp] theorem resume_box (s : Solver σ) (br : Branch) :
    (s.resume br).state.box = s.state.box := by
  unfold resume; dsimp only; split <;> rfl

/-- What the subscribers of a bound make of a coherent state. -/
theorem wake_coherent (h : u.Coherent n) (d : DomainId) (x : Bound) : (u.wake n d x).Coherent n :=
  h.triggerAll _

theorem mem_wake (h : u.Coherent n) {d : DomainId} {x : Bound} {id : PropagatorId}
    (hid : id ∈ n.subscribersOf d x) (he : u.entailed.entry id = false) :
    id ∈ (u.wake n d x).triggered :=
  (State.mem_triggerAll h.faithful).2 (.inl ⟨hid, he⟩)

/-- The state in which the search enters the other branch of a choice point. -/
theorem resume_coherent (hs : s.network = n) (h : s.state.Coherent n) (br : Branch) :
    (s.resume br).state.Coherent n := by
  have htell := h.tell (.backtracked s.depth)
  rw [resume_state, hs]
  split
  · exact wake_coherent htell _ _
  · exact wake_coherent (wake_coherent htell _ _) _ _

/-- **Entering the other branch overlooks nothing**: what moved since the box was stable
are the bounds of the branch and of the objective, and their subscribers are woken. -/
theorem resume_primed (hn : n.WellFormed) (hs : s.network = n) (h : s.state.Coherent n)
    (hbox : s.state.box = c.otherBox) (ha : c.otherBox.Alive) (hr : c.Rooted n s.objective) :
    (s.resume c.alternative).state.Primed n := by
  have hco := resume_coherent hs h c.alternative
  have hbox' : (s.resume c.alternative).state.box = c.otherBox := (resume_box ..).trans hbox
  refine ⟨hco, hbox' ▸ ha, fun id q hq => ?_⟩
  obtain ⟨b, hb, hba, hst, hin, hmoved⟩ := hr
  refine attends_of_wakes hn hco (hbox' ▸ ha) hb hba ?_ hq (hst q (Keyed.mem_of_get? hq))
    fun {d x} hne hsub hflag => ?_
  · rw [hbox']
    exact (Box.tighten_inside c.box c.alternative).trans hin
  · have htell := h.tell (.backtracked s.depth)
    have hwake := wake_coherent htell c.alternative.domain c.alternative.bound
    rw [hbox', ChoicePoint.otherBox] at hne
    rw [resume_state, hs] at hflag ⊢
    by_cases hold : (c.box.entry d).get x = (b.entry d).get x
    · -- The bound that the branch moves.
      rw [← hold] at hne
      obtain ⟨rfl, rfl⟩ := State.eq_of_tighten hne
      split
      · rename_i ho
        rw [ho] at hflag
        exact mem_wake htell hsub hflag
      · rename_i o ho
        rw [ho] at hflag
        exact State.mem_triggerAll_of_mem hwake.faithful _ (mem_wake htell hsub hflag)
    · -- The bound that the objective moved.
      obtain ⟨o, ho, rfl, rfl⟩ := hmoved hold
      rw [ho] at hflag ⊢
      exact mem_wake hwake hsub hflag

theorem backtrack_of_bare (h : s.choicePoints.pop? = none) : s.backtrack = (false, s) := by
  rw [backtrack]
  split <;> rename_i hc
  · rfl
  · rw [h] at hc
    cases hc

theorem backtrack_of_pop (h : s.choicePoints.pop? = some (c, cs)) :
    s.backtrack = if c.otherBox.anyEmpty then (s.restore c cs).backtrack
      else (true, (s.restore c cs).resume c.alternative) := by
  rw [backtrack]
  split <;> rename_i hc
  · rw [h] at hc
    cases hc
  · obtain ⟨rfl, rfl⟩ := Prod.mk.inj (Option.some.inj (h.symm.trans hc))
    rfl

theorem restore_coherent (hs : s.Sound n) (hc : c.Sound n) :
    (s.restore c cs).state.Coherent n where
  inside := (Box.tighten_inside c.box c.alternative).trans hc.inside
  faithful := hs.coherent.faithful
  flags := hc.flags
  settled hq he := (hc.settled hq he).of_inside (Box.tighten_inside c.box c.alternative)

theorem restore_sound (hs : s.Sound n) (hf : s.phase ≠ .filtering)
    (hp : s.choicePoints.pop? = some (c, cs)) : (s.restore c cs).Sound n := by
  have hlive := ChoicePoints.live_pop? hp
  have hmem {e : ChoicePoint} (he : e ∈ cs.live) : e ∈ s.choicePoints.live := by
    rw [hlive]
    exact List.mem_append_left _ he
  have hc : c ∈ s.choicePoints.live := by
    rw [hlive]
    exact List.mem_concat_self
  refine ⟨hs.network, restore_coherent hs (hs.points c hc), fun hph => absurd hph hf,
    fun e he => hs.points e (hmem he), fun hph e he => ?_⟩
  exact hs.rooted hph e (hmem he)

/-- What taking choice points back makes of a solver that is not at a node.  Where a search
is exhausted there may be choice points left from an overflow, and nothing is known of the
node that they lead to. -/
theorem backtrack_sound {found : Bool} (hn : n.WellFormed) (hs : s.Sound n)
    (hf : s.phase ≠ .filtering) (h : s.backtrack = (found, t)) :
    t.Sound n ∧ t.phase = s.phase ∧ t.choicePoints.live <+: s.choicePoints.live ∧
      (found = true → s.phase ≠ .exhausted → t.state.Primed n) ∧
      (found = false → t.choicePoints.live = []) := by
  fun_induction backtrack s with
  | case1 s hp =>
    obtain ⟨rfl, rfl⟩ := Prod.mk.inj h
    refine ⟨hs, rfl, List.prefix_rfl, Bool.noConfusion, fun _ => ?_⟩
    rw [ChoicePoints.live, ChoicePoints.depth_eq_zero_of_pop? hp, List.take_zero]
  | case2 s c cs hp _ ih =>
    obtain ⟨h₁, h₂, h₃, h₄, h₅⟩ := ih (restore_sound hs hf hp) hf h
    refine ⟨h₁, h₂, h₃.trans ?_, h₄, h₅⟩
    rw [ChoicePoints.live_pop? hp]
    exact List.prefix_append _ _
  | case3 s c cs hp hne =>
    obtain ⟨rfl, rfl⟩ := Prod.mk.inj h
    have hr := restore_sound hs hf hp
    have hlive := ChoicePoints.live_pop? hp
    have hc : c ∈ s.choicePoints.live := by
      rw [hlive]
      exact List.mem_concat_self
    have ha : c.otherBox.Alive := Box.anyEmpty_eq_false_iff.1 (Bool.not_eq_true _ ▸ hne)
    refine ⟨⟨?_, resume_coherent hr.network hr.coherent _, fun hph => ?_, ?_, ?_⟩,
      resume_phase .., ?_, fun _ hne => ?_, Bool.noConfusion⟩
    · rw [resume_network]
      exact hr.network
    · rw [resume_phase] at hph
      exact absurd hph hf
    · rw [resume_choicePoints]
      exact hr.points
    · rw [resume_choicePoints, resume_phase, resume_objective]
      exact hr.rooted
    · rw [resume_choicePoints, hlive]
      exact List.prefix_append _ _
    · have hroot : c.Rooted n s.objective := hs.rooted hne c hc
      exact resume_primed (s := s.restore c cs) hn hr.network hr.coherent rfl ha hroot

theorem leave_sound (hn : n.WellFormed) (hs : s.Sound n) (hl : s.Left) :
    s.leave.Sound n ∧ s.leave.choicePoints.live <+: s.choicePoints.live := by
  unfold leave
  split
  · rename_i t ht
    obtain ⟨h, hph, hpre, hprimed, -⟩ := backtrack_sound hn hs hl.ne_filtering ht
    refine ⟨⟨h.network, h.coherent, fun _ => hprimed rfl hl.ne_exhausted, h.points,
      fun _ => ?_⟩, hpre⟩
    exact h.rooted (hph ▸ hl.ne_exhausted)
  · rename_i t ht
    obtain ⟨h, hph, hpre, -, -⟩ := backtrack_sound hn hs hl.ne_filtering ht
    exact ⟨⟨h.network, h.coherent, Phase.noConfusion, h.points, fun hne => absurd rfl hne⟩, hpre⟩

end Solver
end BoundsSolver
