/-
# Every move keeps the invariant

`step_sound` goes through the moves of the search, `start_sound`, `reset_sound` and
those after them through what happens between searches.  The choice point that a
decision pushes remembers the box at rest (`Pushes.stableOn`).
-/

import BoundsSolver.Proofs.Propagation.Fixpoint
import BoundsSolver.Proofs.Search.Invariant

namespace BoundsSolver

variable {σ : Type} {n : Network} {s t v : Solver σ} {u : State} {c : ChoicePoint}
  {cs : ChoicePoints} {br other : Branch} {a : Option Answer} {b : Box} {d : Decision}
  {i : Interval}

/-! ### Decisions -/

theorem entry_of_get (hi : b.get d.domain = .ok i) : b.entry d.domain = i :=
  Keyed.entry_of_get? (Keyed.get_eq_ok.1 hi)

/-- A decision that splits a shared domain leaves it a value. -/
theorem commitment_alive (ha : b.Alive) (hi : b.get d.domain = .ok i) (hs : d.splits i = true) :
    (Box.tighten b d.commitment).Alive := by
  have he := entry_of_get hi
  refine tighten_alive ha ?_
  cases d with
  | atMost d v =>
    simp only [Decision.splits, decide_eq_true_eq] at hs
    simp only [Decision.commitment, Decision.domain] at he ⊢
    rw [he]
    simp only [Interval.tighten, Interval.tightenMax_min, Interval.tightenMax_max]
    omega
  | atLeast d v =>
    simp only [Decision.splits, decide_eq_true_eq] at hs
    simp only [Decision.commitment, Decision.domain] at he ⊢
    rw [he]
    simp only [Interval.tighten, Interval.tightenMin_min, Interval.tightenMin_max]
    omega

namespace Solver

/-! ### One move -/

/-- A move pushes at most one choice point, and that is stable. -/
def Pushes (n : Network) (s t : Solver σ) : Prop :=
  t.choicePoints.live <+: s.choicePoints.live ∨
    ∃ c, t.choicePoints.live = s.choicePoints.live ++ [c] ∧ c.box.Alive ∧ n.StableOn c.box

theorem Pushes.stableOn (h : Pushes n s t)
    (hc : t.choicePoints.live = s.choicePoints.live ++ [c]) : c.box.Alive ∧ n.StableOn c.box := by
  rcases h with hpre | ⟨e, he, hst⟩
  · have := hpre.length_le
    rw [hc, List.length_append, List.length_singleton] at this
    omega
  · obtain rfl := List.append_inj_right' (hc.symm.trans he) rfl |> List.singleton_inj.1
    exact hst

/-- A decision is taken when filtering has come to its end. -/
theorem Decides.filtered (hn : n.WellFormed) (hs : s.Sound n) (h : s.Decides v d other) :
    s.phase = .filtering ∧ Filtered n s.state v.state true := by
  cases h with
  | intro hph hu => exact ⟨hph, filter_filtered hn (hs.primed hph) (hs.network ▸ hu)⟩

theorem Decides.sound (hn : n.WellFormed) (hs : s.Sound n) (h : s.Decides v d other) :
    v.Sound n := by
  have hrest := (h.filtered hn hs).2.rests rfl
  cases h with
  | intro =>
    exact ⟨hs.network, hrest.coherent, fun _ => hrest.primed, hs.points, hs.rooted⟩

theorem commit_sound (hn : n.WellFormed) (hs : s.Sound n) (hd : s.Decides v d other)
    (hcs : v.choicePoints.push ⟨v.state.box, v.state.entailed, other⟩ = .ok cs) :
    (v.commit d cs).Sound n ∧ Pushes n s (v.commit d cs) := by
  have hv := hd.sound hn hs
  have hrest := (hd.filtered hn hs).2.rests rfl
  obtain ⟨i, hi, hsplits, -⟩ := hd.splits
  have hroot := hs.rooted ((hd.filtered hn hs).1 ▸ Phase.noConfusion)
  have hlive : cs.live = s.choicePoints.live ++ [⟨v.state.box, v.state.entailed, other⟩] := by
    rw [ChoicePoints.live_push hcs, hd.choicePoints]
  have hp : (v.commit d cs).state.Primed n := by
    have htold := (hrest.primed.count fun c =>
      { c with choices := c.choices + 1 }.recordDepth cs.depth).tell (.decision d cs.depth)
    have := htold.narrow d.commitment hn (commitment_alive hrest.alive hi hsplits)
    rw [← hv.network] at this ⊢
    exact this
  refine ⟨⟨hv.network, hp.coherent, fun _ => hp, fun c hc => ?_, fun _ c hc => ?_⟩,
    .inr ⟨_, hlive, hrest.alive, hrest.stable⟩⟩
  · rcases List.mem_append.1 (hlive ▸ hc) with hc | hc
    · exact hs.points c hc
    · rw [List.mem_singleton.1 hc]
      exact hrest.sound other
  · rcases List.mem_append.1 (hlive ▸ hc) with hc | hc
    · rw [show (v.commit d cs).objective = s.objective from hd.objective]
      exact hroot c hc
    · rw [List.mem_singleton.1 hc]
      exact hrest.rooted other _

/-- **A move keeps the invariant**, and a decision pushes a stable box. -/
theorem step_sound (hn : n.WellFormed) (hs : s.Sound n) (h : s.step = .ok (t, a)) :
    t.Sound n ∧ Pushes n s t := by
  cases step_moves h with
  | close =>
    exact ⟨⟨hs.network, hs.coherent, Phase.noConfusion, hs.points, fun h => absurd rfl h⟩,
      .inl List.prefix_rfl⟩
  | enter hph hne =>
    have hp := hs.coherent.primed_of_keys (Box.anyEmpty_eq_false_iff.1 hne)
    rw [← hs.network] at hp
    exact ⟨⟨hs.network, hs.coherent.triggerAll _, fun _ => hs.network ▸ hp, hs.points,
      fun _ => hs.rooted (hph ▸ Phase.noConfusion)⟩, .inl List.prefix_rfl⟩
  | fail hph hu =>
    have hfil := filter_filtered hn (hs.primed hph) (hs.network ▸ hu)
    exact ⟨⟨hs.network, hfil.coherent, Phase.noConfusion, hs.points,
      fun _ => hs.rooted (hph ▸ Phase.noConfusion)⟩, .inl List.prefix_rfl⟩
  | leaf hph hu =>
    have hrest := (filter_filtered hn (hs.primed hph) (hs.network ▸ hu)).rests rfl
    exact ⟨⟨hs.network, (hrest.coherent.count _).tell _, Phase.noConfusion, hs.points,
      fun _ => hs.rooted (hph ▸ Phase.noConfusion)⟩, .inl List.prefix_rfl⟩
  | commit hd hcs => exact commit_sound hn hs hd hcs
  | overflow hd =>
    have hv := hd.sound hn hs
    exact ⟨⟨hv.network, hv.coherent, Phase.noConfusion, hv.points, fun h => absurd rfl h⟩,
      .inl (hd.choicePoints ▸ List.prefix_rfl)⟩
  | leave hl => exact (leave_sound hn hs hl).imp_right .inl
  | stop => exact ⟨hs, .inl List.prefix_rfl⟩

/-! ### Between searches -/

theorem start_sound {p : Problem} (hp : p.Sound) (o : Options) (log : Log) (b : Brancher σ)
    (m : σ) : ((ofProblem p o log).withBrancher b m).Sound p.network where
  network := rfl
  coherent := (⟨rfl, rfl, Triggered.faithful_ofSize _⟩ : State.Starts _ p).coherent hp
  primed := Phase.noConfusion
  points _ hc := absurd hc List.not_mem_nil
  rooted _ _ hc := absurd hc List.not_mem_nil

theorem entry_map_false (t : Keyed PropagatorId Bool) (id : PropagatorId) :
    (t.map fun _ => false : Keyed PropagatorId Bool).entry id = false := by
  show (t.entries.map fun _ => false).getD id.index false = false
  rw [Array.getD_eq_getD_getElem?, Array.getElem?_map]
  cases t.entries[id.index]? <;> rfl

theorem reset_sound (hs : s.Sound n) : s.reset.Sound n where
  network := hs.network
  coherent :=
    { inside := hs.network ▸ .refl _
      faithful := hs.coherent.faithful.clear
      flags := by
        rw [← hs.coherent.flags]
        exact Array.size_map
      settled := fun {id} _ _ he => by
        have hfalse : s.reset.state.entailed.entry id = false := entry_map_false s.state.entailed id
        rw [hfalse] at he
        cases he }
  primed := Phase.noConfusion
  points c hc := by
    rw [show s.reset.choicePoints.live = [] from ChoicePoints.live_clear _] at hc
    cases hc
  rooted _ c hc := by
    rw [show s.reset.choicePoints.live = [] from ChoicePoints.live_clear _] at hc
    cases hc

theorem restart_sound (hs : s.Sound n) (br : Branch) : (s.restart br).Sound n :=
  have h := reset_sound hs
  ⟨h.network, h.coherent.narrowed (Box.tighten_inside _ br), Phase.noConfusion, h.points, h.rooted⟩

/-- Pruning narrows the boxes of the choice points at the bound of the objective only. -/
theorem prune_sound (hs : s.Sound n)
    (ho : ∀ p, s.objective = some p → p.domain = br.domain ∧ p.bound = br.bound) :
    (s.prune br).Sound n := by
  have hlive := ChoicePoints.live_tightenAll s.choicePoints br
  refine ⟨hs.network, hs.coherent, hs.primed, fun c hc => ?_, fun hph c hc => ?_⟩
  · obtain ⟨e, he, rfl⟩ := List.mem_map.1 (hlive ▸ hc)
    exact (hs.points e he).tighten br
  · obtain ⟨e, he, rfl⟩ := List.mem_map.1 (hlive ▸ hc)
    exact (hs.rooted hph e he).tighten ho

theorem tellObjective_sound (hs : s.Sound n) (value : Int) : (s.tellObjective value).Sound n where
  network := hs.network
  coherent := hs.coherent.tell _
  primed hph := (hs.primed hph).tell _
  points := hs.points
  rooted := hs.rooted

/-- Once the search is exhausted the objective can be dropped. -/
theorem drop_sound (hs : s.Sound n) (hph : s.phase = .exhausted) :
    ({ s with objective := none } : Solver σ).Sound n :=
  ⟨hs.network, hs.coherent, hs.primed, hs.points, fun hne => absurd hph hne⟩

end Solver
end BoundsSolver
