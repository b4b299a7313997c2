/-
# What becomes of the pending solutions

A move that comes to no answer neither loses a pending solution nor adds one.  A move
that hands out a solution takes just this one off, and the search says that nothing is
left only if no solution is pending.  `Solver.Accounts` says so for a move and for a
search for the next answer alike; `step_accounts` shows it for the one and
`solveOne_accounts` for the other.
-/

import BoundsSolver.Proofs.Search.Frontier

namespace BoundsSolver
namespace Solver

/-- What becomes of the pending solutions on the way to an answer. -/
def Accounts {σ : Type} (n : Network) (s t : Solver σ) : Option Answer → Prop
  | none => ∀ as, s.Pending n as ↔ t.Pending n as
  | some (.solution values) => ∃ as, values = n.valuesOf as ∧ ¬ t.Pending n as ∧
      ∀ bs, s.Pending n bs ↔ bs = as ∨ t.Pending n bs
  | some .exhausted => ∀ as, ¬ s.Pending n as
  | some (.overflow _) => True

variable {σ : Type} {n : Network} {s t v : Solver σ} {as : List Int} {a : Option Answer}
  {d : Decision} {i : Interval} {other : Branch} {b : Box} {ws : List Box} {u : State}

/-! ### Pending solutions -/

theorem exists_mem_concat : (∃ e ∈ ws ++ [b], Mem as (Keyed.toList e)) ↔
    (∃ e ∈ ws, Mem as (Keyed.toList e)) ∨ Mem as b.toList := by
  simp [or_and_right, exists_or]

theorem pairwise_concat {R : Box → Box → Prop} :
    (ws ++ [b]).Pairwise R ↔ ws.Pairwise R ∧ ∀ e ∈ ws, R e b := by
  simp [List.pairwise_append]

theorem pending_iff_of_left (h : s.Left) : s.Pending n as ↔
    n.Satisfies as ∧ ∃ e ∈ s.behind, Mem as (Keyed.toList e) := by
  rw [← frontier_of_left h]
  exact Iff.rfl

theorem pending_iff_of_filtering (h : s.phase = .filtering) : s.Pending n as ↔
    n.Satisfies as ∧ ((∃ e ∈ s.behind, Mem as (Keyed.toList e)) ∨ Mem as s.state.box.toList) := by
  rw [← exists_mem_concat, ← frontier_of_filtering h]
  exact Iff.rfl

theorem not_pending_of_exhausted (h : s.phase = .exhausted) : ¬ s.Pending n as := by
  rintro ⟨-, e, he, -⟩
  rw [frontier_of_exhausted h] at he
  cases he

theorem orderly_of_exhausted (h : s.phase = .exhausted) : s.Orderly where
  fresh hph := by
    rw [h] at hph
    cases hph
  apart := by
    rw [frontier_of_exhausted h]
    exact .nil

/-- An answer after moves that lose nothing. -/
theorem Accounts.after (h : Accounts n t v a) (hst : ∀ as, s.Pending n as ↔ t.Pending n as) :
    Accounts n s v a := by
  match a with
  | none =>
    intro as
    exact (hst as).trans (h as)
  | some (.solution values) =>
    obtain ⟨as, hvalues, hgone, hiff⟩ := h
    refine ⟨as, hvalues, hgone, ?_⟩
    intro bs
    exact (hst bs).trans (hiff bs)
  | some .exhausted =>
    intro as hp
    exact h as ((hst as).1 hp)
  | some (.overflow _) => trivial

/-! ### The moves -/

theorem close_accounts (ho : s.Orderly) (hph : s.phase = .ready)
    (hempty : s.state.box.anyEmpty = true) : Accounts n s { s with phase := .exhausted } none := by
  intro as
  constructor
  · rintro ⟨-, e, he, hm⟩
    rw [frontier_of_ready hph, behind, ho.fresh hph] at he
    obtain rfl := List.mem_singleton.1 he
    rw [Box.anyEmpty_eq_false_iff.2 (Box.alive_of_mem hm)] at hempty
    cases hempty
  · intro hp
    exact absurd hp (not_pending_of_exhausted rfl)

/-- A node that fails takes no solution along. -/
theorem fail_accounts (ho : s.Orderly) (hph : s.phase = .filtering)
    (hfil : Filtered n s.state u false) :
    ({ s with phase := .backtrack, state := u } : Solver σ).Orderly ∧
      Accounts n s { s with phase := .backtrack, state := u } none := by
  have hleft : ({ s with phase := .backtrack, state := u } : Solver σ).Left := .inr rfl
  refine ⟨⟨Phase.noConfusion, ?_⟩, ?_⟩
  · rw [frontier_of_left hleft]
    have hapart := ho.apart
    rw [frontier_of_filtering hph, pairwise_concat] at hapart
    exact hapart.1
  · intro as
    rw [pending_iff_of_filtering hph, pending_iff_of_left hleft]
    refine and_congr_right fun hsat => ?_
    constructor
    · rintro (hbehind | hm)
      · exact hbehind
      · cases (hfil.keeps hm hsat).1
    · exact .inl

/-- A node that is filtered keeps its solutions. -/
theorem keep_accounts (ho : s.Orderly) (hph : s.phase = .filtering) (hph' : v.phase = .filtering)
    (hcs : v.choicePoints = s.choicePoints) (hfil : Filtered n s.state v.state true) :
    v.Orderly ∧ ∀ as, s.Pending n as ↔ v.Pending n as := by
  have hbehind : v.behind = s.behind := congrArg (List.map _ ∘ ChoicePoints.live) hcs
  refine ⟨⟨?_, ?_⟩, ?_⟩
  · intro hready
    rw [hph'] at hready
    cases hready
  · have hapart := ho.apart
    rw [frontier_of_filtering hph, pairwise_concat] at hapart
    rw [frontier_of_filtering hph', hbehind, pairwise_concat]
    refine ⟨hapart.1, ?_⟩
    intro e he
    exact (hapart.2 e he).of_inside (.refl _) hfil.inside
  · intro as
    rw [pending_iff_of_filtering hph, pending_iff_of_filtering hph', hbehind]
    refine and_congr_right fun hsat => or_congr_right ?_
    constructor
    · intro hm
      exact (hfil.keeps hm hsat).2
    · intro hm
      exact Box.mem_of_inside hm hfil.inside

/-- A decision divides the solutions of the node. -/
theorem commit_accounts {cs : ChoicePoints} (ho : s.Orderly) (hph : s.phase = .filtering)
    (hi : s.state.box.get d.domain = .ok i) (hother : d.alternative = .ok other)
    (hcs : s.choicePoints.push ⟨s.state.box, s.state.entailed, other⟩ = .ok cs) :
    (s.commit d cs).Orderly ∧ Accounts n s (s.commit d cs) none := by
  have hph' : (s.commit d cs).phase = .filtering := hph
  refine ⟨⟨?_, ?_⟩, ?_⟩
  · intro hready
    rw [hph'] at hready
    cases hready
  · have hapart := ho.apart
    rw [frontier_of_filtering hph, pairwise_concat] at hapart
    rw [commit_frontier hph hcs, pairwise_concat, pairwise_concat]
    obtain ⟨hws, hnode⟩ := hapart
    refine ⟨⟨hws, ?_⟩, ?_⟩
    · intro e he
      exact (hnode e he).of_inside (.refl _) (Box.tighten_inside _ _)
    · intro e he
      rcases List.mem_append.1 he with he | he
      · exact (hnode e he).of_inside (.refl _) (Box.tighten_inside _ _)
      · rw [List.mem_singleton.1 he]
        exact branches_apart hi hother
  · intro as
    unfold Pending
    rw [frontier_of_filtering hph, commit_frontier hph hcs, exists_mem_concat, exists_mem_concat,
      exists_mem_concat, or_assoc, ← mem_branches_iff hi hother]

/-- A leaf takes one solution off. -/
theorem leaf_accounts {values : List Int} (hn : n.WellFormed) (ho : s.Orderly)
    (hph : s.phase = .filtering) (hrest : s.state.Resting n)
    (hfix : s.state.box.firstUnfixed? = none) (h : n.lowest s.state.box = .ok values) :
    (s.solve values).Orderly ∧ Accounts n s (s.solve values) (some (.solution values)) := by
  obtain ⟨as, hsat, hvalues, hm⟩ :=
    leaf_point hn hrest.coherent.inside hrest.alive hrest.stable hfix h
  have hleft : (s.solve values).Left := .inl rfl
  have hapart := ho.apart
  rw [frontier_of_filtering hph, pairwise_concat] at hapart
  obtain ⟨hws, hnode⟩ := hapart
  refine ⟨⟨Phase.noConfusion, ?_⟩, as, hvalues, ?_, ?_⟩
  · rw [frontier_of_left hleft]
    exact hws
  · rw [pending_iff_of_left hleft]
    rintro ⟨-, e, he, hme⟩
    exact hnode e he as hme (hm.2 rfl)
  · intro bs
    rw [pending_iff_of_filtering hph, pending_iff_of_left hleft]
    constructor
    · rintro ⟨hbs, hbehind | hmb⟩
      · exact .inr ⟨hbs, hbehind⟩
      · exact .inl (hm.1 hmb)
    · rintro (rfl | ⟨hbs, hbehind⟩)
      · exact ⟨hsat, .inr (hm.2 rfl)⟩
      · exact ⟨hbs, .inl hbehind⟩

/-- A dead box that is skipped has no solution. -/
theorem leave_accounts (hn : n.WellFormed) (hs : s.Sound n) (ho : s.Orderly) (hl : s.Left) :
    s.leave.Orderly ∧ Accounts n s s.leave none := by
  obtain ⟨skipped, hfrontier, hdead⟩ := leave_frontier hn hs hl
  have hready : s.leave.phase ≠ .ready := by
    unfold leave
    split <;> exact Phase.noConfusion
  refine ⟨⟨fun hph => absurd hph hready, ?_⟩, ?_⟩
  · have hapart := ho.apart
    rw [hfrontier] at hapart
    exact (List.pairwise_append.1 hapart).1
  · intro as
    constructor
    · rintro ⟨hsat, e, he, hm⟩
      rw [hfrontier] at he
      rcases List.mem_append.1 he with he | he
      · exact ⟨hsat, e, he, hm⟩
      · exact absurd hm (Box.not_mem_of_not_alive (hdead e he))
    · rintro ⟨hsat, e, he, hm⟩
      refine ⟨hsat, e, ?_, hm⟩
      rw [hfrontier]
      exact List.mem_append_left _ he

/-- **A move accounts for the pending solutions.** -/
theorem step_accounts (hn : n.WellFormed) (hs : s.Sound n) (ho : s.Orderly)
    (h : s.step = .ok (t, a)) : t.Orderly ∧ Accounts n s t a := by
  cases step_moves h with
  | close hph hempty => exact ⟨orderly_of_exhausted rfl, close_accounts ho hph hempty⟩
  | enter hph =>
    have hapart := ho.apart
    rw [frontier_of_ready hph] at hapart
    refine ⟨⟨Phase.noConfusion, hapart⟩, ?_⟩
    intro as
    unfold Pending
    rw [frontier_of_ready hph]
    exact Iff.rfl
  | fail hph hu => exact fail_accounts ho hph (filter_filtered hn (hs.primed hph) (hs.network ▸ hu))
  | @leaf u values hph hu hfix hvalues =>
    have hfil := filter_filtered hn (hs.primed hph) (hs.network ▸ hu)
    obtain ⟨ho', hsame⟩ := keep_accounts (v := { s with state := u }) ho hph hph rfl hfil
    obtain ⟨ho'', hacc⟩ := leaf_accounts hn ho' hph (hfil.rests rfl) hfix (hs.network ▸ hvalues)
    exact ⟨ho'', hacc.after hsame⟩
  | commit hd hcs =>
    obtain ⟨hph, hfil⟩ := hd.filtered hn hs
    obtain ⟨i, hi, -, hother⟩ := hd.splits
    obtain ⟨ho', hsame⟩ := keep_accounts ho hph hd.phase hd.choicePoints hfil
    obtain ⟨ho'', hacc⟩ := commit_accounts ho' hd.phase hi hother hcs
    exact ⟨ho'', hacc.after hsame⟩
  | overflow => exact ⟨orderly_of_exhausted rfl, trivial⟩
  | leave hl => exact leave_accounts hn hs ho hl
  | stop hph => exact ⟨ho, fun as => not_pending_of_exhausted hph⟩

/-- **So does the search for the next answer.** -/
theorem solveOne_accounts {a : Answer} (hn : n.WellFormed) (hs : s.Sound n) (ho : s.Orderly)
    (h : s.solveOne = .ok (a, t)) : t.Sound n ∧ t.Orderly ∧ Accounts n s t (some a) := by
  fun_induction solveOne s with
  | case1 => cases h
  | case2 s u a hstep =>
    obtain ⟨rfl, rfl⟩ := Prod.mk.inj (Except.ok.inj h)
    exact ⟨(step_sound hn hs hstep).1, step_accounts hn hs ho hstep⟩
  | case3 s u hstep ih =>
    obtain ⟨ho', hsame⟩ := step_accounts hn hs ho hstep
    obtain ⟨hs', ho'', hacc⟩ := ih (step_sound hn hs hstep).1 ho' h
    exact ⟨hs', ho'', hacc.after hsame⟩

end Solver
end BoundsSolver
