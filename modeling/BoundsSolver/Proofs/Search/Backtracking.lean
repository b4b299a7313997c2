/-
# Choice points taken back by hand

To leave a node, a search takes choice points back and then declares the node that it enters
to be filtered next.  `Solver.backtrack` does the first alone.  Called after a solution, it
enters a node that counts as left, so that the next search leaves it at once, for the choice
point below: what the restored branch holds is passed over (`backtrack_forfeits`).

The search that was not interrupted goes through that branch first.  It stays below the choice
points that are left (`Solver.Below`), since a move may add some on top and take those back
again, until it leaves its last node there.  From then on it has the same boxes ahead as the
other one (`collectOnto_below`).
-/

import BoundsSolver.Proofs.Search.Ends
import BoundsSolver.Proofs.Search.Mirroring
import BoundsSolver.Proofs.Search.Nodes

namespace BoundsSolver

variable {σ : Type} {p : Problem} {n : Network} {s t u w : Solver σ} {a : Option Answer}
  {as values : List Int} {found solutions ass bss lost : List (List Int)} {ws : List Box}
  {es : List (Call × Reply)}

/-- Calls do not change the brancher. -/
theorem History.brancher (h : History s es t) : t.brancher = s.brancher := by
  induction h with
  | nil => rfl
  | @cons s t _ _ _ _ hrun _ ih =>
    have hkept : Solver.Kept fun v : Solver σ => v.brancher = s.brancher :=
      { step hv h := (Solver.step_keeps h).brancher.trans hv
        reset hv := hv
        tell _ hv := hv
        prune hv _ := hv
        restart _ hv := hv
        drop hv _ := hv }
    exact ih.trans (hkept.run (Solver.backtrack_keeps rfl).brancher rfl hrun)

namespace Solver

/-- The search is below the choice points of `u`, in branches that are searched first. -/
structure Below (n : Network) (u s : Solver σ) : Prop where
  sound : s.Sound n
  orderly : s.Orderly
  setting : u.Keeps s
  entered : s.phase ≠ .ready
  unfinished : s.phase ≠ .exhausted
  points : u.behind <+: s.behind

/-! ### Below the choice points -/

theorem backtrack_below {found : Bool} (hpre : ws <+: s.behind) (h : s.backtrack = (found, t)) :
    (found = true ∧ ws <+: t.behind) ∨
      ws.rdropWhile Box.anyEmpty = s.behind.rdropWhile Box.anyEmpty := by
  fun_induction backtrack s with
  | case1 s hp =>
    have hnil : s.behind = [] := by
      rw [behind, ChoicePoints.pop?_eq_none_iff.1 hp]
      rfl
    rw [hnil] at hpre ⊢
    rw [List.prefix_nil.1 hpre]
    exact .inr rfl
  | case2 s c cs hp hempty ih =>
    rw [behind_of_pop hp] at hpre ⊢
    rcases List.prefix_concat_iff.1 hpre with rfl | hpre
    · exact .inr rfl
    · rw [List.rdropWhile_concat_pos _ _ _ hempty]
      exact ih hpre h
  | case3 s c cs hp _ =>
    obtain ⟨rfl, rfl⟩ := Prod.mk.inj h
    rw [behind_of_pop hp] at hpre ⊢
    rcases List.prefix_concat_iff.1 hpre with rfl | hpre
    · exact .inr rfl
    · refine .inl ⟨rfl, ?_⟩
      rw [behind, resume_choicePoints]
      exact hpre

/-- Leaving a node below the choice points stays there, or leaves them alike. -/
theorem leave_below (h : ws <+: s.behind) :
    (s.leave.phase = .filtering ∧ ws <+: s.leave.behind) ∨
      ws.rdropWhile Box.anyEmpty = s.behind.rdropWhile Box.anyEmpty := by
  unfold leave
  split <;> rename_i t ht
  · exact (backtrack_below h ht).imp_left fun hpre => ⟨rfl, hpre.2⟩
  · exact (backtrack_below h ht).imp_left fun hpre => absurd hpre.1 Bool.false_ne_true

/-- **A move stays below the choice points or comes back to them**, if it does not run out of
them. -/
theorem step_below (hn : n.WellFormed) (hu : u.Sound n) (hl : u.Left) (h : u.Below n s)
    (hs : s.step = .ok (t, a)) :
    (a = none ∧ u.leave.Mirrors n t ∧ t.Orderly) ∨ (∃ capacity, a = some (.overflow capacity)) ∨
      u.Below n t := by
  have hsound := (step_sound hn h.sound hs).1
  have horderly := (step_accounts hn h.sound h.orderly hs).1
  have hsetting := h.setting.trans (step_keeps hs)
  have hgo (hph : t.phase ≠ .ready) (hph' : t.phase ≠ .exhausted) (hpre : u.behind <+: t.behind) :
      u.Below n t := ⟨hsound, horderly, hsetting, hph, hph', hpre⟩
  cases step_moves hs with
  | close hph => exact absurd hph h.entered
  | enter hph => exact absurd hph h.entered
  | fail => exact .inr (.inr (hgo Phase.noConfusion Phase.noConfusion h.points))
  | leaf => exact .inr (.inr (hgo Phase.noConfusion Phase.noConfusion h.points))
  | @commit v d other cs hd hcs =>
    have hph : (v.commit d cs).phase = .filtering := hd.phase
    refine .inr (.inr (hgo (hph ▸ Phase.noConfusion) (hph ▸ Phase.noConfusion)
      (h.points.trans ?_)))
    show s.behind <+: cs.live.map ChoicePoint.otherBox
    rw [ChoicePoints.live_push hcs, hd.choicePoints, List.map_append]
    exact List.prefix_append _ _
  | overflow => exact .inr (.inl ⟨_, rfl⟩)
  | leave hl' =>
    rcases leave_below h.points with ⟨hph, hpre⟩ | hsame
    · exact .inr (.inr (hgo (hph ▸ Phase.noConfusion) (hph ▸ Phase.noConfusion) hpre))
    · refine .inl ⟨rfl, ⟨leave_abreast hsame, (leave_sound hn hu hl).1, hsound, ?_⟩, horderly⟩
      exact (leave_keeps u).symm.trans hsetting
  | stop hph => exact absurd hph h.unfinished

theorem solveOne_below {a : Answer} (hn : n.WellFormed) (hu : u.Sound n) (hl : u.Left)
    (h : u.Below n s) (hs : s.solveOne = .ok (a, t)) :
    (∃ w, u.leave.Mirrors n w ∧ w.Orderly ∧ s.solveOne = w.solveOne) ∨
      (∃ capacity, a = .overflow capacity) ∨ (∃ values, a = .solution values) ∧ u.Below n t := by
  fun_induction solveOne s with
  | case1 => cases hs
  | case2 s v a hstep =>
    obtain ⟨rfl, rfl⟩ := Prod.mk.inj (Except.ok.inj hs)
    rcases step_below hn hu hl h hstep with ⟨hnone, -⟩ | ⟨capacity, hover⟩ | hbelow
    · cases hnone
    · exact .inr (.inl ⟨capacity, Option.some.inj hover⟩)
    · cases a with
      | solution values => exact .inr (.inr ⟨⟨values, rfl⟩, hbelow⟩)
      | overflow capacity => exact .inr (.inl ⟨capacity, rfl⟩)
      | exhausted => exact absurd (step_exhausted hstep).1 h.unfinished
  | case3 s v hstep ih =>
    rcases step_below hn hu hl h hstep with ⟨-, hmirrors, ho⟩ | ⟨capacity, hover⟩ | hbelow
    · exact .inl ⟨v, hmirrors, ho, rfl⟩
    · cases hover
    · exact ih hbelow hs

/-- **Collecting all solutions comes back to the choice points**, and then has the same boxes
ahead as a search that leaves them at once. -/
theorem collectOnto_below {s : Solver σ} {found : List (List Int)} (hn : n.WellFormed)
    (hu : u.Sound n) (hl : u.Left) (h : u.Below n s)
    (hall : (s.collectOnto found none).outcome = .ok (.ok solutions)) :
    ∃ found' w, u.leave.Mirrors n w ∧ w.Orderly ∧
      (w.collectOnto found' none).outcome = .ok (.ok solutions) := by
  rw [collectOnto_outcome] at hall
  obtain ⟨⟨a, t⟩, ht, hrest⟩ := bind_eq_ok.1 hall
  rcases solveOne_below hn hu hl h ht with ⟨w, hmirrors, ho, hsame⟩ | ⟨_, rfl⟩ | ⟨⟨_, rfl⟩, hbelow⟩
  · rw [hsame, ← collectOnto_outcome] at hall
    exact ⟨found, w, hmirrors, ho, hall⟩
  · cases hrest
  · exact collectOnto_below hn hu hl hbelow hrest
termination_by s.weight
decreasing_by exact solveOne_solution_weight ht

/-! ### What is handed out -/

theorem collect_of_collectOnto (h : (s.collectOnto found none).outcome = .ok (.ok solutions)) :
    ∃ rest, (s.collect none).outcome = .ok (.ok rest) ∧ solutions = found.reverse ++ rest := by
  rw [collectOnto_eq] at h
  unfold Collected.outcome at h ⊢
  split at h
  · rename_i hending
    obtain rfl := Except.ok.inj (Except.ok.inj h)
    refine ⟨_, ?_, rfl⟩
    rw [show (s.collect none).ending = .complete from hending]
  · cases h
  · cases h

/-- The next solutions are all that collecting goes by. -/
theorem collect_outcome_congr (h : s.solveOne = t.solveOne) :
    (s.collect none).outcome = (t.collect none).outcome := by
  rw [collect, collect, collectOnto_outcome s, collectOnto_outcome t, h]

theorem solveOne_of_left (hl : s.Left) : s.solveOne = s.leave.solveOne :=
  solveOne_of_step (step_of_left hl)

/-- Without a choice point to take back, a search that has left its node is at its end. -/
theorem solveOne_of_backtrack_false (hl : t.Left) (h : t.backtrack = (false, u)) :
    t.solveOne = .ok (.exhausted, t.leave) := by
  have hend : t.leave.phase = .exhausted := by
    rw [leave, h]
  rw [solveOne_of_left hl, solveOne_of_end hend]

/-- A search that leaves its node is below the choice points that it does not take back. -/
theorem below_of_backtrack (hn : n.WellFormed) (ht : t.Idle n) (hl : t.Left)
    (h : t.backtrack = (true, u)) :
    u.Idle n ∧ u.Left ∧ u.Below n { u with phase := .filtering } ∧
      ({ u with phase := .filtering } : Solver σ).solveOne = t.solveOne := by
  have hleave : t.leave = { u with phase := .filtering } := by
    rw [leave, h]
  have hsound := (leave_sound hn ht.sound hl).1
  have horderly := (leave_accounts hn ht.sound ht.orderly hl).1
  have hnext := solveOne_of_left hl
  rw [hleave] at hsound horderly hnext
  refine ⟨(backtrack_serves hn ht h).idle, ?_, ⟨hsound, horderly, ⟨rfl, rfl, rfl, rfl, rfl⟩,
    Phase.noConfusion, Phase.noConfusion, List.prefix_rfl⟩, hnext.symm⟩
  rw [Left, (backtrack_sound hn ht.sound hl.ne_filtering h).2.1]
  exact hl

/-- A search below the choice points of `u` finds some solutions first, and then those that are
pending once it has come back to them. -/
theorem collect_below (hn : n.WellFormed) (hu : u.Sound n) (hl : u.Left) (h : u.Below n s)
    (hall : (s.collect none).outcome = .ok (.ok solutions)) :
    ∃ lost rest w, solutions = lost ++ rest ∧ u.leave.Mirrors n w ∧ w.Orderly ∧
      (w.collect none).outcome = .ok (.ok rest) := by
  obtain ⟨found, w, hmirrors, ho, hw⟩ := collectOnto_below hn hu hl h hall
  obtain ⟨rest, hrest, hsolutions⟩ := collect_of_collectOnto hw
  exact ⟨found.reverse, rest, w, hsolutions, hmirrors, ho, hrest⟩

/-- What stands in front of the solutions that are pending later are those that are pending no
more. -/
theorem Lists.mem_front_iff (hn : n.WellFormed) (hs : s.Sound n) (ht : t.Sound n)
    (h : s.Lists n ass) (h' : t.Lists n bss)
    (heq : ass.map n.valuesOf = lost ++ bss.map n.valuesOf) :
    values ∈ lost ↔ ∃ as, (s.Pending n as ∧ ¬ t.Pending n as) ∧ n.valuesOf as = values := by
  have hwithin (as : List Int) (has : as ∈ ass) : Mem as n.initial.toList :=
    (hs.solves_of_pending ((h.mem_iff as).1 has)).within
  have hnodup : (lost ++ bss.map n.valuesOf).Nodup := heq ▸ hn.nodup_valuesOf hwithin h.nodup
  have hmem : values ∈ ass.map n.valuesOf ↔ values ∈ lost ∨ values ∈ bss.map n.valuesOf := by
    rw [heq, List.mem_append]
  constructor
  · intro hv
    obtain ⟨as, has, rfl⟩ := List.mem_map.1 (hmem.2 (.inl hv))
    refine ⟨as, ⟨(h.mem_iff as).1 has, fun hp => ?_⟩, rfl⟩
    exact List.disjoint_of_nodup_append hnodup hv (List.mem_map_of_mem ((h'.mem_iff as).2 hp))
  · rintro ⟨as, ⟨hp, hgone⟩, rfl⟩
    have has := (h.mem_iff as).2 hp
    refine (hmem.1 (List.mem_map_of_mem has)).resolve_right fun hv => hgone ?_
    obtain ⟨bs, hbs, hsame⟩ := List.mem_map.1 hv
    have hpending := (h'.mem_iff bs).1 hbs
    have hbs := (ht.solves_of_pending hpending).within
    rwa [hn.eq_of_valuesOf hbs (hwithin as has) hsame] at hpending

/-- As long as a node is to be filtered, its box is pending besides what is left behind. -/
theorem pending_box_iff (hn : n.WellFormed) (hu : u.Idle n) (hl : u.Left)
    (ho : ({ u with phase := .filtering } : Solver σ).Orderly) (hw : u.leave.Abreast w) :
    ({ u with phase := .filtering } : Solver σ).Pending n as ∧ ¬ w.Pending n as ↔
      n.Satisfies as ∧ Mem as u.state.box.toList := by
  have hrest : w.Pending n as ↔ n.Satisfies as ∧ ∃ e ∈ u.behind, Mem as (Keyed.toList e) := by
    rw [← pending_iff_of_left hl, (leave_accounts hn hu.sound hu.orderly hl).2 as]
    exact hw.pending_iff.symm
  have hapart := ho.apart
  rw [frontier_of_filtering rfl, pairwise_concat] at hapart
  rw [pending_iff_of_filtering rfl, hrest]
  constructor
  · rintro ⟨⟨hsat, hbehind | hm⟩, hgone⟩
    · exact absurd ⟨hsat, hbehind⟩ hgone
    · exact ⟨hsat, hm⟩
  · rintro ⟨hsat, hm⟩
    refine ⟨⟨hsat, .inr hm⟩, ?_⟩
    rintro ⟨-, e, he, hme⟩
    exact hapart.2 e he as hme hm

end Solver

/-! ### A truth value -/

/-- The search for a truth value comes to 0 first.  Going on it finds 1, but not once the choice
point has been taken back. -/
theorem solveOne_then_backtrack :
    let s := Solver.ofProblem (.ofIntervals [⟨0, 1⟩]) .default .off
    ∃ t u, s.solveOne = .ok (.solution [0], t) ∧ t.backtrack = (true, u) ∧
      (t.collect none).outcome = .ok (.ok [[1]]) ∧ (u.collect none).outcome = .ok (.ok []) := by
  intro s
  have hfound : ∃ t, s.solveOne = .ok (.solution [0], t) ∧ t.backtrack.1 = true ∧
      (t.collect none).outcome = .ok (.ok [[1]]) ∧
        (t.backtrack.2.collect none).outcome = .ok (.ok []) := by
    decide +kernel
  obtain ⟨t, ht, hmoved, hnext, hlost⟩ := hfound
  exact ⟨t, t.backtrack.2, ht, Prod.ext hmoved rfl, hnext, hlost⟩

/-! ### The result -/

/-- **Taking a choice point back by hand gives its branch up.**  Let a search have come to a
solution, after calls in any order, with the given solutions to follow if it just goes on.  If
there is no branch to take back, there are none.  If the caller does take one back, then

* with the phase declared as a search does when it leaves a node, the next search would be the
  same as without the call;
* as it is, the solutions in the box of the branch are lost.  They are the first of those to
  follow, and if the search comes to its end then it finds the others, none of them twice;
* with a brancher that goes by the box it finds them in the same order and does not run out of
  choice points. -/
theorem backtrack_forfeits {o : Options} {log : Log} {b : Brancher σ} {m : σ} {found : Bool}
    (hp : Built p) (hcalls : History ((Solver.ofProblem p o log).withBrancher b m) es s)
    (hone : s.solveOne = .ok (.solution values, t)) (hback : t.backtrack = (found, u))
    (hall : (t.collect none).outcome = .ok (.ok solutions)) :
    (found = false → solutions = []) ∧
    (found = true →
      ({ u with phase := .filtering } : Solver σ).solveOne = t.solveOne ∧
      ∃ lost rest, solutions = lost ++ rest ∧
        (∀ values, values ∈ lost ↔ ∃ as, (p.network.Satisfies as ∧ Mem as u.state.box.toList) ∧
          p.network.valuesOf as = values) ∧
        (∀ others, (u.collect none).outcome = .ok (.ok others) → others.Perm rest) ∧
        (b.GoesByBox → ∀ r, (u.collect none).outcome = .ok r → r = .ok rest)) := by
  have hn := hp.sound.network
  have ht : t.Idle p.network :=
    (Solver.solveOne_serves hn (hcalls.idle hn (Solver.start_idle hp o log b m)) hone).idle
  have hleft : t.Left := .inl (Solver.solveOne_solution hone)
  constructor
  · rintro rfl
    have hnone := Solver.solveOne_of_backtrack_false hleft hback
    rw [Solver.collect, Solver.collectOnto_of_exhausted hnone] at hall
    exact (Except.ok.inj (Except.ok.inj hall)).symm
  · rintro rfl
    obtain ⟨hu, hleft', hbelow, hnext⟩ := Solver.below_of_backtrack hn ht hleft hback
    -- Without the call the search first goes through the branch, below the points of `u`.
    have hall' := (Solver.collect_outcome_congr hnext).trans hall
    obtain ⟨lost, rest, w, hsolutions, hmirrors, ho, hrest⟩ :=
      Solver.collect_below hn hu.sound hleft' hbelow hall'
    obtain ⟨ass, hass, hlist⟩ := Solver.collect_lists hn hbelow.sound hbelow.orderly hall'
    obtain ⟨bss, hbss, hothers⟩ := Solver.collect_lists hn hmirrors.right ho hrest
    -- After the call it starts by leaving `u`.
    have hu' := Solver.collect_outcome_congr (Solver.solveOne_of_left hleft')
    refine ⟨hnext, lost, rest, hsolutions, fun values => ?_, fun others h => ?_, fun hb r h => ?_⟩
    · rw [hass.mem_front_iff hn hbelow.sound hmirrors.right hbss (hothers ▸ hlist ▸ hsolutions)]
      simp only [Solver.pending_box_iff hn hu hleft' hbelow.orderly hmirrors.toAbreast]
    · obtain ⟨css, hcss, rfl⟩ := Solver.collect_lists hn hmirrors.left
        (Solver.leave_accounts hn hu.sound hu.orderly hleft').1 (hu' ▸ h)
      rw [hothers]
      exact (hcss.perm hbss fun as => hmirrors.pending_iff).map _
    · have hbrancher : u.leave.brancher = b := by
        rw [(Solver.leave_keeps u).brancher, (Solver.backtrack_keeps hback).brancher,
          (Solver.solveOne_keeps hone).brancher, hcalls.brancher]
        rfl
      exact Solver.collectOnto_mirrors hn hmirrors (hbrancher ▸ hb) [] (hu' ▸ h) hrest

theorem backtrack_forfeits_bit :
    let p := Problem.ofIntervals [⟨0, 1⟩]
    let s := Solver.ofProblem p .default .off
    ∃ t u, s.solveOne = .ok (.solution [0], t) ∧ t.backtrack = (true, u) ∧
      (t.collect none).outcome = .ok (.ok [[1]]) ∧
      ∃ as, (p.network.Satisfies as ∧ Mem as u.state.box.toList) ∧ p.network.valuesOf as = [1] := by
  intro p s
  obtain ⟨t, u, hone, hback, hall, hend⟩ := solveOne_then_backtrack
  have hbuilt : Built p := .addVariable .empty (by decide)
  have hb : s.brancher.GoesByBox := Strategy.goesByBox ValueOrder.noConfusion
  have hcalls : History (s.withBrancher s.brancher ()) [] s := .nil
  obtain ⟨-, hforfeits⟩ := backtrack_forfeits hbuilt hcalls hone hback hall
  obtain ⟨-, lost, rest, hsolutions, hlost, -, hrest⟩ := hforfeits rfl
  obtain rfl : [] = rest := Except.ok.inj (hrest hb _ hend)
  rw [List.append_nil] at hsolutions
  exact ⟨t, u, hone, hback, hall, (hlost [1]).1 (hsolutions ▸ List.mem_singleton_self _)⟩

/-- The default brancher goes by the box and always splits, and still the call loses a
solution. -/
theorem backtrack_loses_solution :
    let p := Problem.ofIntervals [⟨0, 1⟩]
    let s := Solver.ofProblem p .default .off
    Built p ∧ s.brancher.GoesByBox ∧ s.brancher.Splits p.network ∧
      ∃ t u, s.solveOne = .ok (.solution [0], t) ∧ t.backtrack = (true, u) ∧
        (t.collect none).outcome = .ok (.ok [[1]]) ∧ (u.collect none).outcome = .ok (.ok []) :=
  ⟨.addVariable .empty (by decide), Strategy.goesByBox ValueOrder.noConfusion, default_splits rfl,
    solveOne_then_backtrack⟩

end BoundsSolver
