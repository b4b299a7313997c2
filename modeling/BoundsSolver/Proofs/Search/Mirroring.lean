/-
# Searches with the same boxes ahead

Two searches are abreast (`Solver.Abreast`) when they have the same boxes still to search, in
the same order, and stand at the same place.  What is triggered, which propagators are flagged,
what the brancher remembers and what has been counted may differ.

If both are sound and set up alike (`Solver.Mirrors`), and the decisions of the brancher depend
on the box alone (`Brancher.GoesByBox`), then a move does the same on both, since filtering
goes by the box.  So do the loops, by induction on the moves: they hand out the same solutions
in the same order (`collectOnto_mirrors`).
-/

import Mathlib.Data.List.DropRight
import BoundsSolver.Proofs.Search.Determinacy

namespace BoundsSolver

/-- The decisions depend on the box alone. -/
def Brancher.GoesByBox {σ : Type} (br : Brancher σ) : Prop :=
  ∀ (m m' : σ) (b : Box) (g g' : Generator),
    Concurs (fun x y => x.1 = y.1) (br.next m b g) (br.next m' b g')

/-- The decisions of a strategy do, if it does not draw at random. -/
theorem Strategy.goesByBox {st : Strategy} (hst : st.values ≠ .randomSplitter) :
    st.brancher.GoesByBox := by
  intro m m' b g g'
  refine .bind_of (R := fun x y => x.1 = y.1) ?_ fun _ _ h => .answer h
  refine .bind_same fun first _ => ?_
  cases first with
  | none => exact .answer rfl
  | some d =>
    refine .bind_of (R := fun x y => x.1 = y.1) ?_ fun _ _ h => .answer (congrArg some h)
    refine .bind_same fun i _ => ?_
    cases hvalues : st.values with
    | inDomainMin => exact .answer rfl
    | inDomainMax => exact .answer rfl
    | inDomainSplit => exact .answer rfl
    | randomSplitter => exact absurd hvalues hst

namespace Solver

variable {σ : Type}

/-- The searches stand at the same place, with the same boxes ahead. -/
structure Abreast (s t : Solver σ) : Prop where
  phase : s.phase = t.phase ∨ s.Left ∧ t.Left
  frontier : s.frontier = t.frontier

/-- Sound searches that are set up alike and abreast. -/
structure Mirrors (n : Network) (s t : Solver σ) : Prop extends Abreast s t where
  left : s.Sound n
  right : t.Sound n
  setting : s.Keeps t

variable {n : Network} {s t : Solver σ} {c : ChoicePoint} {cs : ChoicePoints}

/-! ### Boxes ahead -/

theorem length_behind (s : Solver σ) : s.behind.length = s.depth := by
  rw [behind, List.length_map, ChoicePoints.length_live]
  rfl

theorem behind_of_pop (hp : s.choicePoints.pop? = some (c, cs)) :
    s.behind = (s.restore c cs).behind ++ [c.otherBox] := by
  rw [behind, ChoicePoints.live_pop? hp, List.map_append]
  rfl

namespace Abreast

theorem of_left (h : s.Abreast t) (hl : s.Left) : t.Left ∧ s.behind = t.behind := by
  have hl' : t.Left := by
    rcases h.phase with hph | ⟨-, hl'⟩
    · exact hl.imp hph.symm.trans hph.symm.trans
    · exact hl'
  refine ⟨hl', ?_⟩
  rw [← frontier_of_left hl, ← frontier_of_left hl', h.frontier]

theorem phase_eq (h : s.Abreast t) (hl : ¬ s.Left) : t.phase = s.phase := by
  rcases h.phase with hph | ⟨hl', -⟩
  · exact hph.symm
  · exact absurd hl' hl

/-- At a node both have the same box. -/
theorem of_current (h : s.Abreast t) (hs : s.frontier = s.behind ++ [s.state.box])
    (ht : t.frontier = t.behind ++ [t.state.box]) :
    s.behind = t.behind ∧ s.state.box = t.state.box := by
  obtain ⟨hbehind, hbox⟩ := List.append_inj' (hs.symm.trans (h.frontier.trans ht)) rfl
  exact ⟨hbehind, List.singleton_inj.1 hbox⟩

theorem of_filtering (h : s.Abreast t) (hph : s.phase = .filtering) :
    t.phase = .filtering ∧ s.behind = t.behind ∧ s.state.box = t.state.box := by
  have hph' : t.phase = .filtering := (h.phase_eq fun hl => hl.ne_filtering hph).trans hph
  exact ⟨hph', h.of_current (frontier_of_filtering hph) (frontier_of_filtering hph')⟩

theorem of_ready (h : s.Abreast t) (hph : s.phase = .ready) :
    t.phase = .ready ∧ s.behind = t.behind ∧ s.state.box = t.state.box := by
  have hph' : t.phase = .ready := by
    refine (h.phase_eq fun hl => ?_).trans hph
    rcases hl with hl | hl <;> rw [hph] at hl <;> cases hl
  exact ⟨hph', h.of_current (frontier_of_ready hph) (frontier_of_ready hph')⟩

theorem left (hl : s.Left) (hl' : t.Left) (h : s.behind = t.behind) : s.Abreast t :=
  ⟨.inr ⟨hl, hl'⟩, by rw [frontier_of_left hl, frontier_of_left hl', h]⟩

theorem filtering (hph : s.phase = .filtering) (hph' : t.phase = .filtering)
    (h : s.behind = t.behind) (hbox : s.state.box = t.state.box) : s.Abreast t :=
  ⟨.inl (hph.trans hph'.symm), by
    rw [frontier_of_filtering hph, frontier_of_filtering hph', h, hbox]⟩

theorem exhausted (hph : s.phase = .exhausted) (hph' : t.phase = .exhausted) : s.Abreast t :=
  ⟨.inl (hph.trans hph'.symm), by
    rw [frontier_of_exhausted hph, frontier_of_exhausted hph']⟩

theorem pending_iff (h : s.Abreast t) {as : List Int} : s.Pending n as ↔ t.Pending n as := by
  unfold Pending
  rw [h.frontier]

end Abreast

/-! ### The moves -/

/-- Taking choice points back goes by the boxes behind: it drops those at the end that have no
value for some shared domain, and enters the next one. -/
theorem backtrack_drops {found : Bool} (h : s.backtrack = (found, t)) :
    s.behind.rdropWhile Box.anyEmpty = if found then t.behind ++ [t.state.box] else [] := by
  fun_induction backtrack s with
  | case1 s hp =>
    obtain ⟨rfl, rfl⟩ := Prod.mk.inj h
    rw [behind, ChoicePoints.pop?_eq_none_iff.1 hp]
    rfl
  | case2 s c cs hp hempty ih =>
    rw [behind_of_pop hp, List.rdropWhile_concat_pos _ _ _ hempty]
    exact ih h
  | case3 s c cs hp hempty =>
    obtain ⟨rfl, rfl⟩ := Prod.mk.inj h
    rw [behind_of_pop hp, List.rdropWhile_concat_neg _ _ _ hempty, behind, behind,
      resume_choicePoints, resume_box]
    rfl

theorem leave_abreast
    (h : s.behind.rdropWhile Box.anyEmpty = t.behind.rdropWhile Box.anyEmpty) :
    s.leave.Abreast t.leave := by
  unfold leave
  generalize hs : s.backtrack = x
  generalize ht : t.backtrack = y
  obtain ⟨found, s'⟩ := x
  obtain ⟨found', t'⟩ := y
  rw [backtrack_drops hs, backtrack_drops ht] at h
  cases found <;> cases found'
  · exact .exhausted rfl rfl
  · exact absurd h.symm (List.concat_ne_nil _ _)
  · exact absurd h (List.concat_ne_nil _ _)
  · obtain ⟨hbehind, hbox⟩ := List.append_inj' h rfl
    exact .filtering rfl rfl hbehind (List.singleton_inj.1 hbox)

theorem branchOn_abreast (hset : s.Keeps t) (hph : s.phase = .filtering)
    (h : s.Abreast t) (d : Decision) :
    Concurs (fun x y => x.2 = y.2 ∧ x.1.Abreast y.1) (s.branchOn d) (t.branchOn d) := by
  obtain ⟨hph', hbehind, hbox⟩ := h.of_filtering hph
  have hdepth : s.choicePoints.depth = t.choicePoints.depth := by
    show s.depth = t.depth
    rw [← length_behind, ← length_behind, hbehind]
  unfold branchOn
  rw [hbox]
  refine .bind_same fun i _ => ?_
  split
  · refine .bind_same fun other _ => ?_
    by_cases hfull : s.choicePoints.depth = s.choicePoints.capacity
    · have hfull' : t.choicePoints.depth = t.choicePoints.capacity := by
        rw [← hdepth, hfull, hset.capacity]
      rw [ChoicePoints.push_full hfull, ChoicePoints.push_full hfull', hset.capacity]
      exact .answer ⟨rfl, .exhausted rfl rfl⟩
    · have hfull' : t.choicePoints.depth ≠ t.choicePoints.capacity := by
        rwa [← hdepth, hset.capacity]
      obtain ⟨cs, hcs, -⟩ := ChoicePoints.push_of_ne
        (e := ⟨t.state.box, s.state.entailed, other⟩) hfull
      obtain ⟨ds, hds, -⟩ := ChoicePoints.push_of_ne
        (e := ⟨t.state.box, t.state.entailed, other⟩) hfull'
      rw [hcs, hds]
      refine .answer ⟨rfl, .filtering hph hph' ?_ (congrArg (Box.tighten · d.commitment) hbox)⟩
      show cs.live.map ChoicePoint.otherBox = ds.live.map ChoicePoint.otherBox
      rw [ChoicePoints.live_push hcs, ChoicePoints.live_push hds, List.map_append,
        List.map_append]
      exact congrArg (· ++ [Box.tighten t.state.box other]) hbehind
  · intro x y hx
    cases hx

theorem advance_abreast (hset : s.Keeps t) (hb : s.brancher.GoesByBox)
    (hph : s.phase = .filtering) (h : s.Abreast t) :
    Concurs (fun x y => x.2 = y.2 ∧ x.1.Abreast y.1) s.advance t.advance := by
  obtain ⟨hph', hbehind, hbox⟩ := h.of_filtering hph
  unfold advance
  rw [hbox]
  split
  · refine Concurs.bind_of (R := fun x y => x.1 = y.1) ?_ ?_
    · rw [hbox, hset.brancher]
      exact hb _ _ _ _ _
    · rintro ⟨d, m, g⟩ ⟨d', m', g'⟩ - - hd
      obtain rfl : d = d' := hd
      exact branchOn_abreast (s := { s with memory := m, generator := g })
        (t := { t with memory := m', generator := g' })
        ⟨hset.network, hset.options, hset.brancher, hset.objective, hset.capacity⟩ hph
        (.filtering hph hph' hbehind hbox) _
  · rw [hset.network]
    exact .bind_same fun values _ => .answer ⟨rfl, .left (.inl rfl) (.inl rfl) hbehind⟩

/-- **A move goes by the boxes ahead.** -/
theorem step_abreast (hn : n.WellFormed) (h : s.Mirrors n t) (hb : s.brancher.GoesByBox) :
    Concurs (fun x y => x.2 = y.2 ∧ x.1.Abreast y.1) s.step t.step := by
  have hleave (hl : s.Left) :
      Concurs (fun x y => x.2 = y.2 ∧ x.1.Abreast y.1) s.step t.step := by
    obtain ⟨hl', hbehind⟩ := h.of_left hl
    rw [step_of_left hl, step_of_left hl']
    exact .answer ⟨rfl, leave_abreast (hbehind ▸ rfl)⟩
  cases hph : s.phase with
  | ready =>
    obtain ⟨hph', hbehind, hbox⟩ := h.of_ready hph
    rw [step_of_ready hph, step_of_ready hph']
    refine .answer ⟨rfl, ?_⟩
    unfold enter
    rw [hbox]
    split
    · exact .exhausted rfl rfl
    · exact .filtering rfl rfl hbehind hbox
  | filtering =>
    obtain ⟨hph', hbehind, hbox⟩ := h.of_filtering hph
    have hverdict : Concurs (SameVerdict n) (filter s.network s.options.consistency s.state)
        (filter s.network s.options.consistency t.state) := by
      rw [h.left.network]
      exact filter_concurs hn (h.left.primed hph) (h.right.primed hph') hbox
    have hfilter : filter t.network t.options.consistency t.state =
        filter s.network s.options.consistency t.state := by
      rw [h.setting.network, h.setting.options]
    cases hu : filter s.network s.options.consistency s.state with
    | error f =>
      rw [step_of_fault hph hu]
      intro x y hx
      cases hx
    | ok o =>
      cases hv : filter s.network s.options.consistency t.state with
      | error f =>
        rw [step_of_fault hph' (hfilter.trans hv)]
        intro x y _ hy
        cases hy
      | ok o' =>
        obtain ⟨kept, u⟩ := o
        obtain ⟨kept', v⟩ := o'
        obtain ⟨rfl, hlevel⟩ : kept = kept' ∧ (kept = true → u.Level n v) := hverdict hu hv
        cases kept with
        | false =>
          rw [step_of_refuted hph hu, step_of_refuted hph' (hfilter.trans hv)]
          exact .answer ⟨rfl, .left (.inr rfl) (.inr rfl) hbehind⟩
        | true =>
          rw [step_of_consistent hph hu, step_of_consistent hph' (hfilter.trans hv)]
          have hset := h.setting
          exact advance_abreast (s := { s with state := u })
            ⟨hset.network, hset.options, hset.brancher, hset.objective, hset.capacity⟩ hb hph
            (.filtering hph hph' hbehind (hlevel rfl).box)
  | solved => exact hleave (.inl hph)
  | backtrack => exact hleave (.inr hph)
  | exhausted =>
    have hph' : t.phase = .exhausted := (h.phase_eq fun hl => hl.ne_exhausted hph).trans hph
    rw [step_of_exhausted hph, step_of_exhausted hph']
    exact .answer ⟨rfl, h.toAbreast⟩

theorem step_mirrors (hn : n.WellFormed) (h : s.Mirrors n t) (hb : s.brancher.GoesByBox) :
    Concurs (fun x y => x.2 = y.2 ∧ x.1.Mirrors n y.1) s.step t.step := by
  rintro ⟨s', a⟩ ⟨t', b⟩ hs ht
  obtain ⟨ha, habreast⟩ := step_abreast hn h hb hs ht
  exact ⟨ha, habreast, (step_sound hn h.left hs).1, (step_sound hn h.right ht).1,
    ((step_keeps hs).symm.trans h.setting).trans (step_keeps ht)⟩

/-! ### The loops -/

theorem solveOne_eq_bind (s : Solver σ) : s.solveOne = s.step >>= fun x =>
    match x.2 with
    | some a => .ok (a, x.1)
    | none => x.1.solveOne := by
  rw [solveOne_eq]
  cases s.step with
  | error f => rfl
  | ok x =>
    obtain ⟨t, a⟩ := x
    cases a <;> rfl

theorem collectOnto_outcome (s : Solver σ) (found : List (List Int)) :
    (s.collectOnto found none).outcome = s.solveOne >>= fun x =>
      match x.1 with
      | .exhausted => .ok (.ok found.reverse)
      | .overflow capacity => .ok (.error (.choicePointOverflow capacity))
      | .solution values => (x.2.collectOnto (values :: found) none).outcome := by
  rw [collectOnto_eq_match]
  cases s.solveOne with
  | error f => rfl
  | ok x =>
    obtain ⟨a, t⟩ := x
    cases a <;> rfl

theorem solveOne_mirrors {s t : Solver σ} (hn : n.WellFormed) (h : s.Mirrors n t)
    (hb : s.brancher.GoesByBox) :
    Concurs (fun x y => x.1 = y.1 ∧ x.2.Mirrors n y.2) s.solveOne t.solveOne := by
  rw [solveOne_eq_bind s, solveOne_eq_bind t]
  refine .bind_of (step_mirrors hn h hb) ?_
  rintro ⟨s', a⟩ ⟨t', b⟩ hs - ⟨hab, hmirrors⟩
  obtain rfl : a = b := hab
  cases a with
  | some a => exact .answer ⟨rfl, hmirrors⟩
  | none => exact solveOne_mirrors hn hmirrors ((step_keeps hs).brancher ▸ hb)
termination_by (s.weight, s.rank)
decreasing_by
  rcases step_progress hs with hlt | ⟨hle, hlt⟩
  · exact .left _ _ hlt
  · rcases Nat.lt_or_eq_of_le hle with hle | heq
    · exact .left _ _ hle
    · rw [heq]
      exact .right _ hlt

/-- **Collecting goes by the boxes ahead**: it finds the same solutions in the same order. -/
theorem collectOnto_mirrors {s t : Solver σ} (hn : n.WellFormed) (h : s.Mirrors n t)
    (hb : s.brancher.GoesByBox) (found : List (List Int)) :
    Concurs Eq (s.collectOnto found none).outcome (t.collectOnto found none).outcome := by
  rw [collectOnto_outcome, collectOnto_outcome]
  refine .bind_of (solveOne_mirrors hn h hb) ?_
  rintro ⟨a, s'⟩ ⟨b, t'⟩ hs - ⟨hab, hmirrors⟩
  obtain rfl : a = b := hab
  cases a with
  | exhausted => exact .answer rfl
  | overflow => exact .answer rfl
  | solution values =>
    exact collectOnto_mirrors hn hmirrors ((solveOne_keeps hs).brancher ▸ hb) (values :: found)
termination_by s.weight
decreasing_by exact solveOne_solution_weight hs

end Solver
end BoundsSolver
