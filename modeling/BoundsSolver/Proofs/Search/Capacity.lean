/-
# The capacity for choice points

Two searches that differ in how many choice points they may use go through the same solvers
as long as the stack of the more generous one stays within the smaller capacity
(`Solver.Lags`).  The first decision that takes it beyond is refused by the other: that
search has filtered its node and asked its brancher, and is over with nothing else changed
(`Solver.Refused`).

No search uses more choice points than it may, which its greatest depth tells as well
(`Reached.roomy`).
-/

import BoundsSolver.Proofs.Propagation.Congruence
import BoundsSolver.Proofs.Search.Counts
import BoundsSolver.Proofs.Search.Stacks

namespace BoundsSolver

/-- The same stack with another capacity. -/
def ChoicePoints.withCapacity (cs : ChoicePoints) (c : Nat) : ChoicePoints :=
  { cs with capacity := c }

namespace Solver

variable {σ : Type}

/-- The same solver with another capacity for choice points. -/
def withCapacity (s : Solver σ) (c : Nat) : Solver σ :=
  { s with
    options := { s.options with capacity := c }
    choicePoints := s.choicePoints.withCapacity c }

/-- A search moves through solvers of which `P` holds, and hands out answers on the way. -/
inductive Passes (P : Solver σ → Prop) : Solver σ → List Answer → Solver σ → Prop
  | refl {s : Solver σ} : P s → Passes P s [] s
  | step {s t u : Solver σ} {a : Option Answer} {as : List Answer} :
    P s → s.step = .ok (t, a) → Passes P t as u → Passes P s (a.toList ++ as) u

/-- So many searches for the next answer. -/
def solveTimes : Nat → Solver σ → Checked (List Answer × Solver σ)
  | 0, s => .ok ([], s)
  | k + 1, s => do
    let (a, t) ← s.solveOne
    let (as, u) ← t.solveTimes k
    return (a :: as, u)

/-- The move from `s` to `w` takes a decision, which is one too many for the search that comes
to `u` instead: the node is filtered and the brancher has been asked, but the stack and the
domains and flags that the decision would have saved are as they were. -/
structure Refused (s w u : Solver σ) : Prop where
  ended : u.phase = .exhausted
  node : filter s.network s.options.consistency s.state = .ok (true, u.state)
  points : u.choicePoints.live = s.choicePoints.live
  saved : ∃ other, w.choicePoints.live =
    u.choicePoints.live ++ [⟨u.state.box, u.state.entailed, other⟩]
  memory : u.memory = w.memory
  generator : u.generator = w.generator

/-- A move of a search and that of one with the smaller capacity `c`: both do the same, or the
one gets too deep for the other. -/
def Lags (c : Nat) (s : Solver σ) (x y : Solver σ × Option Answer) : Prop :=
  (x.1.depth ≤ c ∧ y = (x.1.withCapacity c, x.2)) ∨
    c < x.1.depth ∧ x.2 = none ∧ y.2 = some (.overflow c) ∧ s.Refused x.1 y.1

end Solver

variable {σ : Type} {p : Problem} {s t u v w : Solver σ} {cs : ChoicePoints} {e : ChoicePoint}
  {c k : Nat} {d : Decision} {a : Option Answer} {as : List Answer} {P Q : Solver σ → Prop}

/-! ### Stacks -/

namespace ChoicePoints

/-- Below both capacities a push does the same. -/
theorem push_withCapacity (h : cs.depth < c) (hc : c ≤ cs.capacity) :
    ∃ points, cs.push e = .ok points ∧ (cs.withCapacity c).push e = .ok (points.withCapacity c) ∧
      points.depth = cs.depth + 1 := by
  obtain ⟨slots, depth, capacity, hle⟩ := cs
  have hne : depth ≠ capacity := Nat.ne_of_lt (Nat.lt_of_lt_of_le h hc)
  have hne' : depth ≠ c := Nat.ne_of_lt h
  unfold push withCapacity
  dsimp only
  rw [if_neg hne, if_neg hne']
  split <;> exact ⟨_, rfl, rfl, rfl⟩

theorem pop?_withCapacity (cs : ChoicePoints) (c : Nat) :
    (cs.withCapacity c).pop? = cs.pop?.map (Prod.map id (·.withCapacity c)) := by
  obtain ⟨slots, depth, capacity, hle⟩ := cs
  unfold pop? withCapacity
  dsimp only
  split <;> rfl

end ChoicePoints

namespace Solver

/-! ### Moves -/

theorem resume_withCapacity (s : Solver σ) (br : Branch) (c : Nat) :
    (s.withCapacity c).resume br = (s.resume br).withCapacity c := by
  obtain ⟨_, _, _, _, _, _, _, _, objective⟩ := s
  cases objective <;> rfl

theorem backtrack_withCapacity (s : Solver σ) (c : Nat) :
    (s.withCapacity c).backtrack = (s.backtrack.1, s.backtrack.2.withCapacity c) := by
  have hpop (s : Solver σ) : (s.withCapacity c).choicePoints.pop? =
      s.choicePoints.pop?.map (Prod.map id (·.withCapacity c)) :=
    ChoicePoints.pop?_withCapacity _ c
  fun_induction backtrack s with
  | case1 s hp => exact backtrack_of_bare (by rw [hpop, hp]; rfl)
  | case2 s e points hp hempty ih =>
    have hp' : (s.withCapacity c).choicePoints.pop? = some (e, points.withCapacity c) := by
      rw [hpop, hp]
      rfl
    rw [← ih, backtrack_of_pop hp', if_pos hempty]
    rfl
  | case3 s e points hp hempty =>
    have hp' : (s.withCapacity c).choicePoints.pop? = some (e, points.withCapacity c) := by
      rw [hpop, hp]
      rfl
    rw [backtrack_of_pop hp', if_neg hempty]
    exact congrArg (Prod.mk true) (resume_withCapacity (s.restore e points) e.alternative c)

theorem leave_withCapacity (s : Solver σ) (c : Nat) :
    (s.withCapacity c).leave = s.leave.withCapacity c := by
  unfold leave
  rw [backtrack_withCapacity]
  rcases s.backtrack with ⟨found, t⟩
  cases found <;> rfl

/-- A decision that is one too many for the smaller capacity is refused there. -/
theorem branchOn_withCapacity (hd : v.depth ≤ c) (hc : c ≤ v.choicePoints.capacity) :
    Matches (fun x y => (x.1.depth ≤ c ∧ y = (x.1.withCapacity c, x.2)) ∨
        c < x.1.depth ∧ x.2 = none ∧
          y = ({ v.withCapacity c with phase := .exhausted }, some (.overflow c)) ∧
          (∃ other, x.1.choicePoints.live =
            v.choicePoints.live ++ [⟨v.state.box, v.state.entailed, other⟩]) ∧
          v.memory = x.1.memory ∧ v.generator = x.1.generator)
      (v.branchOn d) ((v.withCapacity c).branchOn d) := by
  unfold branchOn
  refine .bind_same fun i => ?_
  split
  · refine .bind_same fun other => ?_
    have hsame : (v.withCapacity c).choicePoints.push
        ⟨(v.withCapacity c).state.box, (v.withCapacity c).state.entailed, other⟩ =
      (v.choicePoints.withCapacity c).push ⟨v.state.box, v.state.entailed, other⟩ := rfl
    rw [hsame]
    rcases Nat.lt_or_eq_of_le hd with hlt | heq
    · obtain ⟨points, hpush, hpush', hdepth⟩ := ChoicePoints.push_withCapacity hlt hc
      rw [hpush, hpush']
      exact .answer (.inl ⟨hdepth.trans_le hlt, rfl⟩)
    · have hfull :
          (v.choicePoints.withCapacity c).depth = (v.choicePoints.withCapacity c).capacity := heq
      rw [ChoicePoints.push_full hfull]
      rcases Nat.lt_or_eq_of_le hc with hlt | rfl
      · -- Only the smaller capacity is exhausted.
        obtain ⟨points, hpush, -, hdepth⟩ :=
          ChoicePoints.push_withCapacity (heq.trans_lt hlt) (Nat.le_refl _)
        rw [hpush]
        refine .answer (.inr ⟨?_, rfl, rfl, ⟨other, ChoicePoints.live_push hpush⟩, rfl, rfl⟩)
        exact Nat.lt_of_lt_of_eq (Nat.lt_succ_of_le (Nat.le_of_eq heq.symm)) hdepth.symm
      · rw [ChoicePoints.push_full heq]
        exact .answer (.inl ⟨hd, rfl⟩)
  · exact .fault _

theorem Lags.same (h : t.depth ≤ c) : s.Lags c (t, a) (t.withCapacity c, a) := .inl ⟨h, rfl⟩

/-- What `branchOn_withCapacity` says about the move. -/
theorem advance_lags {u : State} (hd : s.depth ≤ c) (hc : c ≤ s.choicePoints.capacity)
    (hu : filter s.network s.options.consistency s.state = .ok (true, u)) :
    Matches (s.Lags c) ({ s with state := u } : Solver σ).advance
      ({ s.withCapacity c with state := u } : Solver σ).advance := by
  unfold advance
  cases hfirst : u.box.firstUnfixed? with
  | some first =>
    unfold takeDecision
    refine .bind_same fun ⟨own, memory, generator⟩ => ?_
    let v : Solver σ := { s with state := u, memory, generator }
    have hv := branchOn_withCapacity (v := v) (d := own.getD (.atMost first.1 first.2.min)) hd hc
    refine hv.mono fun {x y} hxy => hxy.imp_right ?_
    rintro ⟨hdepth, hx, rfl, hsaved, hmemory, hgenerator⟩
    exact ⟨hdepth, hx, rfl, rfl, hu, rfl, hsaved, hmemory, hgenerator⟩
  | none => exact .bind_same fun values => .answer (.same hd)

theorem backtrack_depth {found : Bool} (h : s.backtrack = (found, t)) : t.depth ≤ s.depth := by
  fun_induction backtrack s with
  | case1 s =>
    obtain ⟨-, rfl⟩ := Prod.mk.inj h
    exact Nat.le_refl _
  | case2 s e points hp _ ih =>
    have hpop := ChoicePoints.depth_of_pop? hp
    exact (ih h).trans (Nat.le_of_lt (Nat.lt_of_lt_of_eq (Nat.lt_succ_self _) hpop.symm))
  | case3 s e points hp _ =>
    obtain ⟨-, rfl⟩ := Prod.mk.inj h
    have hpop := ChoicePoints.depth_of_pop? hp
    rw [depth, resume_choicePoints]
    exact Nat.le_of_lt (Nat.lt_of_lt_of_eq (Nat.lt_succ_self _) hpop.symm)

theorem leave_depth (s : Solver σ) : s.leave.depth ≤ s.depth := by
  unfold leave
  split
  all_goals
    rename_i t ht
    have := backtrack_depth ht
    exact this

theorem enter_withCapacity (s : Solver σ) (c : Nat) :
    (s.withCapacity c).enter = s.enter.withCapacity c := by
  unfold enter
  by_cases h : s.state.box.anyEmpty = true
  · rw [if_pos h]
    exact if_pos h
  · rw [if_neg h]
    exact if_neg h

theorem enter_depth (s : Solver σ) : s.enter.depth = s.depth := by
  unfold enter
  split <;> rfl

/-- **A move does the same with less room**, unless it takes a decision that is one too many. -/
theorem step_lags (hd : s.depth ≤ c) (hc : c ≤ s.choicePoints.capacity) :
    Matches (s.Lags c) s.step (s.withCapacity c).step := by
  have hleave (hl : s.Left) : Matches (s.Lags c) s.step (s.withCapacity c).step := by
    rw [step_of_left hl, step_of_left (s := s.withCapacity c) hl, leave_withCapacity]
    exact .answer (.same ((leave_depth s).trans hd))
  cases hph : s.phase with
  | ready =>
    rw [step_of_ready hph, step_of_ready (s := s.withCapacity c) hph, enter_withCapacity]
    exact .answer (.same ((enter_depth s).trans_le hd))
  | filtering =>
    cases hu : filter s.network s.options.consistency s.state with
    | error f =>
      rw [step_of_fault hph hu, step_of_fault (s := s.withCapacity c) hph hu]
      exact .fault f
    | ok o =>
      obtain ⟨kept, u⟩ := o
      cases kept with
      | false =>
        rw [step_of_refuted hph hu, step_of_refuted (s := s.withCapacity c) hph hu]
        exact .answer (.same hd)
      | true =>
        rw [step_of_consistent hph hu, step_of_consistent (s := s.withCapacity c) hph hu]
        exact advance_lags hd hc hu
  | solved => exact hleave (.inl hph)
  | backtrack => exact hleave (.inr hph)
  | exhausted =>
    rw [step_of_exhausted hph, step_of_exhausted (s := s.withCapacity c) hph]
    exact .answer (.same hd)

/-! ### Runs -/

theorem Passes.start (h : s.Passes P as t) : P s := by
  cases h with
  | refl hs => exact hs
  | step hs => exact hs

theorem Passes.final (h : s.Passes P as t) : P t := by
  induction h with
  | refl hs => exact hs
  | step _ _ _ ih => exact ih

theorem Passes.trans {bs : List Answer} (h : s.Passes P as t) (h' : t.Passes P bs u) :
    s.Passes P (as ++ bs) u := by
  induction h with
  | refl => exact h'
  | step hs hstep _ ih =>
    rw [List.append_assoc]
    exact .step hs hstep (ih h')

/-- A run gets too deep at some move unless it never does. -/
theorem Passes.within_or_beyond (h : s.Passes (fun _ => True) as t) (hs : s.depth ≤ c) :
    s.Passes (·.depth ≤ c) as t ∨ ∃ bs v w a,
      s.Passes (·.depth ≤ c) bs v ∧ v.step = .ok (w, a) ∧ c < w.depth := by
  induction h with
  | refl => exact .inl (.refl hs)
  | @step s t u a as _ hstep _ ih =>
    by_cases hdeep : c < t.depth
    · exact .inr ⟨[], s, t, a, .refl hs, hstep, hdeep⟩
    · rcases ih (Nat.not_lt.1 hdeep) with hpass | ⟨bs, v, w, a', hpass, hv, hw⟩
      · exact .inl (.step hs hstep hpass)
      · exact .inr ⟨a.toList ++ bs, v, w, a', .step hs hstep hpass, hv, hw⟩

theorem solveOne_passes {a : Answer} (h : s.solveOne = .ok (a, t)) :
    s.Passes (fun _ => True) [a] t := by
  fun_induction solveOne s with
  | case1 => cases h
  | case2 s u a hstep =>
    obtain ⟨rfl, rfl⟩ := Prod.mk.inj (Except.ok.inj h)
    exact .step trivial hstep (.refl trivial)
  | case3 s u hstep ih => exact .step trivial hstep (ih h)

theorem solveTimes_of_step (h : s.step = .ok (t, none)) :
    s.solveTimes (k + 1) = t.solveTimes (k + 1) := by
  rw [solveTimes, solveTimes, solveOne_of_step h]

theorem solveTimes_of_answer {a : Answer} (h : s.step = .ok (t, some a))
    (ht : t.solveTimes k = .ok (as, u)) : s.solveTimes (k + 1) = .ok (a :: as, u) := by
  rw [solveTimes, solveOne_of_answer h]
  exact bind_of_ok ht

theorem solveTimes_of_exhausted (h : s.phase = .exhausted) (k : Nat) :
    s.solveTimes k = .ok (List.replicate k .exhausted, s) := by
  induction k with
  | zero => rfl
  | succ k ih => exact solveTimes_of_answer (step_of_exhausted h) ih

/-- The answers on the way are those of so many searches. -/
theorem Passes.solveTimes (h : s.Passes P as t) : ∃ u, s.solveTimes as.length = .ok (as, u) := by
  induction h with
  | @refl s => exact ⟨s, rfl⟩
  | @step s t u a as _ hstep _ ih =>
    obtain ⟨v, hv⟩ := ih
    cases a with
    | some a => exact ⟨v, solveTimes_of_answer hstep hv⟩
    | none =>
      cases as with
      | nil => exact ⟨s, rfl⟩
      | cons a as => exact ⟨v, (solveTimes_of_step hstep).trans hv⟩

theorem solveOne_withCapacity (hc : c ≤ s.choicePoints.capacity)
    (h : ∀ t, s.Passes (fun _ => True) [] t → t.depth ≤ c) :
    Matches (fun x y => y = (x.1, x.2.withCapacity c)) s.solveOne (s.withCapacity c).solveOne := by
  fun_induction solveOne s with
  | case1 s f hstep =>
    rw [solveOne_of_fault ((step_lags (h s (.refl trivial)) hc).of_error hstep)]
    exact .fault f
  | case2 s t a hstep =>
    obtain ⟨y, hy, hlags⟩ := (step_lags (h s (.refl trivial)) hc).of_ok hstep
    obtain ⟨-, rfl⟩ | ⟨-, hnone, -⟩ := hlags
    · rw [solveOne_of_answer hy]
      exact .answer rfl
    · cases hnone
  | case3 s t hstep ih =>
    obtain ⟨y, hy, hlags⟩ := (step_lags (h s (.refl trivial)) hc).of_ok hstep
    obtain ⟨-, rfl⟩ | ⟨hdeep, -⟩ := hlags
    · rw [solveOne_of_step hy]
      refine ih ((step_keeps hstep).capacity ▸ hc) fun u hu => ?_
      exact h u (.step trivial hstep hu)
    · exact absurd (h t (.step trivial hstep (.refl trivial))) (Nat.not_le.2 hdeep)

/-- **Searches that never get too deep are the same with less room.** -/
theorem solveTimes_withCapacity (hc : c ≤ s.choicePoints.capacity)
    (h : ∀ as t, s.Passes (fun _ => True) as t → as.length < k → t.depth ≤ c) :
    Matches (fun x y => y = (x.1, x.2.withCapacity c)) (s.solveTimes k)
      ((s.withCapacity c).solveTimes k) := by
  induction k generalizing s with
  | zero => exact .answer rfl
  | succ k ih =>
    have hone := solveOne_withCapacity hc fun t ht => h [] t ht (Nat.succ_pos k)
    unfold solveTimes
    cases hs : s.solveOne with
    | error f =>
      rw [hone.of_error hs]
      exact .fault f
    | ok o =>
      obtain ⟨a, t⟩ := o
      obtain ⟨y, hy, rfl⟩ := hone.of_ok hs
      rw [hy]
      have hrest := ih ((solveOne_keeps hs).capacity ▸ hc) fun as u hu hlt =>
        h (a :: as) u ((solveOne_passes hs).trans hu) (Nat.succ_lt_succ hlt)
      exact hrest.bind fun hxy => by
        subst hxy
        exact .answer rfl

/-- **The first decision too many is refused**, and nothing more is found. -/
theorem Passes.refused (h : s.Passes (·.depth ≤ c) as v) (hc : c ≤ s.choicePoints.capacity)
    (hw : v.step = .ok (w, a)) (hdeep : c < w.depth) :
    ∃ u, v.Refused w u ∧ ∀ k, (s.withCapacity c).solveTimes (as.length + 1 + k) =
      .ok (as ++ .overflow c :: List.replicate k .exhausted, u) := by
  induction h with
  | @refl v hv =>
    obtain ⟨⟨u, b⟩, hu, hlags⟩ := (step_lags hv hc).of_ok hw
    obtain ⟨hle, -⟩ | ⟨-, -, hb, href⟩ := hlags
    · exact absurd hle (Nat.not_le.2 hdeep)
    obtain rfl : b = some (.overflow c) := hb
    refine ⟨u, href, fun k => ?_⟩
    rw [List.length_nil, Nat.zero_add, Nat.add_comm]
    exact solveTimes_of_answer hu (solveTimes_of_exhausted href.ended k)
  | @step s t v a as hs hstep hpass ih =>
    obtain ⟨y, hy, hlags⟩ := (step_lags hs hc).of_ok hstep
    obtain ⟨u, href, hall⟩ := ih ((step_keeps hstep).capacity ▸ hc) hw
    obtain ⟨-, rfl⟩ | ⟨hlt, -⟩ := hlags
    · refine ⟨u, href, fun k => ?_⟩
      have hrest := hall k
      cases a with
      | none =>
        rw [Nat.add_right_comm] at hrest ⊢
        exact (solveTimes_of_step hy).trans hrest
      | some a =>
        rw [show (Option.toList (some a) ++ as).length + 1 + k = as.length + 1 + k + 1 by
          simp only [Option.toList_some, List.singleton_append, List.length_cons]; omega]
        exact solveTimes_of_answer hy hrest
    · exact absurd hpass.start (Nat.not_le.2 hlt)

/-! ### Within the capacity -/

/-- No more choice points are or were on the stack than there may be. -/
structure Roomy (s : Solver σ) : Prop where
  capacity : s.choicePoints.capacity = s.options.capacity
  depth : s.depth ≤ s.options.capacity
  record : s.state.statistics.maxDepth ≤ s.options.capacity

theorem Decides.roomy {other : Branch} (h : s.Decides v d other) (hs : s.Roomy) : v.Roomy := by
  cases h with
  | intro _ hu => exact ⟨hs.capacity, hs.depth, (filter_maxDepth hu).trans_le hs.record⟩

theorem commit_roomy {points : ChoicePoints} (hv : v.Roomy)
    (hpush : v.choicePoints.push e = .ok points) : (v.commit d points).Roomy := by
  obtain ⟨hne, hdepth, hcapacity'⟩ := ChoicePoints.push_depth hpush
  have hle : v.choicePoints.depth ≤ v.options.capacity := hv.depth
  have hcapacity := hv.capacity
  have hrecord := hv.record
  refine ⟨hcapacity'.trans hcapacity, ?_, ?_⟩
  · show points.depth ≤ v.options.capacity
    omega
  · show max v.state.statistics.maxDepth points.depth ≤ v.options.capacity
    omega

theorem step_roomy (hs : s.Roomy) (h : s.step = .ok (t, a)) : t.Roomy := by
  cases step_moves h with
  | close => exact ⟨hs.capacity, hs.depth, hs.record⟩
  | enter => exact ⟨hs.capacity, hs.depth, hs.record⟩
  | fail _ hu => exact ⟨hs.capacity, hs.depth, (filter_maxDepth hu).trans_le hs.record⟩
  | leaf _ hu => exact ⟨hs.capacity, hs.depth, (filter_maxDepth hu).trans_le hs.record⟩
  | commit hd hpush => exact commit_roomy (hd.roomy hs) hpush
  | overflow hd =>
    have hv := hd.roomy hs
    exact ⟨hv.capacity, hv.depth, hv.record⟩
  | leave =>
    have hkeeps := leave_keeps s
    have hrecord := congrArg Statistics.maxDepth (leave_statistics s)
    refine ⟨?_, ?_, ?_⟩
    · rw [hkeeps.capacity, hkeeps.options, hs.capacity]
    · rw [hkeeps.options]
      exact (leave_depth s).trans hs.depth
    · rw [hkeeps.options, hrecord]
      exact hs.record
  | stop => exact hs

theorem reset_roomy (hs : s.Roomy) : s.reset.Roomy := ⟨hs.capacity, Nat.zero_le _, hs.record⟩

end Solver

/-- At every point of a search. -/
theorem Reached.roomy (h : Reached p s) : s.Roomy := by
  induction h with
  | start o log b m => exact ⟨rfl, Nat.zero_le _, Nat.zero_le _⟩
  | step _ hstep ih => exact Solver.step_roomy ih hstep
  | reset _ ih => exact Solver.reset_roomy ih
  | tell _ _ ih => exact ⟨ih.capacity, ih.depth, ih.record⟩
  | prune _ _ ih => exact ⟨ih.capacity, ih.depth, ih.record⟩
  | restart _ _ ih =>
    have h := Solver.reset_roomy ih
    exact ⟨h.capacity, h.depth, h.record⟩
  | drop _ _ ih => exact ⟨ih.capacity, ih.depth, ih.record⟩

/-! ### The result -/

/-- **The capacity shows only once it is exceeded.**  Take two fresh solvers with the same
brancher that differ in their capacities, `c` and one that is no smaller.

* As long as the generous search stays within `c` choice points, each search for an answer
  comes to the same on both sides, fault or not, and leaves the same solvers.
* At the first decision beyond, the other search has handed out the same answers; it reports
  the overflow and is exhausted for good.  Its domains, flags and stack are those that the
  decision saved or built on, and no decision or depth has been counted.
* One or the other is the case.

At every point of any search the stack and its greatest depth are within the capacity. -/
theorem capacity_transparent {o : Options} {l : Log} {b : Brancher σ} {m : σ}
    (hc : c ≤ o.capacity) :
    let s := (Solver.ofProblem p o l).withBrancher b m
    let r := (Solver.ofProblem p { o with capacity := c } l).withBrancher b m
    (∀ k, (∀ as t, s.Passes (fun _ => True) as t → as.length < k → t.depth ≤ c) →
      Matches (fun x y => y = (x.1, x.2.withCapacity c)) (s.solveTimes k) (r.solveTimes k)) ∧
    (∀ as v w a, s.Passes (·.depth ≤ c) as v → v.step = .ok (w, a) → c < w.depth →
      (∃ t, s.solveTimes as.length = .ok (as, t)) ∧
      ∃ u, (∀ k, r.solveTimes (as.length + 1 + k) =
          .ok (as ++ .overflow c :: List.replicate k .exhausted, u)) ∧
        v.Refused w u ∧
        u.state.statistics.choices = v.state.statistics.choices ∧
        u.state.statistics.maxDepth = v.state.statistics.maxDepth) ∧
    ((∀ as t, s.Passes (fun _ => True) as t → t.depth ≤ c) ∨
      ∃ as v w a, s.Passes (·.depth ≤ c) as v ∧ v.step = .ok (w, a) ∧ c < w.depth) ∧
    ∀ {τ : Type} (t : Solver τ), Reached p t → t.depth ≤ t.options.capacity ∧
      t.state.statistics.maxDepth ≤ t.options.capacity := by
  intro s r
  have hstart : s.depth ≤ c := Nat.zero_le c
  refine ⟨?_, ?_, ?_, ?_⟩
  · intro k hwithin
    exact Solver.solveTimes_withCapacity (s := s) hc hwithin
  · intro as v w a hpass hw hdeep
    obtain ⟨u, href, hall⟩ := hpass.refused hc hw hdeep
    exact ⟨hpass.solveTimes, u, hall, href, filter_choices href.node,
      filter_maxDepth href.node⟩
  · by_cases hwithin : ∀ as t, s.Passes (fun _ => True) as t → t.depth ≤ c
    · exact .inl hwithin
    · simp only [not_forall] at hwithin
      obtain ⟨as, t, hpass, hdeep⟩ := hwithin
      rcases hpass.within_or_beyond hstart with hpass | hbeyond
      · exact absurd hpass.final hdeep
      · exact .inr hbeyond
  · intro τ t ht
    exact ⟨ht.roomy.depth, ht.roomy.record⟩

/-- Without any room the search for a truth value is refused its first decision. -/
theorem capacity_transparent_refused :
    let p := Problem.ofIntervals [⟨0, 1⟩]
    let r := Solver.ofProblem p { Options.default with capacity := 0 } .off
    ∃ u, (∀ k, r.solveTimes (1 + k) = .ok (.overflow 0 :: List.replicate k .exhausted, u)) ∧
      u.state.statistics.choices = 0 ∧ u.depth = 0 := by
  intro p r
  let b := (Strategy.default p.current).brancher
  let s := (Solver.ofProblem p .default .off).withBrancher b ()
  let v : Solver Unit :=
    { s with phase := .filtering, state := s.state.triggerAll p.network.propagators.keys }
  have henter : s.step = .ok (v, none) := by
    show Except.ok (s.enter, none) = _
    rw [Solver.enter, if_neg (by decide +kernel)]
    rfl
  have hdecision : ∃ x, v.step = .ok x ∧ (x.2 = none ∧ 0 < x.1.depth) := by decide +kernel
  obtain ⟨⟨w, a⟩, hw, hnone, hdeep⟩ := hdecision
  obtain rfl : a = none := hnone
  have hpass : s.Passes (·.depth ≤ 0) [] v := .step (Nat.le_refl 0) henter (.refl (Nat.le_refl 0))
  obtain ⟨-, hrefused, -⟩ := capacity_transparent (p := p) (l := .off) (b := b) (m := ())
    (Nat.zero_le Options.default.capacity)
  obtain ⟨-, u, hall, href, hchoices, -⟩ := hrefused [] v w none hpass hw hdeep
  refine ⟨u, hall, hchoices, ?_⟩
  rw [Solver.depth, ← ChoicePoints.length_live, href.points]
  rfl

end BoundsSolver
