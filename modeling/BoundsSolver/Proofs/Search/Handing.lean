/-
# What a search hands out between two resets

Whatever is called on a solver, it is `Solver.Idle` again afterwards: the invariant holds,
and it is not at a node.  What has been handed out on the way was pending and is not any
more, and nothing has become pending (`Solver.Serves`).  So calls in a row hand out nothing
twice (`Serves.trans`), also if the caller takes choice points back in between, which gives
up whatever is behind them.

The optimisations leave no choice: they start from a reset and come back exhausted.
-/

import BoundsSolver.Proofs.Search.Optimum

namespace BoundsSolver

variable {σ : Type} {n : Network} {s t u : Solver σ} {as : List Int} {ass bss : List (List Int)}
  {vs ws found seen seen' : List (List Int)} {dir : Direction} {x : VariableId} {v : View}

/-- The solution of an answer, if it is one. -/
def Answer.solutions : Answer → List (List Int)
  | .solution values => [values]
  | .exhausted | .overflow _ => []

/-- The best solution, if there is one. -/
def Optimum.solutions : Optimum → List (List Int)
  | .ok (some values) => [values]
  | .ok none | .error _ => []

namespace Solutions

/-- The solution of an item, if it is one. -/
def Item.solutions : Item → List (List Int)
  | .solution values => [values]
  | .failed _ | .ended => []

/-- So many items, one after the other. -/
def take {σ : Type} : Nat → Solutions σ → Checked (List Item × Solutions σ)
  | 0, it => .ok ([], it)
  | k + 1, it => do
    let (i, it) ← it.next
    let (is, it) ← take k it
    return (i :: is, it)

end Solutions

namespace Solver

/-- These solutions were pending and are not any more, and nothing has become pending. -/
structure Hands (n : Network) (s t : Solver σ) (ass : List (List Int)) : Prop where
  nodup : ass.Nodup
  spent : ∀ as ∈ ass, s.Pending n as ∧ ¬ t.Pending n as
  fewer : ∀ as, t.Pending n as → s.Pending n as

/-- The invariant holds and the solver is not at a node. -/
structure Idle (n : Network) (s : Solver σ) : Prop where
  sound : s.Sound n
  orderly : s.Orderly
  away : s.phase ≠ .filtering

/-- On the way the solutions with these values have been handed out. -/
structure Serves (n : Network) (s t : Solver σ) (values : List (List Int)) : Prop where
  idle : t.Idle n
  hands : ∃ ass, values = ass.map n.valuesOf ∧ Hands n s t ass

/-! ### Handing out -/

theorem Hands.trans (h : Hands n s t ass) (h' : Hands n t u bss) : Hands n s u (ass ++ bss) where
  nodup := by
    refine List.nodup_append.2 ⟨h.nodup, h'.nodup, ?_⟩
    rintro as has bs hbs rfl
    exact (h.spent as has).2 (h'.spent as hbs).1
  spent := by
    intro as has
    rcases List.mem_append.1 has with has | has
    · obtain ⟨hp, hgone⟩ := h.spent as has
      exact ⟨hp, fun hu => hgone (h'.fewer as hu)⟩
    · obtain ⟨hp, hgone⟩ := h'.spent as has
      exact ⟨h.fewer as hp, hgone⟩
  fewer as hu := h.fewer as (h'.fewer as hu)

theorem Hands.nil (h : ∀ as, t.Pending n as → s.Pending n as) : Hands n s t [] :=
  ⟨.nil, List.forall_mem_nil _, h⟩

theorem Hands.nil_of_exhausted (h : t.phase = .exhausted) : Hands n s t [] :=
  .nil fun _ hp => absurd hp (not_pending_of_exhausted h)

theorem Serves.trans (h : Serves n s t vs) (h' : Serves n t u ws) : Serves n s u (vs ++ ws) := by
  obtain ⟨ass, rfl, hass⟩ := h.hands
  obtain ⟨bss, rfl, hbss⟩ := h'.hands
  exact ⟨h'.idle, ass ++ bss, by rw [List.map_append], hass.trans hbss⟩

theorem Serves.refl (h : s.Idle n) : Serves n s s [] := ⟨h, [], rfl, .nil fun _ => id⟩

/-- The caller need not be told. -/
theorem Serves.keep_quiet (h : Serves n s t vs) : Serves n s t [] := by
  obtain ⟨ass, -, hass⟩ := h.hands
  exact ⟨h.idle, [], rfl, .nil hass.fewer⟩

/-- What is pending solves the network. -/
theorem Sound.solves_of_pending (hs : s.Sound n) (hp : s.Pending n as) : n.Solves as := by
  have hbehind {b : Box} (hb : b ∈ s.behind) : b.Inside n.initial := by
    obtain ⟨c, hc, rfl⟩ := List.mem_map.1 hb
    exact (Box.tighten_inside c.box c.alternative).trans (hs.points c hc).inside
  have hfrontier {b : Box} (hb : b ∈ s.behind ++ [s.state.box]) : b.Inside n.initial := by
    rcases List.mem_append.1 hb with hb | hb
    · exact hbehind hb
    · rw [List.mem_singleton.1 hb]
      exact hs.coherent.inside
  obtain ⟨hsat, b, hb, hm⟩ := hp
  refine ⟨Box.mem_of_inside hm ?_, hsat⟩
  unfold frontier at hb
  split at hb
  · exact hfrontier hb
  · exact hfrontier hb
  · exact hbehind hb
  · exact hbehind hb
  · cases hb

theorem Serves.solves (h : Serves n s t vs) (hs : s.Sound n) :
    ∀ values ∈ vs, ∃ as, n.Solves as ∧ n.valuesOf as = values := by
  intro values hv
  obtain ⟨ass, rfl, hass⟩ := h.hands
  obtain ⟨as, has, rfl⟩ := List.mem_map.1 hv
  exact ⟨as, hs.solves_of_pending (hass.spent as has).1, rfl⟩

theorem Serves.nodup (h : Serves n s t vs) (hn : n.WellFormed) (hs : s.Sound n) : vs.Nodup := by
  obtain ⟨ass, rfl, hass⟩ := h.hands
  refine hn.nodup_valuesOf ?_ hass.nodup
  intro as has
  exact (hs.solves_of_pending (hass.spent as has).1).within

/-! ### Searching -/

theorem Idle.of_exhausted (hs : s.Sound n) (h : s.phase = .exhausted) : s.Idle n :=
  ⟨hs, orderly_of_exhausted h, h ▸ Phase.noConfusion⟩

theorem start_idle {p : Problem} (hp : Built p) (o : Options) (log : Log) (b : Brancher σ)
    (m : σ) : ((ofProblem p o log).withBrancher b m).Idle p.network where
  sound := start_sound hp.sound o log b m
  orderly := ⟨fun _ => rfl, List.pairwise_singleton _ _⟩
  away := Phase.noConfusion

theorem Idle.reset (h : s.Idle n) : s.reset.Idle n :=
  ⟨reset_sound h.sound, reset_orderly s, Phase.noConfusion⟩

theorem step_overflow {capacity : Nat} (h : s.step = .ok (t, some (.overflow capacity))) :
    t.phase = .exhausted := by
  cases step_moves h with
  | overflow => rfl

theorem solveOne_overflow {capacity : Nat} (h : s.solveOne = .ok (.overflow capacity, t)) :
    t.phase = .exhausted := by
  fun_induction solveOne s with
  | case1 => cases h
  | case2 s u a hstep =>
    obtain ⟨rfl, rfl⟩ := Prod.mk.inj (Except.ok.inj h)
    exact step_overflow hstep
  | case3 s u hstep ih => exact ih h

theorem solveOne_serves {a : Answer} (hn : n.WellFormed) (hs : s.Idle n)
    (h : s.solveOne = .ok (a, t)) : Serves n s t a.solutions := by
  obtain ⟨hs', ho', hacc⟩ := solveOne_accounts hn hs.sound hs.orderly h
  cases a with
  | solution values =>
    obtain ⟨as, rfl, hgone, hiff⟩ := hacc
    refine ⟨⟨hs', ho', solveOne_solution h ▸ Phase.noConfusion⟩, [as], rfl,
      List.nodup_singleton as, ?_, ?_⟩
    · intro bs hb
      rw [List.mem_singleton.1 hb]
      exact ⟨(hiff as).2 (.inl rfl), hgone⟩
    · intro bs hb
      exact (hiff bs).2 (.inr hb)
  | exhausted =>
    have hph := solveOne_exhausted h
    exact ⟨.of_exhausted hs' hph, [], rfl, .nil_of_exhausted hph⟩
  | overflow =>
    have hph := solveOne_overflow h
    exact ⟨.of_exhausted hs' hph, [], rfl, .nil_of_exhausted hph⟩

theorem collectOnto_serves (hn : n.WellFormed) (hs : s.Idle n) (found : List (List Int))
    (wanted : Option Nat) :
    ∃ vs, (s.collectOnto found wanted).solutions = found.reverse ++ vs ∧
      Serves n s (s.collectOnto found wanted).solver vs := by
  fun_induction collectOnto found wanted s with
  | case1 => exact ⟨[], (List.append_nil _).symm, .refl hs⟩
  | case2 => exact ⟨[], (List.append_nil _).symm, .refl hs⟩
  | case3 found wanted s _ t ht => exact ⟨[], (List.append_nil _).symm, solveOne_serves hn hs ht⟩
  | case4 found wanted s _ capacity t ht =>
    exact ⟨[], (List.append_nil _).symm, solveOne_serves hn hs ht⟩
  | case5 found wanted s _ values t ht ih =>
    have hserves := solveOne_serves hn hs ht
    obtain ⟨vs, hsolutions, hrest⟩ := ih hserves.idle
    refine ⟨values :: vs, ?_, hserves.trans hrest⟩
    rw [hsolutions, List.reverse_cons, List.append_assoc]
    rfl

theorem countFrom_serves {r : Except SearchError Nat} {count : Nat} (hn : n.WellFormed)
    (hs : s.Idle n)
    (h : s.countFrom (fun seen values => seen ++ [values]) seen count = .ok (r, seen', t)) :
    ∃ vs, seen' = seen ++ vs ∧ Serves n s t vs := by
  fun_induction countFrom (fun seen values => seen ++ [values]) seen count s with
  | case1 => cases h
  | case2 seen count s t ht =>
    obtain ⟨-, rfl, rfl⟩ := by simpa using h
    exact ⟨[], (List.append_nil _).symm, solveOne_serves hn hs ht⟩
  | case3 seen count s capacity t ht =>
    obtain ⟨-, rfl, rfl⟩ := by simpa using h
    exact ⟨[], (List.append_nil _).symm, solveOne_serves hn hs ht⟩
  | case4 seen count s values t ht ih =>
    have hserves := solveOne_serves hn hs ht
    obtain ⟨vs, hseen, hrest⟩ := ih hserves.idle h
    refine ⟨values :: vs, ?_, hserves.trans hrest⟩
    rw [hseen, List.append_assoc]
    rfl

theorem next_serves {it it' : Solutions σ} {i : Solutions.Item} (hn : n.WellFormed)
    (hs : it.solver.Idle n) (h : it.next = .ok (i, it')) :
    Serves n it.solver it'.solver i.solutions := by
  unfold Solutions.next at h
  split at h
  · obtain ⟨rfl, rfl⟩ := Prod.mk.inj (Except.ok.inj h)
    exact .refl hs
  · obtain ⟨⟨a, t⟩, ht, h⟩ := bind_eq_ok.1 h
    have hserves := solveOne_serves hn hs ht
    cases a
    all_goals
      obtain ⟨rfl, rfl⟩ := Prod.mk.inj (Except.ok.inj h)
      exact hserves

theorem take_serves {it it' : Solutions σ} {is : List Solutions.Item} {k : Nat}
    (hn : n.WellFormed) (hs : it.solver.Idle n) (h : it.take k = .ok (is, it')) :
    Serves n it.solver it'.solver (is.flatMap Solutions.Item.solutions) := by
  induction k generalizing it is with
  | zero =>
    obtain ⟨rfl, rfl⟩ := Prod.mk.inj (Except.ok.inj h)
    exact .refl hs
  | succ k ih =>
    obtain ⟨⟨i, rest⟩, hi, h⟩ := bind_eq_ok.1 h
    obtain ⟨⟨others, it''⟩, hothers, h⟩ := bind_eq_ok.1 h
    obtain ⟨rfl, rfl⟩ := Prod.mk.inj (Except.ok.inj h)
    have hserves := next_serves hn hs hi
    exact hserves.trans (ih hserves.idle hothers)

/-- **Taking choice points back gives up what is behind them.** -/
theorem backtrack_serves {moved : Bool} (hn : n.WellFormed) (hs : s.Idle n)
    (h : s.backtrack = (moved, t)) : Serves n s t [] := by
  obtain ⟨hsound, hph, -, -, -⟩ := backtrack_sound hn hs.sound hs.away h
  have haway : t.phase ≠ .filtering := hph ▸ hs.away
  -- A solver that is ready has no choice point to take back.
  by_cases hready : s.phase = .ready
  · have hpop : s.choicePoints.pop? = none := by
      cases hp : s.choicePoints.pop? with
      | none => rfl
      | some c =>
        have hlive := ChoicePoints.live_pop? hp
        rw [hs.orderly.fresh hready] at hlive
        simp at hlive
    obtain ⟨-, rfl⟩ := Prod.mk.inj ((backtrack_of_bare hpop).symm.trans h)
    exact .refl hs
  by_cases hex : s.phase = .exhausted
  · have hex' : t.phase = .exhausted := hph.trans hex
    exact ⟨.of_exhausted hsound hex', [], rfl, .nil_of_exhausted hex'⟩
  have hleft : s.Left := by
    unfold Left
    cases hp : s.phase <;> simp_all
  have hleft' : t.Left := by
    unfold Left
    rw [hph]
    exact hleft
  obtain ⟨skipped, hbehind, -⟩ := backtrack_behind h
  refine ⟨⟨hsound, ⟨fun hph => absurd hph ?_, ?_⟩, haway⟩, [], rfl, .nil ?_⟩
  · rcases hleft' with h | h <;> rw [h] <;> exact Phase.noConfusion
  · have hapart := hs.orderly.apart
    rw [frontier_of_left hleft, hbehind, List.append_assoc] at hapart
    rw [frontier_of_left hleft']
    exact (List.pairwise_append.1 hapart).1
  · intro as hp
    rw [pending_iff_of_left hleft'] at hp
    rw [pending_iff_of_left hleft]
    obtain ⟨hsat, e, he, hm⟩ := hp
    refine ⟨hsat, e, ?_, hm⟩
    rw [hbehind, List.append_assoc]
    exact List.mem_append_left _ he

/-! ### Optimising -/

/-- An optimisation comes back exhausted, with a solution if with anything. -/
structure Settles (n : Network) (t : Solver σ) (r : Optimum) : Prop where
  sound : t.Sound n
  exhausted : t.phase = .exhausted
  solves : ∀ values ∈ r.solutions, ∃ as, n.Solves as ∧ n.valuesOf as = values

theorem Settles.serves {r : Optimum} (h : Settles n t r) (hs : s.network = n) :
    Serves n s.reset t r.solutions := by
  refine ⟨.of_exhausted h.sound h.exhausted, ?_⟩
  match r with
  | .ok (some values) =>
    obtain ⟨as, has, rfl⟩ := h.solves values (List.mem_singleton_self values)
    refine ⟨[as], rfl, List.nodup_singleton as, ?_, ?_⟩
    · intro bs hb
      rw [List.mem_singleton.1 hb]
      exact ⟨(reset_pending_iff hs).2 has, not_pending_of_exhausted h.exhausted⟩
    · intro bs hb
      exact absurd hb (not_pending_of_exhausted h.exhausted)
  | .ok none => exact ⟨[], rfl, .nil_of_exhausted h.exhausted⟩
  | .error e => exact ⟨[], rfl, .nil_of_exhausted h.exhausted⟩

/-- The last search of an optimisation has come to nothing better. -/
theorem settles_of_exhausted {best : Option (List Int)} (hn : n.WellFormed) (hs : s.Idle n)
    (hbest : ∀ values ∈ best, ∃ as, n.Solves as ∧ n.valuesOf as = values)
    (hu : s.solveOne = .ok (.exhausted, u)) :
    Settles n { u with objective := none } (.ok best) := by
  have hph := solveOne_exhausted hu
  refine ⟨drop_sound (solveOne_serves hn hs hu).idle.sound hph, hph, ?_⟩
  intro values hv
  cases best with
  | none => cases hv
  | some best => exact hbest values (List.mem_singleton.1 hv ▸ rfl)

theorem settles_of_overflow {capacity : Nat} {e : SearchError} (hn : n.WellFormed) (hs : s.Idle n)
    (hu : s.solveOne = .ok (.overflow capacity, u)) : Settles n u (.error e) :=
  ⟨(solveOne_serves hn hs hu).idle.sound, solveOne_overflow hu, List.forall_mem_nil _⟩

theorem pruneOn_settles {best : Option (List Int)} {r : Optimum} (hn : n.WellFormed)
    (hs : s.Idle n) (hobj : ∀ o, s.objective = some o →
      ∀ value, o.domain = (dir.improve v value).domain ∧ o.bound = (dir.improve v value).bound)
    (hbest : ∀ values ∈ best, ∃ as, n.Solves as ∧ n.valuesOf as = values)
    (h : s.pruneOn dir x v best = .ok (r, t)) : Settles n t r := by
  fun_induction pruneOn dir x v best s with
  | case1 => cases h
  | case2 best s u hu =>
    obtain ⟨rfl, rfl⟩ := Prod.mk.inj (Except.ok.inj h)
    exact settles_of_exhausted hn hs hbest hu
  | case3 best s capacity u hu =>
    obtain ⟨rfl, rfl⟩ := Prod.mk.inj (Except.ok.inj h)
    exact settles_of_overflow hn hs hu
  | case4 best s values u hu value ih =>
    have hserves := solveOne_serves hn hs hu
    have hleft : (u.tellObjective value).Left := .inl (solveOne_solution hu : u.phase = .solved)
    have htold : (u.tellObjective value).Orderly :=
      ⟨hserves.idle.orderly.fresh, hserves.idle.orderly.apart⟩
    refine ih ⟨prune_sound (tellObjective_sound hserves.idle.sound value) ?_,
      prune_orderly htold hleft _, hserves.idle.away⟩ ?_ ?_ h
    · intro o ho
      refine hobj o ?_ value
      rw [← (solveOne_keeps hu).objective]
      exact ho
    · rintro _ ⟨⟩ value'
      exact ⟨by rw [improve_domain, improve_domain], improve_bound ..⟩
    · rintro _ ⟨⟩
      exact hserves.solves hs.sound values (List.mem_singleton_self values)

theorem restartOn_settles {best : Option (List Int)} {r : Optimum} (hn : n.WellFormed)
    (hs : s.Idle n) (hbest : ∀ values ∈ best, ∃ as, n.Solves as ∧ n.valuesOf as = values)
    (h : s.restartOn dir x v best = .ok (r, t)) : Settles n t r := by
  refine restartOn_ends (P := fun best s => s.Idle n ∧
      ∀ values ∈ best, ∃ as, n.Solves as ∧ n.valuesOf as = values)
    (Q := fun r t => Settles n t r) ?_ ?_ ?_ ⟨hs, hbest⟩ h
  · rintro best s values u ⟨hs, -⟩ hu
    have hserves := solveOne_serves hn hs hu
    refine ⟨⟨restart_sound (tellObjective_sound hserves.idle.sound _) _, restart_orderly _ _,
      Phase.noConfusion⟩, ?_⟩
    rintro _ ⟨⟩
    exact hserves.solves hs.sound values (List.mem_singleton_self values)
  · rintro best s u ⟨hs, hbest⟩ hu
    exact settles_of_exhausted hn hs hbest hu
  · rintro best s capacity u ⟨hs, -⟩ hu
    exact settles_of_overflow hn hs hu

theorem optimise_settles {mode : OptimisationMode} {r : Optimum} (hn : n.WellFormed)
    (hs : s.Idle n) (h : s.optimise x mode dir = .ok (r, t)) : Settles n t r := by
  obtain ⟨v, hx, h⟩ := bind_eq_ok.1 h
  have hnone : ∀ values ∈ (none : Option (List Int)), ∃ as, n.Solves as ∧ n.valuesOf as = values :=
    fun _ hv => nomatch hv
  cases mode with
  | prune => exact pruneOn_settles hn hs.reset (fun _ ho => nomatch ho) hnone h
  | reset => exact restartOn_settles hn hs.reset hnone h

end Solver
end BoundsSolver
