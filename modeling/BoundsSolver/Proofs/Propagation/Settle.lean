/-
# Propagation as a whole

A state is `Primed` for propagation if it is coherent, every shared domain has a
value left and every propagator is stable or triggered.  Narrowing a bound and waking
its subscribers keeps a state primed (`State.Primed.narrow`), and so does triggering.

From a primed state the loop only goes through primed states (`Propagating.primed`).  When
it comes to rest the box is stable for all propagators, entailed ones included, and
every box that the propagators spare has survived (`propagate_spec`).
-/

import BoundsSolver.Proofs.Propagation.Run

namespace BoundsSolver

/-- A state from which propagation overlooks nothing. -/
structure State.Primed (n : Network) (s : State) : Prop where
  coherent : s.Coherent n
  alive : s.box.Alive
  attends : ∀ id, s.Attends n id

/-- What propagation makes of a state; `kept` tells whether it succeeded. -/
structure Propagated (n : Network) (s t : State) (kept : Bool) : Prop where
  coherent : t.Coherent n
  inside : t.box.Inside s.box
  idle : ∀ id, id ∉ t.triggered
  alive : kept = true → t.box.Alive
  stable : kept = true → n.StableOn t.box
  /-- A box that all propagators spare survives. -/
  spares : ∀ c : Box, c.Inside s.box → c.Alive → n.Spares c → kept = true ∧ c.Inside t.box

/-- The states that the loop of propagation goes through. -/
inductive Propagating (n : Network) (s : State) : State → Prop
  | start : Propagating n s (s.count fun c => { c with filters := c.filters + 1 })
  | skip {t : State} {id : PropagatorId} {rest : Triggered} :
    Propagating n s t → t.triggered.pop? = some (id, rest) → t.entailed.entry id = true →
      Propagating n s { t with triggered := rest }
  | run {t : State} {id : PropagatorId} {rest : Triggered} {o : Outcome} :
    Propagating n s t → t.triggered.pop? = some (id, rest) → t.entailed.entry id = false →
      BoundsSolver.run n { t with triggered := rest } id = .ok o → o.kept = true →
        Propagating n s o.state

variable {n : Network} {q : Propagator} {id : PropagatorId} {s t : State} {o : Outcome}
  {b c : Box} {kept : Bool} {rest : Triggered} {br : Branch}

/-! ### Coherent states -/

namespace State

theorem Coherent.of_alike (h : s.Coherent n) (hs : t.Alike s) : t.Coherent n where
  inside := hs.box ▸ h.inside
  faithful := hs.triggered ▸ h.faithful
  flags := hs.entailed ▸ h.flags
  settled hq he := hs.box ▸ h.settled hq (hs.entailed ▸ he)

theorem Primed.of_alike (h : s.Primed n) (hs : t.Alike s) : t.Primed n where
  coherent := h.coherent.of_alike hs
  alive := hs.box ▸ h.alive
  attends id q hq := by
    rw [hs.box, hs.triggered]
    exact h.attends id hq

theorem Coherent.tell (h : s.Coherent n) (e : Event) : (s.tell e).Coherent n :=
  h.of_alike ⟨rfl, rfl, rfl⟩

theorem Coherent.count (h : s.Coherent n) (f : Statistics → Statistics) : (s.count f).Coherent n :=
  h.of_alike ⟨rfl, rfl, rfl⟩

theorem Primed.tell (h : s.Primed n) (e : Event) : (s.tell e).Primed n :=
  h.of_alike ⟨rfl, rfl, rfl⟩

theorem Primed.count (h : s.Primed n) (f : Statistics → Statistics) : (s.count f).Primed n :=
  h.of_alike ⟨rfl, rfl, rfl⟩

theorem Coherent.triggerAll (h : s.Coherent n) (ids : List PropagatorId) :
    (s.triggerAll ids).Coherent n :=
  ⟨h.inside, triggerAll_faithful h.faithful, h.flags, h.settled⟩

/-- A coherent state stays so when its box is narrowed. -/
theorem Coherent.narrowed (h : s.Coherent n) (hb : b.Inside s.box) :
    ({ s with box := b } : State).Coherent n :=
  ⟨hb.trans h.inside, h.faithful, h.flags, fun hq he => (h.settled hq he).of_inside hb⟩

theorem Coherent.with_triggered (h : s.Coherent n) (hf : rest.Faithful) :
    ({ s with triggered := rest } : State).Coherent n :=
  ⟨h.inside, hf, h.flags, h.settled⟩

theorem mem_triggerAll_of_mem (h : s.triggered.Faithful) (ids : List PropagatorId)
    (hid : id ∈ s.triggered) : id ∈ (s.triggerAll ids).triggered :=
  (mem_triggerAll h).2 (.inr hid)

/-- **Triggering all propagators primes a state.** -/
theorem Coherent.primed_of_keys (h : s.Coherent n) (ha : s.box.Alive) :
    (s.triggerAll n.propagators.keys).Primed n where
  coherent := h.triggerAll _
  alive := ha
  attends id q hq := by
    cases hflag : s.entailed.entry id with
    | true => exact .inl ((h.settled hq hflag).stableOn ha)
    | false =>
      refine .inr ((mem_triggerAll h.faithful).2 (.inl ⟨?_, hflag⟩))
      exact List.mem_map.2 ⟨id.index, List.mem_range.2 (Keyed.lt_size_of_get? hq), rfl⟩

theorem Coherent.narrow (h : s.Coherent n) (br : Branch) : (s.narrow n br).Coherent n :=
  (h.narrowed (Box.tighten_inside s.box br)).triggerAll _

/-- A bound other than the one of the branch does not move. -/
theorem eq_of_tighten {d : DomainId} {x : Bound}
    (hne : (Box.tighten b br |>.entry d).get x ≠ (b.entry d).get x) :
    br.domain = d ∧ br.bound = x := by
  rw [Box.entry_tighten] at hne
  split at hne
  · rename_i hd
    refine ⟨hd.1, ?_⟩
    by_contra hx
    refine hne ?_
    cases hb : br.bound <;> cases x <;>
      simp_all [Interval.tighten, Interval.get]
  · exact absurd rfl hne

/-- **Moving a bound and waking its subscribers keeps a state primed**, as long as every
shared domain has a value left. -/
theorem Primed.narrow (h : s.Primed n) (br : Branch) (hn : n.WellFormed)
    (ha : Box.Alive (s.box.tighten br)) :
    (s.narrow n br).Primed n where
  coherent := h.coherent.narrow br
  alive := ha
  attends id q hq := by
    have hf : ({ s with box := s.box.tighten br } : State).triggered.Faithful := h.coherent.faithful
    rcases h.attends id hq with hst | hid
    · refine attends_of_wakes hn (h.coherent.narrow br) ha h.coherent.inside h.alive
        (Box.tighten_inside s.box br) hq hst fun {d x} hne hsub hflag => ?_
      obtain ⟨rfl, rfl⟩ := eq_of_tighten hne
      exact (mem_triggerAll hf).2 (.inl ⟨hsub, hflag⟩)
    · exact .inr (mem_triggerAll_of_mem hf _ hid)

end State

/-! ### The loop -/

theorem settle_of_idle (h : s.triggered.pop? = none) : settle n s = .ok (true, s) := by
  rw [settle]
  split
  · rfl
  · rename_i hp
    rw [h] at hp
    cases hp

/-- One round of the loop. -/
theorem settle_of_pop (hp : s.triggered.pop? = some (id, rest)) :
    settle n s =
      if s.entailed.entry id then settle n { s with triggered := rest }
      else do
        let o ← run n { s with triggered := rest } id
        if o.kept then settle n o.state
        else
          return (false, { o.state.count fun c => { c with inconsistencies := c.inconsistencies + 1 }
            with triggered := o.state.triggered.clear }) := by
  rw [settle]
  split
  · rename_i hnone
    rw [hp] at hnone
    cases hnone
  · rename_i id' rest' hsome
    obtain ⟨rfl, rfl⟩ := Prod.mk.inj (Option.some.inj (hp.symm.trans hsome))
    split
    · rfl
    · split
      · rename_i hr
        rw [hr]
        rfl
      · rename_i hr
        rw [bind_of_ok hr]
        rfl
      · rename_i hr
        rw [bind_of_ok hr]
        rfl

/-- Taking an entailed propagator out of the queue keeps a state primed. -/
theorem State.Primed.skip (h : s.Primed n) (hp : s.triggered.pop? = some (id, rest))
    (he : s.entailed.entry id = true) : ({ s with triggered := rest } : State).Primed n where
  coherent := h.coherent.with_triggered (h.coherent.faithful.pop? hp).1
  alive := h.alive
  attends x q hq := by
    obtain ⟨-, -, hmem⟩ := h.coherent.faithful.pop? hp
    rcases h.attends x hq with hst | hx
    · exact .inl hst
    · rcases (hmem x).1 hx with rfl | hx
      · exact .inl ((h.coherent.settled hq he).stableOn h.alive)
      · exact .inr hx

/-- Running a propagator from the queue keeps a state primed. -/
theorem State.Primed.run (h : s.Primed n) (hn : n.WellFormed)
    (hp : s.triggered.pop? = some (id, rest)) (he : s.entailed.entry id = false)
    (hr : BoundsSolver.run n { s with triggered := rest } id = .ok o) (hk : o.kept = true) :
    o.state.Primed n := by
  obtain ⟨hf, -, hmem⟩ := h.coherent.faithful.pop? hp
  have hs := h.coherent.with_triggered hf
  have hothers (x : PropagatorId) (hx : x ≠ id) :
      ({ s with triggered := rest } : State).Attends n x := by
    intro q hq
    exact (h.attends x hq).imp_right fun hm => ((hmem x).1 hm).resolve_left hx
  obtain ⟨ha, hatt⟩ := run_attends hn hs h.alive he hothers hr hk
  exact ⟨run_coherent hn hs h.alive hr, ha, hatt⟩

/-- **The loop goes through primed states only.** -/
theorem Propagating.primed (h : Propagating n s t) (hn : n.WellFormed) (hs : s.Primed n) :
    t.Primed n := by
  induction h with
  | start => exact hs.count _
  | skip _ hp he ih => exact ih.skip hp he
  | run _ hp he hr hk ih => exact ih.run hn hp he hr hk

theorem State.Primed.propagated_of_idle (h : s.Primed n) (hp : s.triggered.pop? = none) :
    Propagated n s s true where
  coherent := h.coherent
  inside := .refl _
  idle _ := Triggered.not_mem_of_pop? hp
  alive _ := h.alive
  stable _ q hq := by
    obtain ⟨id, hid⟩ := Keyed.exists_get?_of_mem hq
    exact (h.attends id hid).resolve_right (Triggered.not_mem_of_pop? hp)
  spares _ hc _ _ := ⟨rfl, hc⟩

/-- Those are all the states of a propagation that comes to rest. -/
theorem propagating_of_settle {u : State} (hu : Propagating n s u)
    (h : settle n u = .ok (true, t)) : Propagating n s t := by
  fun_induction settle n u with
  | case1 u hp =>
    obtain ⟨-, rfl⟩ := Prod.mk.inj (Except.ok.inj h)
    exact hu
  | case2 u id rest hp he ih => exact ih (hu.skip hp he) h
  | case3 => cases h
  | case4 u id rest hp he changed v hr ih => exact ih (hu.run hp (Bool.eq_false_iff.2 he) hr rfl) h
  | case5 => cases h

/-- What holds after the rest of a loop holds after the whole. -/
theorem Propagated.after {u : State} (h : Propagated n u t kept) (hin : u.box.Inside s.box)
    (hsp : ∀ c : Box, c.Inside s.box → c.Alive → n.Spares c → c.Inside u.box) :
    Propagated n s t kept where
  coherent := h.coherent
  inside := h.inside.trans hin
  idle := h.idle
  alive := h.alive
  stable := h.stable
  spares c hc hca hcs := h.spares c (hsp c hc hca hcs) hca hcs

theorem settle_spec (hn : n.WellFormed) (hs : s.Primed n)
    (h : settle n s = .ok (kept, t)) : Propagated n s t kept := by
  fun_induction settle n s with
  | case1 s hp =>
    obtain ⟨rfl, rfl⟩ := Prod.mk.inj (Except.ok.inj h)
    exact hs.propagated_of_idle hp
  | case2 s id rest hp he ih => exact (ih (hs.skip hp he) h).after (.refl _) fun c hc _ _ => hc
  | case3 => cases h
  | case4 s id rest hp he changed u hr ih =>
    have he := Bool.eq_false_iff.2 he
    have hc := hs.coherent.with_triggered (hs.coherent.faithful.pop? hp).1
    refine (ih (hs.run hn hp he hr rfl) h).after (run_inside hn hc hs.alive hr) fun c hcs hca hsp => ?_
    exact (run_spares hn hc.inside hs.alive hc.faithful hr hcs hca hsp).2
  | case5 s id rest hp he changed u hr =>
    obtain ⟨rfl, rfl⟩ := Prod.mk.inj (Except.ok.inj h)
    have hc := hs.coherent.with_triggered (hs.coherent.faithful.pop? hp).1
    have hu := run_coherent hn hc hs.alive hr
    refine ⟨⟨hu.inside, hu.faithful.clear, hu.flags, hu.settled⟩, run_inside hn hc hs.alive hr,
      fun _ => Triggered.not_mem_clear, Bool.noConfusion, Bool.noConfusion, fun c hcs hca hsp => ?_⟩
    obtain ⟨hk, -⟩ := run_spares hn hc.inside hs.alive hc.faithful hr hcs hca hsp
    cases hk

/-- **Propagation leaves a stable box**, flags that hold and every box that is spared. -/
theorem propagate_spec (hn : n.WellFormed) (hs : s.Primed n)
    (h : propagate n s = .ok (kept, t)) : Propagated n s t kept := by
  have hcount := hs.count fun c => { c with filters := c.filters + 1 }
  exact (settle_spec hn hcount h).after (.refl _) fun _ hc _ _ => hc

end BoundsSolver
