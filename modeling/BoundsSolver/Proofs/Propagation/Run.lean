/-
# One run of a propagator

`State.Coherent` is what holds of a state at all times: its box lies within the
initial one, the queue and the flags describe sets of propagators, and a flagged
propagator is settled.  `State.Attends` says of one propagator that it is stable or
triggered.

A run keeps a state coherent (`run_coherent`), and if it succeeds it leaves its own
propagator attended and all others that were (`run_attends`).  A propagator that
triggers itself only when several of its variables share a domain is stable in any
other case, since what it wrote back is then exactly what it answered.

A box that a propagator `Spares` survives the run (`run_spares`).
-/

import BoundsSolver.Proofs.Propagation.Cut

namespace BoundsSolver

/-- Whatever a run on a larger box answers, it leaves the box alone. -/
def Propagator.Spares (q : Propagator) (n : Network) (c : Box) : Prop :=
  ∀ ⦃b : Box⦄ ⦃r : Narrowing⦄, b.Inside n.initial → b.Alive → c.Inside b →
    q.constraint.propagate (q.reads b) q.parameters = .ok r →
      r.status ≠ .inconsistent ∧ Within (q.reads c) r.bounds

/-- Every propagator spares the box. -/
def Network.Spares (n : Network) (c : Box) : Prop := ∀ q ∈ n.propagators.toList, q.Spares n c

/-- What holds of a state at all times. -/
structure State.Coherent (n : Network) (s : State) : Prop where
  inside : s.box.Inside n.initial
  faithful : s.triggered.Faithful
  flags : s.entailed.size = n.propagators.size
  settled : ∀ {id : PropagatorId} {q : Propagator}, n.propagators.get? id = some q →
    s.entailed.entry id = true → q.SettledOn s.box

/-- The propagator is stable or triggered. -/
def State.Attends (n : Network) (s : State) (id : PropagatorId) : Prop :=
  ∀ {q : Propagator}, n.propagators.get? id = some q → q.StableOn s.box ∨ id ∈ s.triggered

variable {n : Network} {q : Propagator} {id : PropagatorId} {s : State} {o : Outcome}
  {b c : Box} {r : Narrowing} {as : List Int}

/-! ### Boxes that runs spare -/

namespace Network.Posts

variable (h : n.Posts q)
include h

/-- A stable box is spared. -/
theorem spares_of_stableOn (ha : c.Alive) (hs : q.StableOn c) : q.Spares n c := by
  intro b r hb hba hc hr
  exact (q.constraint.contract q.parameters).covers (h.posed hb hba) hr
    (Propagator.reads_within hc q) (Propagator.reads_filled ha q) hs

/-- A solution is spared. -/
theorem spares_of_holds (hm : Mem as n.initial.toList) (hh : q.Holds as) :
    q.Spares n (.point as) := by
  intro b r hb hba hc hr
  have hmem := h.mem_reads hb (Box.point_inside_iff.1 hc)
  obtain ⟨hs, hk⟩ := (q.constraint.contract q.parameters).keeps (h.posed hb hba) hr hmem hh
  refine ⟨hs, ?_⟩
  rw [h.reads_point hm]
  exact mem_iff_within.1 hk

end Network.Posts

/-! ### The positions of a run -/

theorem mem_positions {p : Position} {views : List View} {is js : List Interval} :
    p ∈ positions views is js ↔ ∃ k : Nat, views[k]? = some p.view ∧ is[k]? = some p.before ∧
      js[k]? = some p.after := by
  rw [positions, List.mem_map]
  constructor
  · rintro ⟨⟨v, i, j⟩, hmem, rfl⟩
    obtain ⟨k, hk⟩ := List.mem_iff_getElem?.1 hmem
    obtain ⟨hv, hij⟩ := List.getElem?_zip_eq_some.1 hk
    obtain ⟨hi, hj⟩ := List.getElem?_zip_eq_some.1 hij
    exact ⟨k, hv, hi, hj⟩
  · rintro ⟨k, hv, hi, hj⟩
    refine ⟨(p.view, p.before, p.after), List.mem_of_getElem? (i := k) ?_, rfl⟩
    exact List.getElem?_zip_eq_some.2 ⟨hv, List.getElem?_zip_eq_some.2 ⟨hi, hj⟩⟩

namespace Network.Posts

variable (h : n.Posts q) {js : List Interval}
include h

theorem placed (hw : Within js (q.reads b)) (hf : Filled js) :
    ∀ p ∈ positions q.views (q.reads b) js, p.Placed n b := by
  intro p hp
  obtain ⟨k, hv, hi, hj⟩ := mem_positions.1 hp
  refine ⟨h.carried _ (List.mem_of_getElem? hv), ?_, hw.bounds hj hi, hf _ (List.mem_of_getElem? hj)⟩
  exact Option.some.inj (hi.symm.trans (Propagator.reads_getElem? hv b))

/-- The positions confine a box if its variables lie within the answer of the run. -/
theorem confines_iff (hlen : js.length = q.views.length) (hc : c.Inside n.initial)
    (ha : c.Alive) : (∀ p ∈ positions q.views (q.reads b) js, p.Confines c) ↔
      Within (q.reads c) js := by
  have hread {k : Nat} {v : View} (hv : q.views[k]? = some v) :
      v.read c = ⟨(c.entry v.domain).min + v.offset, (c.entry v.domain).max + v.offset⟩ :=
    (h.carried v (List.mem_of_getElem? hv)).read_eq hc ha
  rw [within_iff_getElem?]
  constructor
  · intro hall
    refine ⟨by rw [Propagator.reads, List.length_map, hlen], fun {k i j} hi hj => ?_⟩
    obtain ⟨v, hv, rfl⟩ := Propagator.exists_of_reads hi
    have hbefore := Propagator.reads_getElem? hv b
    obtain ⟨hmin, hmax⟩ := hall ⟨v, v.read b, j⟩ (mem_positions.2 ⟨k, hv, hbefore, hj⟩)
    rw [hread hv]
    dsimp only [Position.target] at hmin hmax ⊢
    omega
  · rintro ⟨-, hall⟩ p hp
    obtain ⟨k, hv, -, hj⟩ := mem_positions.1 hp
    have hc := hall (Propagator.reads_getElem? hv c) hj
    rw [hread hv] at hc
    dsimp only [Position.Confines, Position.target] at hc ⊢
    omega

end Network.Posts

/-! ### What a run leaves -/

/-- The flags after a run. -/
def flagged (s : State) (id : PropagatorId) (status : Status) : Keyed PropagatorId Bool :=
  if status = .entailed then s.entailed.set id true else s.entailed

/-- A failed run. -/
structure Fails (n : Network) (q : Propagator) (s : State) (o : Outcome) (r : Narrowing) :
    Prop where
  kept : o.kept = false
  inside : o.state.box.Inside s.box
  faithful : o.state.triggered.Faithful
  /-- The constraint is violated, or a shared domain lost its last value. -/
  why : r.status = .inconsistent ∧ o.state.entailed = s.entailed ∨ ¬ o.state.box.Alive
  flags : o.state.entailed.size = s.entailed.size
  hopeless : ∀ c : Box, c.Inside s.box → c.Alive → ¬ q.Spares n c

/-- A successful run. -/
structure Succeeds (n : Network) (q : Propagator) (id : PropagatorId) (s : State) (o : Outcome)
    (r : Narrowing) : Prop where
  kept : o.kept = true
  accepts : r.status ≠ .inconsistent
  alive : o.state.box.Alive
  entailed : o.state.entailed = flagged s id r.status
  narrows : Narrows n id q.selfAliasing { s with entailed := flagged s id r.status } o.state
  within : Within (q.reads o.state.box) r.bounds
  covers : ∀ c : Box, c.Inside s.box → c.Alive → Within (q.reads c) r.bounds →
    c.Inside o.state.box

/-- **A run writes back the greatest box within its answer**, or fails if there is none. -/
theorem run_cases (hn : n.WellFormed) (hb : s.box.Inside n.initial) (ha : s.box.Alive)
    (hf : s.triggered.Faithful) (h : run n s id = .ok o) :
    ∃ q r, n.propagators.get? id = some q ∧
      q.constraint.propagate (q.reads s.box) q.parameters = .ok r ∧
      (Fails n q s o r ∨ Succeeds n q id s o r) := by
  obtain ⟨q, hq, h⟩ := bind_eq_ok.1 h
  obtain ⟨r, hr, h⟩ := bind_eq_ok.1 h
  have hget := Keyed.get_eq_ok.1 hq
  have hpost := hn.posted q (Keyed.mem_of_get? hget)
  have hr' : q.constraint.propagate (q.reads s.box) q.parameters = .ok r := hr
  refine ⟨q, r, hget, hr', ?_⟩
  dsimp only at h
  split at h
  · rename_i hinc
    obtain rfl := Except.ok.inj h
    exact .inl ⟨rfl, .refl _, hf, .inl ⟨hinc, rfl⟩, rfl,
      fun c hc hca hsp => (hsp hb ha hc hr').1 hinc⟩
  · rename_i hacc
    have hcon := (q.constraint.contract q.parameters).shrinks (hpost.posed hb ha) hr' hacc
    obtain ⟨o', ho', h⟩ := bind_eq_ok.1 h
    have hlen : r.bounds.length = q.views.length := by
      rw [hcon.1.length_eq, Propagator.reads, List.length_map]
    obtain ⟨hkept, ho⟩ : o.kept = o'.kept ∧ o.state.Alike o'.state := by
      split at h <;>
      · obtain rfl := Except.ok.inj h
        exact ⟨rfl, rfl, rfl, rfl⟩
    generalize hu : (if r.status = .entailed then (_ : State) else _) = u at ho'
    have hs : ({ s with entailed := flagged s id r.status } : State).Alike u := by
      rw [← hu, flagged]
      split <;> exact ⟨rfl, rfl, rfl⟩
    have hbox : u.box = s.box := hs.box.symm
    have hflags : (flagged s id r.status).size = s.entailed.size := by
      unfold flagged
      split
      · exact Keyed.size_set ..
      · rfl
    rcases writeBack_cases hn hb ha (hpost.placed hcon.1 hcon.2) (hbox ▸ .refl _) (hbox ▸ ha)
      (hs.triggered ▸ hf) ho' with ⟨hk, hd, hin, he, hf', hno⟩ | ⟨hk, hal, hnar, hconf, hcov⟩
    · refine .inl ⟨hkept.trans hk, ?_, ?_, .inr ?_, ?_, fun c hc hca hsp => ?_⟩
      · rw [ho.box, ← hbox]
        exact hin
      · rw [ho.triggered]
        exact hf'
      · rw [ho.box]
        exact hd
      · rw [ho.entailed, he, ← hs.entailed, hflags]
      · refine hno c (hbox ▸ hc) hca ?_
        exact (hpost.confines_iff hlen (hc.trans hb) hca).2 (hsp hb ha hc hr').2
    · refine .inr ⟨hkept.trans hk, hacc, ?_, ?_, hnar.of_alike hs ho, ?_, fun c hc hca hw => ?_⟩
      · rw [ho.box]
        exact hal
      · rw [ho.entailed, hnar.entailed, ← hs.entailed]
      · rw [ho.box]
        exact (hpost.confines_iff hlen (hnar.inside.trans (hbox ▸ hb)) hal).1 hconf
      · rw [ho.box]
        exact hcov c (hbox ▸ hc) ((hpost.confines_iff hlen (hc.trans hb) hca).2 hw)

/-! ### What a run preserves -/

theorem flagged_entry {x : PropagatorId} {status : Status}
    (h : (flagged s id status).entry x = true) :
    s.entailed.entry x = true ∨ x = id ∧ status = .entailed := by
  unfold flagged at h
  split at h
  · rename_i hst
    rw [Keyed.entry_set] at h
    split at h
    · rename_i hx
      exact .inr ⟨congrArg PropagatorId.mk hx.1.symm, hst⟩
    · exact .inl h
  · exact .inl h

/-- An entailed propagator is settled on what it leaves. -/
theorem Succeeds.settledOn (h : Succeeds n q id s o r) (hpost : n.Posts q)
    (hb : s.box.Inside n.initial) (ha : s.box.Alive)
    (hr : q.constraint.propagate (q.reads s.box) q.parameters = .ok r)
    (he : r.status = .entailed) : q.SettledOn o.state.box := by
  intro c hc hca
  exact (q.constraint.contract q.parameters).entails (hpost.posed hb ha) hr he
    ((Propagator.reads_within hc q).trans h.within) (Propagator.reads_filled hca q)

/-- **A run keeps a state coherent**, whether it succeeds or not. -/
theorem run_coherent (hn : n.WellFormed) (hs : s.Coherent n) (ha : s.box.Alive)
    (h : run n s id = .ok o) : o.state.Coherent n := by
  obtain ⟨q, r, hq, hr, hcase⟩ := run_cases hn hs.inside ha hs.faithful h
  rcases hcase with hfail | hsucc
  · refine ⟨hfail.inside.trans hs.inside, hfail.faithful, hfail.flags.trans hs.flags,
      fun {x p} hp he => ?_⟩
    rcases hfail.why with ⟨-, hent⟩ | hdead
    · rw [hent] at he
      exact (hs.settled hp he).of_inside hfail.inside
    · exact fun c hc hca => absurd (hca.of_inside hc) hdead
  · have hin : o.state.box.Inside s.box := hsucc.narrows.inside
    refine ⟨hin.trans hs.inside, hsucc.narrows.faithful, ?_, fun {x p} hp he => ?_⟩
    · rw [hsucc.entailed, flagged]
      split
      · rw [Keyed.size_set]
        exact hs.flags
      · exact hs.flags
    · rw [hsucc.entailed] at he
      rcases flagged_entry he with he | ⟨rfl, hst⟩
      · exact (hs.settled hp he).of_inside hin
      · obtain rfl := Option.some.inj (hq.symm.trans hp)
        exact hsucc.settledOn (hn.posted q (Keyed.mem_of_get? hq)) hs.inside ha hr hst

/-- A box that the propagator spares survives its run. -/
theorem run_spares (hn : n.WellFormed) (hb : s.box.Inside n.initial) (ha : s.box.Alive)
    (hf : s.triggered.Faithful) (h : run n s id = .ok o) (hc : c.Inside s.box) (hca : c.Alive)
    (hsp : n.Spares c) : o.kept = true ∧ c.Inside o.state.box := by
  obtain ⟨q, r, hq, hr, hcase⟩ := run_cases hn hb ha hf h
  have hspq : q.Spares n c := hsp q (Keyed.mem_of_get? hq)
  rcases hcase with hfail | hsucc
  · exact absurd hspq (hfail.hopeless c hc hca)
  · exact ⟨hsucc.kept, hsucc.covers c hc hca (hspq hb ha hc hr).2⟩

theorem run_inside (hn : n.WellFormed) (hs : s.Coherent n) (ha : s.box.Alive)
    (h : run n s id = .ok o) : o.state.box.Inside s.box := by
  obtain ⟨q, r, -, -, hfail | hsucc⟩ := run_cases hn hs.inside ha hs.faithful h
  · exact hfail.inside
  · exact hsucc.narrows.inside

/-! ### Who has to run again -/

/-- **A narrowed box keeps every propagator attended** if the subscribers of each bound that
moved are triggered: a propagator that was stable still is, or has been triggered. -/
theorem attends_of_wakes (hn : n.WellFormed) (hs : s.Coherent n) (ha : s.box.Alive)
    (hb : b.Inside n.initial) (hba : b.Alive) (hin : s.box.Inside b)
    (hq : n.propagators.get? id = some q) (hst : q.StableOn b)
    (hwakes : ∀ {d : DomainId} {x : Bound}, (s.box.entry d).get x ≠ (b.entry d).get x →
      id ∈ n.subscribersOf d x → s.entailed.entry id = false → id ∈ s.triggered) :
    q.StableOn s.box ∨ id ∈ s.triggered := by
  by_cases hid : id ∈ s.triggered
  · exact .inr hid
  left
  cases hflag : s.entailed.entry id with
  | true => exact (hs.settled hq hflag).stableOn ha
  | false =>
    refine (hn.posted q (Keyed.mem_of_get? hq)).stableOn_of_quiet hb hba hst hin ha
      fun {v t x} hvt hx => ?_
    by_contra hne
    exact hid (hwakes hne (hn.subscribed hq hvt hx) hflag)

section PutBack

variable {v : View} {i j : Interval} {is : List Interval} {k : Nat}

/-- The box in which the variable reads as the interval. -/
def View.putBack (v : View) (b : Box) (i : Interval) : Box :=
  Keyed.set b v.domain ⟨i.min - v.offset, i.max - v.offset⟩

theorem View.putBack_entry (hv : v.domain.index < b.size) (i : Interval) (d : DomainId) :
    (v.putBack b i).entry d =
      if v.domain = d then ⟨i.min - v.offset, i.max - v.offset⟩ else b.entry d := by
  rw [putBack, Box.entry_set]
  simp only [hv, and_true]

theorem View.putBack_inside (hv : v.domain.index < b.size) (hb : b.Inside c)
    (hmin : (c.entry v.domain).min + v.offset ≤ i.min)
    (hmax : i.max ≤ (c.entry v.domain).max + v.offset) : (v.putBack b i).Inside c := by
  refine Box.inside_iff.2 ⟨(Keyed.size_set ..).trans hb.size_eq, fun d => ?_⟩
  rw [putBack_entry hv]
  split
  · rename_i hd
    subst hd
    dsimp only
    omega
  · exact hb.bounds d

theorem View.putBack_alive (hv : v.domain.index < b.size) (hb : b.Alive) (hi : i.min ≤ i.max) :
    (v.putBack b i).Alive := by
  refine Box.alive_iff.2 fun d => ?_
  rw [putBack_entry hv]
  split
  · dsimp only
    omega
  · exact hb.bounds d

theorem Propagator.index_eq (hown : q.selfAliasing = false) (hpost : n.Posts q) {l : Nat}
    {w : View} (hv : q.views[k]? = some v) (hw : q.views[l]? = some w)
    (hd : v.domain = w.domain) : k = l := by
  have hnodup : (q.views.map View.domain).Nodup := by
    rw [hpost.eq_post] at hown
    simpa [Propagator.post] using hown
  have hvk : (q.views.map View.domain)[k]? = some w.domain := by
    rw [List.getElem?_map, hv, ← hd]
    rfl
  have hwl : (q.views.map View.domain)[l]? = some w.domain := by
    rw [List.getElem?_map, hw]
    rfl
  have hlt := (List.getElem?_eq_some_iff.1 hvk).1
  exact (List.getElem?_inj hlt hnodup).1 (hvk.trans hwl.symm)

/-- If every variable has a shared domain of its own, the others read what they read before. -/
theorem Propagator.putBack_within (hown : q.selfAliasing = false) (hpost : n.Posts q)
    (hb : b.Inside n.initial) (ha : b.Alive) (hin : (v.putBack b i).Inside n.initial)
    (hal : (v.putBack b i).Alive) (hv : q.views[k]? = some v) (hi : is[k]? = some i)
    (h : Within (q.reads b) is) : Within (q.reads (v.putBack b i)) is := by
  have hlt : v.domain.index < b.size := by
    rw [hb.size_eq]
    exact (hpost.carried v (List.mem_of_getElem? hv)).has
  refine within_iff_getElem?.2 ⟨?_, fun {l i' j} hi' hj => ?_⟩
  · rw [← h.length_eq, Propagator.reads, Propagator.reads, List.length_map, List.length_map]
  · obtain ⟨w, hw, rfl⟩ := Propagator.exists_of_reads hi'
    have hcar := hpost.carried w (List.mem_of_getElem? hw)
    rw [hcar.read_eq hin hal, View.putBack_entry hlt]
    by_cases hd : v.domain = w.domain
    · obtain rfl := index_eq hown hpost hv hw hd
      obtain rfl := Option.some.inj (hv.symm.trans hw)
      obtain rfl := Option.some.inj (hi.symm.trans hj)
      rw [if_pos rfl]
      dsimp only
      omega
    · have hbounds := h.bounds (Propagator.reads_getElem? hw b) hj
      rw [hcar.read_eq hb ha] at hbounds
      rw [if_neg hd]
      exact hbounds

end PutBack

section Again

variable (hpost : n.Posts q) (hb : s.box.Inside n.initial) (ha : s.box.Alive)
  (hr : q.constraint.propagate (q.reads s.box) q.parameters = .ok r)
include hpost hb ha hr

/-- If every variable has a shared domain of its own, the box is left with exactly what
the run answered: with an answer put back, it would survive the run as well. -/
theorem Succeeds.reads_eq (h : Succeeds n q id s o r) (hown : q.selfAliasing = false) :
    q.reads o.state.box = r.bounds := by
  have hin := h.narrows.inside.trans hb
  obtain ⟨hshr, hfill⟩ := (q.constraint.contract q.parameters).shrinks (hpost.posed hb ha) hr
    h.accepts
  refine h.within.antisymm (within_iff_getElem?.2 ⟨h.within.length_eq.symm, fun {k j i} hj hi => ?_⟩)
  obtain ⟨v, hv, rfl⟩ := Propagator.exists_of_reads hi
  have hcar := hpost.carried v (List.mem_of_getElem? hv)
  have hold := hshr.bounds hj (Propagator.reads_getElem? hv s.box)
  rw [hcar.read_eq hb ha] at hold
  have hlt : v.domain.index < o.state.box.size := by
    rw [hin.size_eq]
    exact hcar.has
  have hcs := View.putBack_inside hlt h.narrows.inside hold.1 hold.2
  have hca := View.putBack_alive hlt h.alive (hfill j (List.mem_of_getElem? hj))
  have hw := Propagator.putBack_within hown hpost hin h.alive (hcs.trans hb) hca hv hj h.within
  have hfin := (h.covers _ hcs hca hw).bounds v.domain
  rw [View.putBack_entry hlt, if_pos rfl] at hfin
  rw [hcar.read_eq hin h.alive]
  dsimp only at hfin ⊢
  omega

/-- **The propagator itself is stable after a run**, or triggered if variables of it share
a shared domain. -/
theorem Succeeds.stableOn (hn : n.WellFormed) (hq : n.propagators.get? id = some q)
    (he : s.entailed.entry id = false) (h : Succeeds n q id s o r) :
    q.StableOn o.state.box ∨ id ∈ o.state.triggered := by
  have hcon := q.constraint.contract q.parameters
  have hposed := hpost.posed hb ha
  have hst := hcon.settles hposed hr h.accepts
  have hin := h.narrows.inside.trans hb
  by_cases hent : r.status = .entailed
  · exact .inl ((h.settledOn hpost hb ha hr hent).stableOn h.alive)
  · cases hown : q.selfAliasing with
    | false =>
      left
      rw [Propagator.StableOn, h.reads_eq hpost hb ha hr hown]
      exact hst
    | true =>
      by_cases hid : id ∈ o.state.triggered
      · exact .inr hid
      left
      obtain ⟨hshr, hfill⟩ := hcon.shrinks hposed hr h.accepts
      refine Constraint.stable_of_quiet (hposed.of_within hshr hfill) hst h.within
        (Propagator.reads_filled h.alive q) fun {k t i j x} ht hi hj hx => ?_
      -- A bound that moved would have triggered the propagator.
      obtain ⟨v, hv, rfl⟩ := Propagator.exists_of_reads hj
      have hcar := hpost.carried v (List.mem_of_getElem? hv)
      have htr : q.triggers[k]? = some t := by
        rw [hpost.eq_post]
        rwa [hshr.length_eq, Propagator.reads, List.length_map] at ht
      have hsub := hn.subscribed hq
        (List.mem_of_getElem? (List.getElem?_zip_eq_some.2 ⟨hv, htr⟩)) hx
      have hsame : (o.state.box.entry v.domain).get x = (s.box.entry v.domain).get x := by
        by_contra hne
        refine hid (h.narrows.wakes hne (List.mem_filter.2 ⟨hsub, by rw [hown]; rfl⟩) ?_)
        show (flagged s id r.status).entry id = false
        rw [flagged, if_neg hent]
        exact he
      have hlow := h.within.bounds hj hi
      have hhigh := hshr.bounds hi (Propagator.reads_getElem? hv s.box)
      have hread : (v.read o.state.box).get x = (v.read s.box).get x := by
        rw [hcar.read_get hin h.alive, hcar.read_get hb ha, hsame]
      cases x
      · simp only [Interval.get] at hread ⊢
        omega
      · simp only [Interval.get] at hread ⊢
        omega

end Again

/-- **A successful run leaves every propagator attended** if all others were before. -/
theorem run_attends (hn : n.WellFormed) (hs : s.Coherent n) (ha : s.box.Alive)
    (he : s.entailed.entry id = false) (hothers : ∀ x, x ≠ id → s.Attends n x)
    (h : run n s id = .ok o) (hk : o.kept = true) :
    o.state.box.Alive ∧ ∀ x, o.state.Attends n x := by
  obtain ⟨q, r, hq, hr, hfail | hsucc⟩ := run_cases hn hs.inside ha hs.faithful h
  · rw [hfail.kept] at hk
    cases hk
  · refine ⟨hsucc.alive, fun x p hp => ?_⟩
    by_cases hx : x = id
    · subst hx
      obtain rfl := Option.some.inj (hq.symm.trans hp)
      exact hsucc.stableOn (hn.posted q (Keyed.mem_of_get? hq)) hs.inside ha hr hn hq he
    · rcases hothers x hx hp with hst | hmem
      · refine attends_of_wakes hn (run_coherent hn hs ha h) hsucc.alive hs.inside ha
          hsucc.narrows.inside hp hst fun {d y} hne hsub hflag => ?_
        rw [hsucc.entailed] at hflag
        refine hsucc.narrows.wakes hne (List.mem_filter.2 ⟨hsub, ?_⟩) hflag
        rw [decide_eq_true hx, Bool.or_true]
      · exact .inr (hsucc.narrows.keeps hmem)

end BoundsSolver
