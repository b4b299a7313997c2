/-
# The greatest stable box

Propagation that starts with every propagator triggered and none entailed completes.
It ends with the greatest stable box within the current one, and fails if and only if
there is no stable box (`propagate_greatest`).  This says nothing about the order of the
runs, and indeed the numbers of the propagators, which are what that order goes by, have
no influence on it.
-/

import BoundsSolver.Proofs.Propagation.Grounded

namespace BoundsSolver

/-- The greatest box within `b` that has a value for every shared domain and is stable
for every propagator. -/
structure Network.GreatestStable (n : Network) (b g : Box) : Prop where
  inside : g.Inside b
  alive : g.Alive
  stable : n.StableOn g
  greatest : ∀ c : Box, c.Inside b → c.Alive → n.StableOn c → c.Inside g

/-- A state at the current box of the problem in which no propagator is flagged as
entailed. -/
structure State.Starts (s : State) (p : Problem) : Prop where
  box : s.box = p.current
  entailed : s.entailed = .ofList (List.replicate p.numPropagators false)
  faithful : s.triggered.Faithful

/-- The state in which a search begins. -/
def State.start (p : Problem) (log : Log) : State :=
  { box := p.current
    entailed := .ofList (List.replicate p.numPropagators false)
    triggered := .ofSize p.numPropagators
    statistics := .zero
    log }

theorem State.start_starts (p : Problem) (log : Log) : (start p log).Starts p :=
  ⟨rfl, rfl, Triggered.faithful_ofSize _⟩

theorem State.start_grounded (p : Problem) (log : Log) : (start p log).Grounded p.network :=
  fun _ hid => absurd hid List.not_mem_nil

variable {p : Problem} {n m : Network} {s t : State} {b c g : Box} {kept : Bool}

theorem Network.GreatestStable.unique (h : n.GreatestStable b g) (h' : n.GreatestStable b c) :
    g = c :=
  (h'.greatest g h.inside h.alive h.stable).antisymm (h.greatest c h'.inside h'.alive h'.stable)

/-- Being stable for every propagator does not depend on how they are numbered. -/
theorem Network.stableOn_perm (h : m.propagators.toList.Perm n.propagators.toList) :
    m.StableOn b ↔ n.StableOn b :=
  ⟨fun hs q hq => hs q (h.mem_iff.2 hq), fun hs q hq => hs q (h.mem_iff.1 hq)⟩

theorem Network.GreatestStable.perm (h : n.GreatestStable b g)
    (hperm : m.propagators.toList.Perm n.propagators.toList) : m.GreatestStable b g where
  inside := h.inside
  alive := h.alive
  stable := (stableOn_perm hperm).2 h.stable
  greatest c hc hca hs := h.greatest c hc hca ((stableOn_perm hperm).1 hs)

/-- A stable box is spared by every propagator. -/
theorem Network.WellFormed.spares_of_stableOn (hn : n.WellFormed) (ha : c.Alive)
    (hs : n.StableOn c) : n.Spares c :=
  fun q hq => (hn.posted q hq).spares_of_stableOn ha (hs q hq)

theorem entry_replicate {k : Nat} (id : PropagatorId) :
    (Keyed.ofList (List.replicate k false) : Keyed PropagatorId Bool).entry id = false := by
  show ((List.replicate k false).toArray).getD id.index false = false
  rw [Array.getD_eq_getD_getElem?, List.getElem?_toArray, List.getElem?_replicate]
  split <;> rfl

namespace State.Starts

theorem coherent (h : s.Starts p) (hp : p.Sound) : s.Coherent p.network where
  inside := h.box ▸ hp.inside
  faithful := h.faithful
  flags := by
    rw [h.entailed]
    exact List.length_replicate
  settled _ he := by
    rw [h.entailed, entry_replicate] at he
    cases he

theorem primed (h : s.Starts p) (hp : p.Sound) (ha : p.current.Alive) :
    (s.triggerAll p.network.propagators.keys).Primed p.network :=
  (h.coherent hp).primed_of_keys (h.box ▸ ha)

/-- Propagation succeeds if and only if there is a stable box, and then it finds the
greatest. -/
theorem greatest (h : s.Starts p) (hp : p.Sound) (ha : p.current.Alive)
    (ht : propagate p.network (s.triggerAll p.network.propagators.keys) = .ok (kept, t)) :
    (kept = true ↔ ∃ c : Box, c.Inside p.current ∧ c.Alive ∧ p.network.StableOn c) ∧
      (kept = true → p.network.GreatestStable p.current t.box) := by
  have hf := propagate_spec hp.network (h.primed hp ha) ht
  have hbox : (s.triggerAll p.network.propagators.keys).box = p.current := h.box
  have hin : t.box.Inside p.current := hbox ▸ hf.inside
  have hgreatest (c : Box) (hc : c.Inside p.current) (hca : c.Alive)
      (hs : p.network.StableOn c) : kept = true ∧ c.Inside t.box :=
    hf.spares c (hbox ▸ hc) hca (hp.network.spares_of_stableOn hca hs)
  refine ⟨⟨fun hk => ⟨t.box, hin, hf.alive hk, hf.stable hk⟩, ?_⟩, fun hk => ?_⟩
  · rintro ⟨c, hc, hca, hs⟩
    exact (hgreatest c hc hca hs).1
  · exact ⟨hin, hf.alive hk, hf.stable hk, fun c hc hca hs => (hgreatest c hc hca hs).2⟩

end State.Starts

/-- **Propagation finds the greatest stable box.**  If only propagators that exist are
triggered besides, it comes to an end without a fault other than one of arithmetic.  It
succeeds if and only if a stable box with a value for every shared domain lies within the
current one; what it leaves is then the greatest such box.  A problem with the same
propagators in another order comes to the same verdict and, if that is success, to the
same box. -/
theorem propagate_greatest (hp : Built p) (hne : p.current.anyEmpty = false) (hs : s.Starts p) :
    (s.Grounded p.network →
      Completes (propagate p.network (s.triggerAll p.network.propagators.keys))) ∧
    ∀ {kept : Bool} {t : State},
      propagate p.network (s.triggerAll p.network.propagators.keys) = .ok (kept, t) →
      (kept = true ↔ ∃ c : Box, c.Inside p.current ∧ c.Alive ∧ p.network.StableOn c) ∧
      (kept = true → p.network.GreatestStable p.current t.box) ∧
      ∀ {p' : Problem} {s' t' : State} {kept' : Bool}, Built p' → p'.current = p.current →
        p'.network.propagators.toList.Perm p.network.propagators.toList → s'.Starts p' →
        propagate p'.network (s'.triggerAll p'.network.propagators.keys) = .ok (kept', t') →
          kept' = kept ∧ (kept = true → t'.box = t.box) := by
  have ha := Box.anyEmpty_eq_false_iff.1 hne
  refine ⟨fun hg => ?_, fun {kept t} ht => ?_⟩
  · exact propagate_completes hp.sound.network hp.grounded (hs.primed hp.sound ha) hg.keys
  obtain ⟨hiff, hgreatest⟩ := hs.greatest hp.sound ha ht
  refine ⟨hiff, hgreatest, fun {p' s' t' kept'} hp' hcur hperm hs' ht' => ?_⟩
  obtain ⟨hiff', hgreatest'⟩ := hs'.greatest hp'.sound (hcur ▸ ha) ht'
  have hkept : kept' = true ↔ kept = true := by
    rw [hiff, hiff', hcur]
    simp only [Network.stableOn_perm hperm]
  refine ⟨Bool.eq_iff_iff.2 hkept, fun hk => ?_⟩
  have h' := hgreatest' (hkept.2 hk)
  rw [hcur] at h'
  exact h'.unique ((hgreatest hk).perm hperm)

/-- In `Problem.either` propagation finds that the third variable is not negative. -/
theorem propagate_either : ∃ t, propagate Problem.either.network
    ((State.start .either .off).triggerAll Problem.either.network.propagators.keys) =
      .ok (true, t) ∧ t.box.toList = [⟨0, 2⟩, ⟨0, 1⟩, ⟨0, 1⟩] := by
  decide +kernel

theorem propagate_greatest_either :
    let s := State.start .either .off
    Completes (propagate Problem.either.network
      (s.triggerAll Problem.either.network.propagators.keys)) ∧
    ∃ t, propagate Problem.either.network
      (s.triggerAll Problem.either.network.propagators.keys) = .ok (true, t) ∧
        Problem.either.network.GreatestStable Problem.either.current t.box ∧
          t.box.toList = [⟨0, 2⟩, ⟨0, 1⟩, ⟨0, 1⟩] := by
  intro s
  obtain ⟨hcompletes, hall⟩ :=
    propagate_greatest .either (by decide +kernel) (State.start_starts .either .off)
  obtain ⟨t, ht, hbox⟩ := propagate_either
  obtain ⟨-, hgreatest, -⟩ := hall ht
  exact ⟨hcompletes (State.start_grounded .either .off), t, ht, hgreatest rfl, hbox⟩

end BoundsSolver
