/-
# Propagation completes

What is triggered has to exist: a network is `Grounded` if the subscribers of its bounds are
propagators of the network, and a state if what is triggered in it is.  A network that was built
is grounded (`Built.grounded`), and whatever a run triggers in one exists.

From a primed and grounded state propagation then completes (`propagate_completes`): the
propagator that is taken out of the queue exists, it sees the intervals of a posted constraint,
and the shared domains that it narrows exist.
-/

import BoundsSolver.Proofs.Constraint.Completes
import BoundsSolver.Proofs.Network.Built
import BoundsSolver.Proofs.Propagation.Settle

namespace BoundsSolver

/-- The subscribers of every bound exist. -/
def Network.Grounded (n : Network) : Prop := ∀ {d : DomainId} {x : Bound} {id : PropagatorId},
  id ∈ n.subscribersOf d x → id.index < n.propagators.size

/-- What is triggered exists. -/
def State.Grounded (n : Network) (s : State) : Prop :=
  ∀ id : PropagatorId, id ∈ s.triggered → id.index < n.propagators.size

variable {n : Network} {p q : Problem} {s t : State} {o : Outcome} {id x : PropagatorId}
  {self : PropagatorId} {again kept changed : Bool} {pos : Position} {ps : List Position}
  {ids : List PropagatorId} {rest v w : Triggered} {b : Box}

/-! ### Networks -/

/-- **The subscribers in a network that was built exist.** -/
theorem Built.grounded (h : Built p) : p.network.Grounded := by
  induction h with
  | empty =>
    intro d x id hid
    cases hid
  | @addVariable p i _ _ ih =>
    intro d x id hid
    refine ih (d := d) (x := x) ?_
    show id ∈ listed p.network.subscribers d x
    have hid : id ∈ listed (p.network.subscribers.push ⟨[], []⟩).2 d x := hid
    rw [listed, Keyed.get?_push] at hid
    split at hid
    · cases x <;> cases hid
    · exact hid
  | @addOffsetVariable p q d offset x _ hq ih =>
    unfold Problem.addOffsetVariable at hq
    split at hq
    · cases hq
    · split at hq
      · obtain ⟨-, rfl⟩ := Prod.mk.inj (Except.ok.inj hq)
        exact ih
      · cases hq
  | @addPropagator p q xs c parameters id _ hq ih =>
    obtain ⟨views, -, -, rfl, rfl⟩ := addPropagator_eq_ok hq
    intro d x id' hid
    rw [Keyed.size_push]
    rcases mem_listed_subscribeAll.1 hid with ⟨rfl, -⟩ | hold
    · exact Nat.lt_succ_self _
    · exact Nat.lt_succ_of_lt (ih hold)
  | @restrictInitial p q x min max _ hq ih =>
    unfold Problem.restrictInitial at hq
    split at hq
    · cases hq
    · dsimp only at hq
      split at hq
      · cases hq
      · obtain rfl := Except.ok.inj hq
        exact ih
  | @setBound p q x b value changed _ hq ih =>
    obtain ⟨v, -, hq⟩ := bind_eq_ok.1 hq
    obtain ⟨-, rfl⟩ := Prod.mk.inj (Except.ok.inj hq)
    exact ih
  | reset _ ih => exact ih

/-! ### Triggering -/

namespace Triggered

theorem of_mem_insert (h : x ∈ v.insert id) : x = id ∨ x ∈ v := by
  unfold insert at h
  dsimp only at h
  split at h
  · exact .inr h
  · rw [mem_def, (Heap.toList_insert v.queue id.index).mem_iff, List.mem_cons] at h
    exact h.imp_left fun hx => congrArg PropagatorId.mk hx

theorem of_mem_foldl_insert (h : x ∈ ids.foldl insert v) : x ∈ ids ∨ x ∈ v := by
  induction ids generalizing v with
  | nil => exact .inr h
  | cons id ids ih =>
    rcases ih h with hx | hx
    · exact .inl (.tail _ hx)
    · rcases of_mem_insert hx with rfl | hx
      · exact .inl (.head _)
      · exact .inr hx

theorem mem_of_pop? (h : v.pop? = some (id, w)) : id ∈ v ∧ ∀ x, x ∈ w → x ∈ v := by
  have hperm := Heap.toList_of_pop? (queue_of_pop? h).1
  exact ⟨hperm.mem_iff.2 (.head _), fun x hx => hperm.mem_iff.2 (.tail _ hx)⟩

end Triggered

namespace State.Grounded

theorem triggerAll (h : s.Grounded n) (hids : ∀ id ∈ ids, id.index < n.propagators.size) :
    (s.triggerAll ids).Grounded n := by
  intro x hx
  rcases Triggered.of_mem_foldl_insert hx with hx | hx
  · exact hids x (List.mem_filter.1 hx).1
  · exact h x hx

theorem keys (h : s.Grounded n) : (s.triggerAll n.propagators.keys).Grounded n := by
  refine h.triggerAll fun id hid => ?_
  obtain ⟨i, hi, rfl⟩ := List.mem_map.1 hid
  exact List.mem_range.1 hi

theorem wake (h : s.Grounded n) (hg : n.Grounded) (d : DomainId) (x : Bound) :
    (s.wake n d x).Grounded n := h.triggerAll fun _ hid => hg hid

theorem narrow (h : s.Grounded n) (hg : n.Grounded) (br : Branch) : (s.narrow n br).Grounded n :=
  wake (s := { s with box := s.box.tighten br }) h hg br.domain br.bound

theorem awaken {c : Prop} {_ : Decidable c} {d : DomainId} {x : Bound} (h : s.Grounded n)
    (hg : n.Grounded) :
    (if c then s.triggerAll (awakened n self again d x) else s).Grounded n := by
  split
  · exact h.triggerAll fun _ hid => hg (List.mem_filter.1 hid).1
  · exact h

theorem pop (h : s.Grounded n) (hp : s.triggered.pop? = some (id, rest)) :
    id.index < n.propagators.size ∧ ({ s with triggered := rest } : State).Grounded n := by
  obtain ⟨hid, hrest⟩ := Triggered.mem_of_pop? hp
  exact ⟨h id hid, fun x hx => h x (hrest x hx)⟩

end State.Grounded

/-! ### What a run triggers -/

theorem cut_grounded (hg : n.Grounded) (hs : s.Grounded n) (h : cut n self again pos s = .ok o) :
    o.state.Grounded n := by
  obtain ⟨back, -, h⟩ := bind_eq_ok.1 h
  obtain ⟨old, -, h⟩ := bind_eq_ok.1 h
  dsimp only at h
  split at h
  · obtain rfl := Except.ok.inj h
    exact hs
  · obtain rfl := Except.ok.inj h
    exact .awaken (.awaken (s := { s with box := _ }) hs hg) hg

theorem writeBack_grounded (hg : n.Grounded) (hs : s.Grounded n)
    (h : writeBack n self again ps s changed = .ok o) : o.state.Grounded n := by
  induction ps generalizing s changed with
  | nil =>
    obtain rfl := Except.ok.inj h
    exact hs
  | cons pos ps ih =>
    unfold writeBack at h
    split at h
    · exact ih hs h
    · split at h
      · obtain rfl := Except.ok.inj h
        exact hs
      · obtain ⟨o', ho', h⟩ := bind_eq_ok.1 h
        have hcut := cut_grounded hg hs ho'
        split at h
        · exact ih hcut h
        · obtain rfl := Except.ok.inj h
          exact hcut

theorem run_grounded (hg : n.Grounded) (hs : s.Grounded n) (h : run n s id = .ok o) :
    o.state.Grounded n := by
  obtain ⟨q, -, h⟩ := bind_eq_ok.1 h
  obtain ⟨r, -, h⟩ := bind_eq_ok.1 h
  dsimp only at h
  split at h
  · obtain rfl := Except.ok.inj h
    exact hs
  · obtain ⟨o', ho', h⟩ := bind_eq_ok.1 h
    have hback : o'.state.Grounded n := by
      refine writeBack_grounded hg ?_ ho'
      split <;> exact hs
    split at h <;>
    · obtain rfl := Except.ok.inj h
      exact hback

/-- After propagation nothing is triggered. -/
theorem settle_grounded (h : settle n s = .ok (kept, t)) : t.Grounded n := by
  fun_induction settle n s with
  | case1 s hp =>
    obtain ⟨-, rfl⟩ := Prod.mk.inj (Except.ok.inj h)
    exact fun id hid => absurd hid (Triggered.not_mem_of_pop? hp)
  | case2 _ _ _ _ _ ih => exact ih h
  | case3 => cases h
  | case4 _ _ _ _ _ _ _ _ ih => exact ih h
  | case5 =>
    obtain ⟨-, rfl⟩ := Prod.mk.inj (Except.ok.inj h)
    exact fun id hid => absurd hid Triggered.not_mem_clear

theorem propagate_grounded (h : propagate n s = .ok (kept, t)) : t.Grounded n := settle_grounded h

/-! ### Propagation -/

theorem cut_size (h : cut n self again pos s = .ok o) : o.state.box.size = s.box.size := by
  obtain ⟨back, -, h⟩ := bind_eq_ok.1 h
  obtain ⟨old, -, h⟩ := bind_eq_ok.1 h
  dsimp only at h
  split at h
  · obtain rfl := Except.ok.inj h
    exact Keyed.size_set ..
  · obtain rfl := Except.ok.inj h
    dsimp only
    split <;> split <;> exact Keyed.size_set ..

theorem Box.get_completes {d : DomainId} (h : d.index < b.size) : Completes (b.get d) := by
  rw [Keyed.get_eq_ok.2 (Box.get?_eq_of_lt h)]
  exact .ok _

theorem cut_completes (h : pos.view.domain.index < s.box.size) :
    Completes (cut n self again pos s) := by
  refine (Width.value.neg_completes _).bind fun back _ => ?_
  refine (Box.get_completes h).bind fun old _ => ?_
  dsimp only
  split <;> exact .ok _

theorem writeBack_completes (h : ∀ pos ∈ ps, pos.view.domain.index < s.box.size) :
    Completes (writeBack n self again ps s changed) := by
  induction ps generalizing s changed with
  | nil => exact .ok _
  | cons pos ps ih =>
    obtain ⟨hpos, hps⟩ := List.forall_mem_cons.1 h
    unfold writeBack
    split
    · exact ih hps
    · split
      · exact .ok _
      · refine (cut_completes hpos).bind fun o ho => ?_
        split
        · exact ih (cut_size ho ▸ hps)
        · exact .ok _

/-- **A run of a propagator that exists completes.** -/
theorem run_completes (hn : n.WellFormed) (hb : s.box.Inside n.initial) (ha : s.box.Alive)
    (hid : id.index < n.propagators.size) : Completes (run n s id) := by
  obtain ⟨q, hq⟩ := Option.isSome_iff_exists.1
    ((Keyed.get?_isSome n.propagators id).trans (decide_eq_true hid))
  have hpost := hn.posted q (Keyed.mem_of_get? hq)
  unfold run
  rw [bind_of_ok (Keyed.get_eq_ok.2 hq)]
  refine (Constraint.propagate_completes (hpost.posed hb ha)).bind fun r hr => ?_
  dsimp only
  split
  · exact .ok _
  · refine (writeBack_completes fun pos hpos => ?_).bind fun o _ => ?_
    · obtain ⟨k, hv, -, -⟩ := mem_positions.1 hpos
      have hlt := (hpost.carried _ (List.mem_of_getElem? hv)).has
      rw [← hb.size_eq] at hlt
      split <;> exact hlt
    · split <;> exact .ok _

theorem settle_completes (hn : n.WellFormed) (hg : n.Grounded) (hs : s.Primed n)
    (ht : s.Grounded n) : Completes (settle n s) := by
  fun_induction settle n s with
  | case1 => exact .ok _
  | case2 s id rest hp he ih => exact ih (hs.skip hp he) (ht.pop hp).2
  | case3 s id rest hp he f hr =>
    exact .error (run_completes (s := { s with triggered := rest }) hn hs.coherent.inside hs.alive
      (ht.pop hp).1 f hr)
  | case4 s id rest hp he changed u hr ih =>
    exact ih (hs.run hn hp (Bool.eq_false_iff.2 he) hr rfl) (run_grounded hg (ht.pop hp).2 hr)
  | case5 => exact .ok _

/-- **Propagation completes.** -/
theorem propagate_completes (hn : n.WellFormed) (hg : n.Grounded) (hs : s.Primed n)
    (ht : s.Grounded n) : Completes (propagate n s) :=
  settle_completes hn hg (hs.count _) ht

end BoundsSolver
