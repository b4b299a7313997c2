/-
# Filtering goes by the box

Propagation that succeeds leaves the largest stable box within the one that it started from.
So from a primed state the box alone decides whether it succeeds and what it leaves
(`propagate_concurs`): which propagators are triggered besides, which are flagged and in which
order they run does not matter.  The same holds of a trial and of the removal of a value, and
with them of either consistency (`filter_concurs`).

Only the faults are left out: a propagator that need not have run may stop with one.
-/

import BoundsSolver.Proofs.Propagation.Fixpoint
import BoundsSolver.Proofs.Search.Agreement

namespace BoundsSolver

/-- If both computations come to answers, then these are related. -/
def Concurs {α β : Type} (R : α → β → Prop) (x : Checked α) (y : Checked β) : Prop :=
  ∀ ⦃a : α⦄ ⦃b : β⦄, x = .ok a → y = .ok b → R a b

/-- Both states are at rest, with the same box. -/
structure State.Level (n : Network) (s t : State) : Prop where
  left : s.Resting n
  right : t.Resting n
  box : s.box = t.box

/-- The verdicts are the same, and if they are good so are the boxes. -/
def SameVerdict (n : Network) (x y : Bool × State) : Prop :=
  x.1 = y.1 ∧ (x.1 = true → x.2.Level n y.2)

/-- The verdicts are the same, and if they are good so are the boxes and whether something was
removed. -/
def SameOutcome (n : Network) (o p : Outcome) : Prop :=
  o.kept = p.kept ∧ (o.kept = true → o.changed = p.changed ∧ o.state.Level n p.state)

namespace Concurs

variable {α β γ δ : Type} {R : α → β → Prop} {S : γ → δ → Prop} {x : Checked α} {y : Checked β}
  {f : α → Checked γ} {g : β → Checked δ} {a : α} {b : β}

theorem answer (h : R a b) : Concurs R (.ok a) (.ok b) := by
  intro a' b' ha hb
  obtain rfl := Except.ok.inj ha
  obtain rfl := Except.ok.inj hb
  exact h

theorem bind_of (h : Concurs R x y)
    (hf : ∀ {a b}, x = .ok a → y = .ok b → R a b → Concurs S (f a) (g b)) :
    Concurs S (x >>= f) (y >>= g) := by
  intro c d hc hd
  obtain ⟨a, ha, hc⟩ := bind_eq_ok.1 hc
  obtain ⟨b, hb, hd⟩ := bind_eq_ok.1 hd
  exact hf ha hb (h ha hb) hc hd

theorem bind_same {x : Checked α} {f : α → Checked γ} {g : α → Checked δ}
    (hf : ∀ a, x = .ok a → Concurs S (f a) (g a)) : Concurs S (x >>= f) (x >>= g) := by
  intro c d hc hd
  obtain ⟨a, ha, hc⟩ := bind_eq_ok.1 hc
  obtain ⟨b, hb, hd⟩ := bind_eq_ok.1 hd
  obtain rfl := Except.ok.inj (ha.symm.trans hb)
  exact hf a ha hc hd

end Concurs

variable {n : Network} {s t u v : State} {kept kept' shaved : Bool} {br : Branch} {d : DomainId}
  {x : Bound} {c : Consistency} {ends : List (DomainId × Bound)}

namespace State.Level

theorem count (h : s.Level n t) (f : Statistics → Statistics) : (s.count f).Level n (t.count f) :=
  ⟨h.left.count f, h.right.count f, h.box⟩

theorem tell (h : s.Level n t) (e : Event) : (s.tell e).Level n (t.tell e) :=
  ⟨h.left.tell e, h.right.tell e, h.box⟩

end State.Level

/-! ### Propagation -/

/-- What propagation leaves survives propagation of the same box in another state. -/
theorem Propagated.survives (h : Propagated n s u true) (h' : Propagated n t v kept)
    (hn : n.WellFormed) (hbox : s.box = t.box) : kept = true ∧ u.box.Inside v.box :=
  h'.spares u.box (hbox ▸ h.inside) (h.alive rfl)
    (hn.spares_of_stableOn (h.alive rfl) (h.stable rfl))

/-- **Propagation goes by the box.** -/
theorem propagate_concurs (hn : n.WellFormed) (hs : s.Primed n) (ht : t.Primed n)
    (hbox : s.box = t.box) : Concurs (SameVerdict n) (propagate n s) (propagate n t) := by
  rintro ⟨kept, u⟩ ⟨kept', v⟩ hu hv
  have hleft := propagate_spec hn hs hu
  have hright := propagate_spec hn ht hv
  cases kept with
  | true =>
    obtain ⟨rfl, hin⟩ := hleft.survives hright hn hbox
    obtain ⟨-, hin'⟩ := hright.survives hleft hn hbox.symm
    exact ⟨rfl, fun _ => ⟨(hleft.filtered hn hs.coherent.inside).rests rfl,
      (hright.filtered hn ht.coherent.inside).rests rfl, hin.antisymm hin'⟩⟩
  | false =>
    cases kept' with
    | true =>
      obtain ⟨hk, -⟩ := hright.survives hleft hn hbox.symm
      cases hk
    | false => exact ⟨rfl, Bool.noConfusion⟩

theorem narrow_concurs (hn : n.WellFormed) (h : s.Level n t) (ha : Box.Alive (s.box.tighten br)) :
    Concurs (SameVerdict n) (propagate n (s.narrow n br)) (propagate n (t.narrow n br)) := by
  have hbox : s.box.tighten br = t.box.tighten br := congrArg (Box.tighten · br) h.box
  exact propagate_concurs hn (h.left.primed.narrow br hn ha)
    (h.right.primed.narrow br hn (hbox ▸ ha)) hbox

/-! ### Shaving -/

theorem trial_concurs (hn : n.WellFormed) (h : s.Level n t)
    (ha : Box.Alive (s.box.tighten br)) :
    Concurs (fun x y => x.1 = y.1 ∧ x.2.Level n y.2) (trial n s br) (trial n t br) := by
  rintro ⟨supported, u⟩ ⟨supported', v⟩ hu hv
  have ha' : Box.Alive (t.box.tighten br) := h.box ▸ ha
  obtain ⟨hleft, hbox, -⟩ := trial_spec hn h.left ha hu
  obtain ⟨hright, hbox', -⟩ := trial_spec hn h.right ha' hv
  refine ⟨?_, hleft, hright, hbox.trans (h.box.trans hbox'.symm)⟩
  obtain ⟨⟨_, w⟩, hw, hu⟩ := bind_eq_ok.1 hu
  obtain ⟨⟨_, w'⟩, hw', hv⟩ := bind_eq_ok.1 hv
  obtain ⟨rfl, -⟩ := Prod.mk.inj (Except.ok.inj hu)
  obtain ⟨rfl, -⟩ := Prod.mk.inj (Except.ok.inj hv)
  exact (narrow_concurs hn h ha hw hw').1

theorem shaveValue_concurs (hn : n.WellFormed) (h : s.Level n t)
    (hlt : (s.box.entry d).min < (s.box.entry d).max) :
    Concurs (SameVerdict n) (shaveValue n s d x ((s.box.entry d).get x))
      (shaveValue n t d x ((s.box.entry d).get x)) := by
  refine .bind_same fun next hnext => ?_
  exact narrow_concurs hn ((h.tell _).count _) (tighten_next_alive h.left.alive hlt hnext)

theorem shaveBound_concurs (hn : n.WellFormed) (h : s.Level n t) :
    Concurs (SameOutcome n) (shaveBound n s d x shaved) (shaveBound n t d x shaved) := by
  induction hk : s.box.totalSize using Nat.strongRecOn generalizing s t shaved with
  | ind k ih =>
    subst hk
    have htried : s.tried.Level n t.tried := h.count _
    rw [shaveBound_eq n s, shaveBound_eq n t, ← h.box]
    split
    · exact .answer ⟨rfl, fun _ => ⟨rfl, h⟩⟩
    · rename_i hseveral
      refine (trial_concurs hn htried (tighten_opposite_alive h.left.alive)).bind_of
        fun {o o'} ho _ hoo => ?_
      obtain ⟨supported, u⟩ := o
      obtain ⟨supported', v⟩ := o'
      obtain ⟨rfl, huv⟩ : supported = supported' ∧ u.Level n v := hoo
      have hbox : u.box = s.box := (trial_box ho).trans rfl
      cases supported with
      | true => exact .answer ⟨rfl, fun _ => ⟨rfl, huv⟩⟩
      | false =>
        rw [← hbox] at hseveral ⊢
        refine (shaveValue_concurs hn huv (Int.not_le.1 hseveral)).bind_of
          fun {w w'} hw _ hww => ?_
        obtain ⟨kept, w⟩ := w
        obtain ⟨kept', w'⟩ := w'
        obtain ⟨rfl, hlevel⟩ : kept = kept' ∧ (kept = true → w.Level n w') := hww
        cases kept with
        | false => exact .answer ⟨rfl, Bool.noConfusion⟩
        | true =>
          refine ih _ ?_ (hlevel rfl) rfl
          exact hbox ▸ shaveValue_totalSize (Int.not_le.1 hseveral) hw

theorem shavePass_concurs (hn : n.WellFormed) (h : s.Level n t) :
    Concurs (SameOutcome n) (shavePass n ends s shaved) (shavePass n ends t shaved) := by
  induction ends generalizing s t shaved with
  | nil => exact .answer ⟨rfl, fun _ => ⟨rfl, h⟩⟩
  | cons e ends ih =>
    refine (shaveBound_concurs hn h).bind_of fun {o o'} _ _ hoo => ?_
    obtain ⟨hkept, hlevel⟩ := hoo
    rw [← hkept]
    split
    · rename_i hk
      obtain ⟨hchanged, hlevel⟩ := hlevel hk
      rw [← hchanged]
      exact ih hlevel
    · rename_i hk
      exact .answer ⟨hkept, fun hk' => absurd hk' hk⟩

theorem shave_concurs (hn : n.WellFormed) (h : s.Level n t) :
    Concurs (SameVerdict n) (shave n s) (shave n t) := by
  induction hk : s.box.totalSize using Nat.strongRecOn generalizing s t with
  | ind k ih =>
    subst hk
    rw [shave_eq n s, shave_eq n t, ← h.box]
    refine (shavePass_concurs hn h).bind_of fun {o o'} ho _ hoo => ?_
    obtain ⟨hkept, hlevel⟩ := hoo
    rw [← hkept]
    cases hk : o.kept with
    | false => exact .answer ⟨rfl, Bool.noConfusion⟩
    | true =>
      obtain ⟨hchanged, hlevel⟩ := hlevel hk
      rw [← hchanged]
      cases hc : o.changed with
      | false => exact .answer ⟨rfl, fun _ => hlevel⟩
      | true =>
        refine ih _ ?_ hlevel rfl
        refine (shavePass_totalSize ho hk).resolve_right fun hsame => ?_
        rw [hc] at hsame
        cases hsame.2

/-- **Filtering goes by the box**, under either consistency. -/
theorem filter_concurs (hn : n.WellFormed) (hs : s.Primed n) (ht : t.Primed n)
    (hbox : s.box = t.box) :
    Concurs (SameVerdict n) (Solver.filter n c s) (Solver.filter n c t) := by
  rw [filter_eq, filter_eq]
  refine (propagate_concurs hn hs ht hbox).bind_of fun {o o'} _ _ hoo => ?_
  obtain ⟨kept, u⟩ := o
  obtain ⟨kept', v⟩ := o'
  obtain ⟨rfl, hlevel⟩ : kept = kept' ∧ (kept = true → u.Level n v) := hoo
  dsimp only
  split
  · rename_i hshaving
    exact shave_concurs hn (hlevel (Bool.and_eq_true_iff.1 hshaving).1)
  · exact .answer ⟨rfl, hlevel⟩

end BoundsSolver
