/-
# The order of posting

Whether a constraint can be posted, and which propagator it makes, depends on the
variables and the initial box alone (`Problem.posted`), which posting does not touch.
Hence constraints that can be posted in one order can be posted in any other, and
make the same propagators under other numbers (`post_perm`).
-/

import BoundsSolver.Proofs.Network.Built

namespace BoundsSolver

/-- The propagator that a posting makes. -/
def Problem.posted (p : Problem) (t : Posting) : Except BuildError Propagator := do
  let views ← p.viewsOf t.arguments
  t.constraint.validate (views.map (·.read p.network.initial)) t.parameters
  return .post t.constraint views t.parameters

/-- The problems agree on all that posting depends on. -/
structure Problem.Agrees (p q : Problem) : Prop where
  initial : q.network.initial = p.network.initial
  views : q.network.views = p.network.views
  current : q.current = p.current

variable {p q r : Problem} {t : Posting} {ts us : List Posting} {x : Propagator}
  {xs : List Propagator}

theorem Problem.Agrees.trans (h : p.Agrees q) (h' : q.Agrees r) : p.Agrees r :=
  ⟨h'.initial.trans h.initial, h'.views.trans h.views, h'.current.trans h.current⟩

theorem viewsOf_congr {vs : List VariableId} (h : q.network.views = p.network.views) :
    q.viewsOf vs = p.viewsOf vs := by
  induction vs with
  | nil => rfl
  | cons v vs ih => simp only [Problem.viewsOf, Problem.numVariables, h, ih]

theorem posted_congr (h : p.Agrees q) : q.posted t = p.posted t := by
  simp only [Problem.posted, viewsOf_congr h.views, h.initial]

/-- Posting adds the propagator of the posting. -/
theorem addPropagator_of_posted (h : p.posted t = .ok x) :
    ∃ id q, p.addPropagator t.arguments t.constraint t.parameters = .ok (id, q) ∧ p.Agrees q ∧
      q.network.propagators.toList = p.network.propagators.toList ++ [x] := by
  obtain ⟨views, hv, h⟩ := bind_eq_ok.1 h
  obtain ⟨_, hc, h⟩ := bind_eq_ok.1 h
  obtain rfl := Except.ok.inj h
  refine ⟨_, _, bind_eq_ok.2 ⟨views, mapError_eq_ok_iff.2 hv,
    bind_eq_ok.2 ⟨_, mapError_eq_ok_iff.2 hc, rfl⟩⟩, ⟨rfl, rfl, rfl⟩, ?_⟩
  exact Keyed.toList_push p.network.propagators _

theorem posted_of_addPropagator {id : PropagatorId}
    (h : p.addPropagator t.arguments t.constraint t.parameters = .ok (id, q)) :
    ∃ x, p.posted t = .ok x := by
  obtain ⟨views, hv, hc, -, -⟩ := addPropagator_eq_ok h
  exact ⟨_, bind_eq_ok.2 ⟨views, hv, bind_eq_ok.2 ⟨_, hc, rfl⟩⟩⟩

/-- Postings that make propagators can be posted one after the other. -/
theorem post_of_posted (h : List.Forall₂ (fun t x => p.posted t = .ok x) ts xs) :
    ∃ q, p.post ts = .ok q ∧ p.Agrees q ∧
      q.network.propagators.toList = p.network.propagators.toList ++ xs := by
  induction ts generalizing p xs with
  | nil =>
    obtain rfl := List.forall₂_nil_left_iff.1 h
    exact ⟨p, rfl, ⟨rfl, rfl, rfl⟩, (List.append_nil _).symm⟩
  | cons t ts ih =>
    obtain ⟨x, xs, ht, hts, rfl⟩ := List.forall₂_cons_left_iff.1 h
    obtain ⟨id, q, hq, hag, hlist⟩ := addPropagator_of_posted ht
    obtain ⟨r, hr, hag', hlist'⟩ := ih (p := q) (hts.imp fun _ _ h => (posted_congr hag).trans h)
    refine ⟨r, bind_eq_ok.2 ⟨_, hq, hr⟩, hag.trans hag', ?_⟩
    rw [hlist', hlist, List.append_assoc]
    rfl

theorem posted_of_post (h : p.post ts = .ok q) :
    ∃ xs, List.Forall₂ (fun t x => p.posted t = .ok x) ts xs := by
  induction ts generalizing p with
  | nil => exact ⟨[], .nil⟩
  | cons t ts ih =>
    obtain ⟨⟨id, r⟩, hr, h⟩ := bind_eq_ok.1 h
    obtain ⟨x, hx⟩ := posted_of_addPropagator hr
    obtain ⟨id', r', hr', hag, -⟩ := addPropagator_of_posted hx
    obtain ⟨rfl, rfl⟩ := Prod.mk.inj (Except.ok.inj (hr.symm.trans hr'))
    obtain ⟨xs, hxs⟩ := ih h
    exact ⟨x :: xs, .cons hx (hxs.imp fun _ _ h => (posted_congr hag).symm.trans h)⟩

/-- Posting touches nothing but the propagators. -/
theorem post_agrees (h : p.post ts = .ok q) : p.Agrees q := by
  obtain ⟨xs, hxs⟩ := posted_of_post h
  obtain ⟨q', hq', hag, -⟩ := post_of_posted hxs
  obtain rfl := Except.ok.inj (h.symm.trans hq')
  exact hag

/-- **Constraints can be posted in any order**, which changes nothing but the numbers of
their propagators. -/
theorem post_perm (h : p.post ts = .ok q) (hperm : us.Perm ts) :
    ∃ r, p.post us = .ok r ∧ r.current = q.current ∧
      r.network.propagators.toList.Perm q.network.propagators.toList := by
  obtain ⟨xs, hxs⟩ := posted_of_post h
  obtain ⟨q', hq', hag, hlist⟩ := post_of_posted hxs
  obtain rfl := Except.ok.inj (h.symm.trans hq')
  obtain ⟨ys, hys, hp⟩ := List.perm_comp_forall₂ hperm hxs
  obtain ⟨r, hr, hag', hlist'⟩ := post_of_posted hys
  refine ⟨r, hr, hag'.current.trans hag.current.symm, ?_⟩
  rw [hlist, hlist']
  exact hp.append_left _

end BoundsSolver
