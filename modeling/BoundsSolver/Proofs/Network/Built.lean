/-
# Problems that were built

`Built` says that a problem comes from calls that were not refused, in any order.
Its network is well formed and its current box lies within the initial one
(`Built.sound`): each call preserves both.

Posting a constraint subscribes its propagator to the bounds that trigger it; what
was subscribed before stays so.

`Problem.either` is a small problem of this kind, in which propagation and shaving remove
values and the search has to take decisions.
-/

import BoundsSolver.Problem.Basic
import BoundsSolver.Proofs.Network.WellFormed

namespace BoundsSolver

/-- A problem that successful calls have built. -/
inductive Built : Problem → Prop
  | empty : Built .empty
  | addVariable {p : Problem} {i : Interval} : Built p → i.Fits → Built (p.addVariable i).2
  | addOffsetVariable {p q : Problem} {d : DomainId} {offset : Int} {x : VariableId} :
    Built p → p.addOffsetVariable d offset = .ok (x, q) → Built q
  | addPropagator {p q : Problem} {xs : List VariableId} {c : Constraint}
    {parameters : List Int} {id : PropagatorId} :
    Built p → p.addPropagator xs c parameters = .ok (id, q) → Built q
  | restrictInitial {p q : Problem} {x : VariableId} {min max : Int} :
    Built p → p.restrictInitial x min max = .ok q → Built q
  | setBound {p q : Problem} {x : VariableId} {b : Bound} {value : Int} {changed : Bool} :
    Built p → p.setBound x b value = .ok (changed, q) → Built q
  | reset {p : Problem} : Built p → Built p.reset

/-- What every call that builds a problem preserves. -/
structure Problem.Sound (p : Problem) : Prop where
  network : p.network.WellFormed
  inside : p.current.Inside p.network.initial

/-! ### Subscriptions -/

section Subscriptions

variable {s : Keyed DomainId Subscribers} {d : DomainId} {x : Bound} {id id' : PropagatorId}

/-- The subscribers of a bound in a table. -/
def listed (s : Keyed DomainId Subscribers) (d : DomainId) (x : Bound) : List PropagatorId :=
  ((s.get? d).map (·.on x)).getD []

theorem Subscribers.mem_add {ids : List PropagatorId} :
    id' ∈ Subscribers.add ids id ↔ id' = id ∨ id' ∈ ids := by
  unfold Subscribers.add
  split
  · rename_i h
    have hmem : id ∈ ids := List.mem_of_mem_head? h
    constructor
    · exact .inr
    · rintro (rfl | hid)
      · exact hmem
      · exact hid
  · exact List.mem_cons

theorem Subscribers.on_subscribe {u : Subscribers} {t : Triggers} :
    (u.subscribe t id).on x = if t.on x = true then add (u.on x) id else u.on x := by
  cases x <;> rfl

/-- Subscribing to the bounds of one variable. -/
theorem listed_modify {t : Triggers} {e : DomainId} :
    listed (s.modify e (·.subscribe t id)) d x =
      if d.index = e.index ∧ s.has e ∧ t.on x = true then Subscribers.add (listed s d x) id
      else listed s d x := by
  rw [listed, Keyed.get?_modify]
  by_cases h : Key.index e = Key.index d
  · have hget : s.get? e = s.get? d := by simp only [Keyed.get?, h]
    have hidx : d.index = e.index := h.symm
    rw [if_pos h, listed]
    cases hs : s.get? d with
    | none =>
      have : s.has e = false := by rw [← Keyed.get?_isSome, hget, hs]; rfl
      simp [this]
    | some u =>
      have : s.has e = true := by rw [← Keyed.get?_isSome, hget, hs]; rfl
      simp only [Option.map_some, Option.getD_some, Subscribers.on_subscribe, hidx, this,
        true_and]
  · have hidx : ¬ d.index = e.index := fun hd => h hd.symm
    rw [if_neg h, if_neg fun hd => hidx hd.1]
    rfl

theorem mem_listed_modify {t : Triggers} {e : DomainId} :
    id' ∈ listed (s.modify e (·.subscribe t id)) d x ↔
      (d.index = e.index ∧ s.has e ∧ t.on x = true ∧ id' = id) ∨ id' ∈ listed s d x := by
  rw [listed_modify]
  split
  · rename_i h
    obtain ⟨hidx, hhas, ht⟩ := h
    simp only [Subscribers.mem_add, hidx, hhas, ht, true_and]
  · rename_i h
    have hnot : ¬ (d.index = e.index ∧ s.has e ∧ t.on x = true ∧ id' = id) :=
      fun ⟨hidx, hhas, ht, _⟩ => h ⟨hidx, hhas, ht⟩
    rw [or_iff_right hnot]

/-- Subscribing to the bounds of several variables adds the propagator to those and
takes none away. -/
theorem mem_listed_subscribeAll {ps : List (View × Triggers)} :
    id' ∈ listed (Problem.subscribeAll id ps s) d x ↔
      (id' = id ∧ s.has d ∧ ∃ p ∈ ps, p.1.domain.index = d.index ∧ p.2.on x = true) ∨
        id' ∈ listed s d x := by
  induction ps generalizing s with
  | nil => simp [Problem.subscribeAll]
  | cons p ps ih =>
    obtain ⟨v, t⟩ := p
    have hhas : (s.modify v.domain (·.subscribe t id)).has d = s.has d := by
      simp only [Keyed.has, Keyed.size_modify]
    have hsame (h : d.index = v.domain.index) : s.has v.domain = s.has d := by
      simp only [Keyed.has, Key.index, h]
    rw [Problem.subscribeAll, ih, mem_listed_modify, hhas]
    simp only [List.mem_cons, exists_eq_or_imp]
    constructor
    · rintro (⟨hid, hd, hp⟩ | ⟨hd, hh, ht, hid⟩ | hl)
      · exact .inl ⟨hid, hd, .inr hp⟩
      · exact .inl ⟨hid, hsame hd ▸ hh, .inl ⟨hd.symm, ht⟩⟩
      · exact .inr hl
    · rintro (⟨hid, hd, ⟨hv, ht⟩ | hp⟩ | hl)
      · exact .inr (.inl ⟨hv.symm, (hsame hv.symm).symm ▸ hd, ht, hid⟩)
      · exact .inl ⟨hid, hd, hp⟩
      · exact .inr (.inr hl)

@[simp] theorem size_subscribeAll (ps : List (View × Triggers)) :
    (Problem.subscribeAll id ps s).size = s.size := by
  induction ps generalizing s with
  | nil => rfl
  | cons p ps ih => rw [Problem.subscribeAll, ih, Keyed.size_modify]

end Subscriptions

/-! ### Each call preserves soundness -/

variable {p q : Problem} {n : Network} {v : View} {i : Interval}

theorem Network.WellFormed.lt_size_of_mem (h : n.WellFormed) {r : Propagator}
    (hr : r ∈ n.propagators.toList) (hv : v ∈ r.views) : v.domain.index < n.initial.size :=
  ((h.posted r hr).carried v hv).has

section AddVariable

theorem entry_push {b : Box} {d : DomainId} (h : d.index < b.size) :
    Keyed.entry (b.push i).2 d = b.entry d := by
  exact Keyed.entry_of_get? ((Keyed.get?_push_of_lt h).trans (Box.get?_eq_of_lt h))

theorem reads_push {r : Propagator} {b : Box} (h : ∀ v ∈ r.views, v.domain.index < b.size) :
    r.reads (b.push i).2 = r.reads b := by
  refine List.map_congr_left fun v hv => ?_
  rw [View.read, View.read, entry_push (h v hv)]

theorem Network.Carries.push {m : Network} (h : n.Carries v)
    (hm : m.initial = (n.initial.push i).2) : m.Carries v := by
  obtain ⟨j, hj, hfit⟩ := h
  refine ⟨j, ?_, hfit⟩
  rw [hm]
  exact (Keyed.get?_push_of_lt (Keyed.lt_size_of_get? hj)).trans hj

theorem addVariable_sound (h : p.Sound) (hi : i.Fits) : (p.addVariable i).2.Sound := by
  obtain ⟨⟨initial, views, propagators, subscribers⟩, current⟩ := p
  obtain ⟨hn, hin⟩ := h
  have hsize : current.size = initial.size := hin.size_eq
  have hnew : (⟨⟨current.size⟩, 0⟩ : View) ∈ (views.push (⟨⟨current.size⟩, 0⟩ : View)).2.toList := by
    rw [Keyed.toList_push]
    exact List.mem_concat_self
  refine ⟨⟨fun j hj => ?_, fun v hv => ?_, fun d hd => ?_, fun r hr => ?_, ?_,
    fun {id r v t x} hr hvt hx => ?_⟩, ?_⟩
  · rcases List.mem_append.1 ((Keyed.toList_push initial i) ▸ hj) with hj | hj
    · exact hn.fits j hj
    · rw [List.mem_singleton.1 hj]
      exact hi
  · rcases List.mem_append.1 ((Keyed.toList_push views _) ▸ hv) with hv | hv
    · exact (hn.carried v hv).push rfl
    · rw [List.mem_singleton.1 hv]
      refine ⟨i, ?_, ?_, ?_⟩
      · exact Keyed.get?_push_size hsize
      · rw [Int.add_zero]
        exact hi.1
      · rw [Int.add_zero]
        exact hi.2
  · rcases Nat.lt_or_ge d.index initial.size with hlt | hge
    · refine (Keyed.toList_push views _) ▸ List.mem_append_left _ (hn.own d hlt)
    · have hd : d.index < (initial.push i).2.size := hd
      rw [Keyed.size_push] at hd
      have heq : d = ⟨current.size⟩ := congrArg DomainId.mk (by omega : d.index = current.size)
      rw [heq]
      exact hnew
  · have hpost := hn.posted r hr
    refine ⟨hpost.eq_post, fun v hv => (hpost.carried v hv).push rfl, ?_⟩
    have hreads := reads_push (i := i) fun v hv => hn.lt_size_of_mem hr hv
    exact (congrArg (r.constraint.validate · r.parameters) hreads).trans hpost.valid
  · show (subscribers.push _).2.size = (initial.push i).2.size
    rw [Keyed.size_push, Keyed.size_push, hn.numbered]
  · have hold := hn.subscribed hr hvt hx
    have hv := hn.lt_size_of_mem (Keyed.mem_of_get? hr) (List.of_mem_zip hvt).1
    show id ∈ listed (subscribers.push ⟨[], []⟩).2 v.domain x
    have hlt : v.domain.index < subscribers.size := Nat.lt_of_lt_of_eq hv hn.numbered.symm
    rw [listed, Keyed.get?_push_of_lt hlt]
    exact hold
  · show Within (current.push i).2.toList (initial.push i).2.toList
    rw [Keyed.toList_push, Keyed.toList_push]
    exact Within.append hin (.refl _)

end AddVariable

/-- Whether a propagator was posted is a matter of the initial box. -/
theorem Network.Posts.of_initial {m : Network} {r : Propagator} (h : n.Posts r)
    (hm : m.initial = n.initial) : m.Posts r where
  eq_post := h.eq_post
  carried v hv := by
    obtain ⟨i, hi, hfit⟩ := h.carried v hv
    exact ⟨i, hm ▸ hi, hfit⟩
  valid := hm ▸ h.valid

theorem addOffsetVariable_sound {d : DomainId} {offset : Int} {x : VariableId} (h : p.Sound)
    (hq : p.addOffsetVariable d offset = .ok (x, q)) : q.Sound := by
  obtain ⟨hn, hin⟩ := h
  unfold Problem.addOffsetVariable at hq
  split at hq
  · cases hq
  · rename_i i hi
    split at hq
    · rename_i hfit
      obtain ⟨-, rfl⟩ := Prod.mk.inj (Except.ok.inj hq)
      refine ⟨⟨hn.fits, fun v hv => ?_, fun e he => ?_,
        fun r hr => (hn.posted r hr).of_initial rfl, hn.numbered, hn.subscribed⟩, hin⟩
      · rcases List.mem_append.1 ((Keyed.toList_push p.network.views _) ▸ hv) with hv | hv
        · exact hn.carried v hv
        · rw [List.mem_singleton.1 hv]
          exact ⟨i, hi, hfit⟩
      · exact (Keyed.toList_push p.network.views _) ▸ List.mem_append_left _ (hn.own e he)
    · cases hq

theorem viewsOf_mem {xs : List VariableId} {vs : List View} (h : p.viewsOf xs = .ok vs)
    (hv : v ∈ vs) : v ∈ p.network.views.toList := by
  induction xs generalizing vs with
  | nil =>
    obtain rfl := Except.ok.inj h
    cases hv
  | cons x xs ih =>
    unfold Problem.viewsOf at h
    split at h
    · cases h
    · rename_i w hw
      obtain ⟨ws, hws, h⟩ := bind_eq_ok.1 h
      obtain rfl := Except.ok.inj h
      rcases List.mem_cons.1 hv with rfl | hv
      · exact Keyed.mem_of_get? hw
      · exact ih hws hv

theorem addPropagator_eq_ok {xs : List VariableId} {c : Constraint} {parameters : List Int}
    {id : PropagatorId} (h : p.addPropagator xs c parameters = .ok (id, q)) :
    ∃ views, p.viewsOf xs = .ok views ∧
      c.validate (views.map (·.read p.network.initial)) parameters = .ok () ∧
      id = ⟨p.numPropagators⟩ ∧
      q = { p with
        network :=
          { p.network with
            propagators := (p.network.propagators.push (.post c views parameters)).2
            subscribers := Problem.subscribeAll ⟨p.numPropagators⟩
              (views.zip (c.triggers views.length parameters)) p.network.subscribers } } := by
  obtain ⟨views, hv, h⟩ := bind_eq_ok.1 h
  obtain ⟨_, hc, h⟩ := bind_eq_ok.1 h
  obtain ⟨rfl, rfl⟩ := Prod.mk.inj (Except.ok.inj h)
  exact ⟨views, mapError_eq_ok_iff.1 hv, mapError_eq_ok_iff.1 hc, rfl, rfl⟩

theorem addPropagator_sound {xs : List VariableId} {c : Constraint} {parameters : List Int}
    {id : PropagatorId} (h : p.Sound) (hq : p.addPropagator xs c parameters = .ok (id, q)) :
    q.Sound := by
  obtain ⟨hn, hin⟩ := h
  obtain ⟨views, hv, hc, rfl, rfl⟩ := addPropagator_eq_ok hq
  refine ⟨⟨hn.fits, hn.carried, hn.own, fun r hr => ?_, ?_, fun {id r v t x} hr hvt hx => ?_⟩, hin⟩
  · rcases List.mem_append.1 ((Keyed.toList_push p.network.propagators _) ▸ hr) with hr | hr
    · exact (hn.posted r hr).of_initial rfl
    · obtain rfl := List.mem_singleton.1 hr
      exact ⟨rfl, fun v hmem => hn.carried v (viewsOf_mem hv hmem), hc⟩
  · exact (size_subscribeAll _).trans hn.numbered
  · show id ∈ listed (Problem.subscribeAll _ _ _) v.domain x
    rw [mem_listed_subscribeAll]
    rw [Keyed.get?_push] at hr
    split at hr
    · rename_i hid
      obtain rfl := Option.some.inj hr
      have hlt := (hn.carried v (viewsOf_mem hv (List.of_mem_zip hvt).1)).has
      refine .inl ⟨congrArg PropagatorId.mk hid, ?_, (v, t), hvt, rfl, hx⟩
      exact decide_eq_true (Nat.lt_of_lt_of_eq hlt hn.numbered.symm)
    · exact .inr (hn.subscribed hr hvt hx)

section Narrowing

/-- A network stays well formed when initial intervals are narrowed to values that are
left. -/
theorem Network.WellFormed.narrowed {b : Box} (h : n.WellFormed) (hb : b.Inside n.initial)
    (hne : ∀ d : DomainId, b.entry d = n.initial.entry d ∨ (b.entry d).min ≤ (b.entry d).max) :
    ({ n with initial := b } : Network).WellFormed := by
  have hcar {v : View} (hv : n.Carries v) : ({ n with initial := b } : Network).Carries v := by
    have hlt : v.domain.index < b.size := by
      rw [hb.size_eq]
      exact hv.has
    obtain ⟨i, hi, hfit⟩ := hv
    refine ⟨b.entry v.domain, Box.get?_eq_of_lt hlt, ?_⟩
    have hbd := hb.bounds v.domain
    have hd := hne v.domain
    rw [Keyed.entry_of_get? hi] at hbd hd
    rcases hd with hd | hd
    · rw [hd]
      exact hfit
    · obtain ⟨⟨hlo, -⟩, -, hhi⟩ := hfit
      exact ⟨⟨by omega, by omega⟩, by omega, by omega⟩
  refine ⟨fun i hi => ?_, fun v hv => hcar (h.carried v hv), fun d hd => h.own d ?_,
    fun r hr => ?_, h.numbered.trans hb.size_eq.symm, h.subscribed⟩
  · obtain ⟨k, hk⟩ := List.mem_iff_getElem?.1 hi
    rw [Box.toList_getElem?] at hk
    have hlt := Keyed.lt_size_of_get? hk
    have hfit := h.fits _ (Keyed.mem_of_get? (Box.get?_eq_of_lt (hb.size_eq ▸ hlt)))
    rw [← Keyed.entry_of_get? hk]
    rcases hne ⟨k⟩ with hd | hd
    · rw [hd]
      exact hfit
    · exact hfit.of_within (hb.bounds ⟨k⟩) hd
  · rw [← hb.size_eq]
    exact hd
  · obtain ⟨heq, hviews, hval⟩ := h.posted r hr
    exact ⟨heq, fun v hv => hcar (hviews v hv),
      Constraint.validate_of_within hval (Propagator.reads_within hb r)⟩

theorem restrictInitial_sound {x : VariableId} {min max : Int} (h : p.Sound)
    (hq : p.restrictInitial x min max = .ok q) : q.Sound := by
  obtain ⟨hn, hin⟩ := h
  unfold Problem.restrictInitial at hq
  split at hq
  · cases hq
  · rename_i v hv
    dsimp only at hq
    split at hq
    · cases hq
    · rename_i hne
      obtain rfl := Except.ok.inj hq
      rw [Bool.not_eq_true, Interval.isEmpty_eq_false_iff] at hne
      refine ⟨hn.narrowed ?_ fun d => ?_, ?_⟩
      · refine Box.inside_iff.2 ⟨Keyed.size_modify .., fun d => ?_⟩
        rw [Box.entry_modify]
        split
        · exact Interval.isWithin_iff.1 (Interval.tightenTo_isWithin _ _)
        · exact ⟨Int.le_refl _, Int.le_refl _⟩
      · rw [Box.entry_modify]
        split
        · rename_i hd
          obtain ⟨rfl, -⟩ := hd
          right
          simp only [Interval.tightenTo_min, Interval.tightenTo_max] at hne ⊢
          omega
        · exact .inl rfl
      · have hsize : Keyed.size p.current = Keyed.size p.network.initial := hin.size_eq
        refine Box.inside_iff.2 ⟨by rw [Keyed.size_modify, Keyed.size_modify, hsize], fun d => ?_⟩
        rw [Box.entry_modify, Box.entry_modify, hsize]
        have hd := hin.bounds d
        split
        · simp only [Interval.tightenTo_min, Interval.tightenTo_max]
          omega
        · exact hd

theorem setBound_sound {x : VariableId} {b : Bound} {value : Int} {changed : Bool} (h : p.Sound)
    (hq : p.setBound x b value = .ok (changed, q)) : q.Sound := by
  obtain ⟨v, -, hq⟩ := bind_eq_ok.1 hq
  obtain ⟨-, rfl⟩ := Prod.mk.inj (Except.ok.inj hq)
  exact ⟨h.network, (Box.tighten_inside p.current _).trans h.inside⟩

end Narrowing

theorem empty_sound : Problem.empty.Sound where
  network :=
    { fits := fun _ h => absurd h List.not_mem_nil
      carried := fun _ h => absurd h List.not_mem_nil
      own := fun _ h => absurd h (Nat.not_lt_zero _)
      posted := fun _ h => absurd h List.not_mem_nil
      numbered := rfl
      subscribed := fun h => absurd (Keyed.mem_of_get? h) List.not_mem_nil }
  inside := .refl _

/-- **A problem that was built is sound.** -/
theorem Built.sound (h : Built p) : p.Sound := by
  induction h with
  | empty => exact empty_sound
  | addVariable _ hi ih => exact addVariable_sound ih hi
  | addOffsetVariable _ hq ih => exact addOffsetVariable_sound ih hq
  | addPropagator _ hq ih => exact addPropagator_sound ih hq
  | restrictInitial _ hq ih => exact restrictInitial_sound ih hq
  | setBound _ hq ih => exact setBound_sound ih hq
  | reset _ ih => exact ⟨ih.network, .refl _⟩

/-! ### Problems from lists -/

theorem Built.addVariables {is : List Interval} (h : Built p) (his : ∀ i ∈ is, i.Fits) :
    Built (p.addVariables is).2 := by
  induction is generalizing p with
  | nil => exact h
  | cons i is ih =>
    obtain ⟨hi, his⟩ := List.forall_mem_cons.1 his
    exact ih (h.addVariable hi) his

theorem Built.ofIntervals {is : List Interval} (his : ∀ i ∈ is, i.Fits) : Built (.ofIntervals is) :=
  Built.empty.addVariables his

/-- A problem stays one that was built when constraints are posted. -/
theorem Built.post {ts : List Posting} (h : Built p) (hq : p.post ts = .ok q) : Built q := by
  induction ts generalizing p with
  | nil =>
    obtain rfl := Except.ok.inj hq
    exact h
  | cons t ts ih =>
    obtain ⟨⟨id, r⟩, hr, hq⟩ := bind_eq_ok.1 hq
    exact ih (h.addPropagator hr) hq

/-- A cost and two variables of which one is to be one and the other zero. -/
def Problem.priced : Problem := ofIntervals [⟨0, 2⟩, ⟨0, 1⟩, ⟨-1, 1⟩]

/-- The last two variables add up to one, and neither is more than half of the cost. -/
def Posting.eithers : List Posting :=
  [⟨.affineEq, [⟨1⟩, ⟨2⟩], [1, 1, 1]⟩, ⟨.affineLeq, [⟨0⟩, ⟨1⟩], [-1, 2, 0]⟩,
    ⟨.affineLeq, [⟨0⟩, ⟨2⟩], [-1, 2, 0]⟩]

/-- Either of two variables is one, and costs at least two. -/
def Problem.either : Problem :=
  match Problem.priced.post Posting.eithers with
  | .ok p => p
  | .error r => r.problem

theorem post_eithers : Problem.priced.post Posting.eithers = .ok .either := rfl

theorem Built.priced : Built .priced := .ofIntervals (by decide)

theorem Built.either : Built .either := Built.priced.post post_eithers

end BoundsSolver
