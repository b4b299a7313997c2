/-
# Writing narrowed variables back

A run hands its narrowed intervals back variable by variable.  Each confines the
shared domain behind the variable to its `Position.target`, and what comes out is
the greatest box within the old one that all of them confine (`writeBack_cases`):
the order of the variables and shared domains behind several of them do not matter.

Whatever bound moves on the way wakes its subscribers, which is part of `Narrows`.
-/

import BoundsSolver.Proofs.Network.WellFormed
import BoundsSolver.Proofs.Propagation.Triggered

namespace BoundsSolver

/-- What a narrowing step does to a state, apart from failing. -/
structure Narrows (n : Network) (id : PropagatorId) (again : Bool) (s t : State) : Prop where
  inside : t.box.Inside s.box
  entailed : t.entailed = s.entailed
  faithful : t.triggered.Faithful
  keeps : ∀ {x : PropagatorId}, x ∈ s.triggered → x ∈ t.triggered
  /-- The subscribers of every bound that moved are triggered, unless entailed. -/
  wakes : ∀ {d : DomainId} {b : Bound} {x : PropagatorId},
    (t.box.entry d).get b ≠ (s.box.entry d).get b → x ∈ awakened n id again d b →
      s.entailed.entry x = false → x ∈ t.triggered

namespace Position

/-- What the run leaves to the shared domain. -/
def target (p : Position) : Interval :=
  ⟨p.after.min - p.view.offset, p.after.max - p.view.offset⟩

/-- The box leaves the shared domain no more than the run does. -/
def Confines (p : Position) (c : Box) : Prop :=
  p.target.min ≤ (c.entry p.view.domain).min ∧ (c.entry p.view.domain).max ≤ p.target.max

/-- The run saw the variable in the box `b` and left it a value. -/
structure Placed (n : Network) (b : Box) (p : Position) : Prop where
  carried : n.Carries p.view
  before : p.before = p.view.read b
  within : p.before.min ≤ p.after.min ∧ p.after.max ≤ p.before.max
  filled : p.after.min ≤ p.after.max

end Position

variable {n : Network} {id : PropagatorId} {again : Bool} {s t u s' t' : State} {o : Outcome}
  {p : Position} {ps : List Position} {b c : Box}

theorem Narrows.refl (h : s.triggered.Faithful) : Narrows n id again s s where
  inside := .refl _
  entailed := rfl
  faithful := h
  keeps hx := hx
  wakes hne := absurd rfl hne

theorem Narrows.trans (h : Narrows n id again s t) (h' : Narrows n id again t u) :
    Narrows n id again s u where
  inside := h'.inside.trans h.inside
  entailed := h'.entailed.trans h.entailed
  faithful := h'.faithful
  keeps hx := h'.keeps (h.keeps hx)
  wakes {d b x} hne hx he := by
    by_cases hmid : (t.box.entry d).get b = (s.box.entry d).get b
    · refine h'.wakes (fun heq => hne (heq.trans hmid)) hx ?_
      rw [h.entailed]
      exact he
    · exact h'.keeps (h.wakes hmid hx he)

theorem Narrows.of_alike (h : Narrows n id again s t) (hs : s'.Alike s) (ht : t'.Alike t) :
    Narrows n id again s' t' where
  inside := by
    rw [hs.box, ht.box]
    exact h.inside
  entailed := by
    rw [hs.entailed, ht.entailed]
    exact h.entailed
  faithful := by
    rw [ht.triggered]
    exact h.faithful
  keeps := by
    rw [hs.triggered, ht.triggered]
    exact h.keeps
  wakes := by
    rw [hs.box, hs.entailed, ht.box, ht.triggered]
    exact h.wakes

theorem Position.Confines.of_inside (h : p.Confines b) (hc : c.Inside b) : p.Confines c := by
  obtain ⟨hmin, hmax⟩ := hc.bounds p.view.domain
  exact ⟨Int.le_trans h.1 hmin, Int.le_trans hmax h.2⟩

namespace Position.Placed

variable (h : p.Placed n b) (hb : b.Inside n.initial) (ha : b.Alive)
include h hb ha

/-- The target lies within what the box left to the shared domain. -/
theorem target_bounds : (b.entry p.view.domain).min ≤ p.target.min ∧
    p.target.min ≤ p.target.max ∧ p.target.max ≤ (b.entry p.view.domain).max := by
  have hw := h.within
  have hf := h.filled
  rw [h.before, h.carried.read_eq hb ha] at hw
  dsimp only [target] at hw ⊢
  omega

/-- Taking the offset back cuts nothing short. -/
theorem shifted_eq_target (hn : n.WellFormed) : p.after.shifted (-p.view.offset) = p.target := by
  obtain ⟨h₁, h₂, h₃⟩ := h.target_bounds hb ha
  obtain ⟨i, hi, -⟩ := h.carried
  have hfit := hn.fits i (Keyed.mem_of_get? hi)
  have hin := hb.bounds p.view.domain
  rw [Keyed.entry_of_get? hi] at hin
  obtain ⟨⟨hlo, -⟩, -, hhi⟩ := hfit
  simp only [target] at h₁ h₂ h₃ ⊢
  exact Interval.shifted_eq (i := p.after) ⟨by omega, by omega⟩ ⟨by omega, by omega⟩

/-- A variable that the run left alone is confined by every smaller box. -/
theorem confines_of_eq (he : p.after = p.before) (hc : c.Inside b) : p.Confines c := by
  have hread := h.before
  rw [h.carried.read_eq hb ha, ← he] at hread
  obtain ⟨hmin, hmax⟩ := hc.bounds p.view.domain
  rw [Confines, target, hread]
  dsimp only
  omega

end Position.Placed

/-! ### One variable -/

/-- The box with one shared domain cut to the target of a position. -/
def cutBox (b : Box) (p : Position) : Box :=
  b.set p.view.domain ((b.entry p.view.domain).tightenTo p.target)

theorem cutBox_entry (p : Position) (d : DomainId) : (cutBox b p).entry d =
    if p.view.domain = d ∧ p.view.domain.index < b.size then (b.entry d).tightenTo p.target
    else b.entry d := by
  rw [cutBox, Box.entry_set]
  split
  · rename_i h
    rw [h.1]
  · rfl

theorem cutBox_inside (b : Box) (p : Position) : (cutBox b p).Inside b := by
  refine Box.inside_iff.2 ⟨Keyed.size_set .., fun d => ?_⟩
  rw [cutBox_entry]
  split
  · exact Interval.isWithin_iff.1 (Interval.tightenTo_isWithin _ _)
  · exact ⟨Int.le_refl _, Int.le_refl _⟩

theorem confines_cutBox (h : p.view.domain.index < b.size) : p.Confines (cutBox b p) := by
  rw [Position.Confines, cutBox_entry, if_pos ⟨rfl, h⟩, Interval.tightenTo_min,
    Interval.tightenTo_max]
  omega

/-- A cut loses no box that the position confines. -/
theorem inside_cutBox (hc : c.Inside b) (hp : p.Confines c) : c.Inside (cutBox b p) := by
  refine Box.inside_iff.2 ⟨hc.size_eq.trans (Keyed.size_set ..).symm, fun d => ?_⟩
  have hd := hc.bounds d
  rw [cutBox_entry]
  split
  · rename_i h
    obtain ⟨rfl, -⟩ := h
    rw [Interval.tightenTo_min, Interval.tightenTo_max]
    obtain ⟨hmin, hmax⟩ := hp
    omega
  · exact hd

/-- What triggering under a condition does. -/
structure TriggersIf (s t : State) (cond : Prop) (ids : List PropagatorId) : Prop where
  box : t.box = s.box
  entailed : t.entailed = s.entailed
  faithful : t.triggered.Faithful
  keeps : ∀ {x : PropagatorId}, x ∈ s.triggered → x ∈ t.triggered
  adds : ∀ {x : PropagatorId}, cond → x ∈ ids → s.entailed.entry x = false → x ∈ t.triggered

theorem triggers_if (hf : s.triggered.Faithful) (cond : Prop) [Decidable cond]
    (ids : List PropagatorId) : TriggersIf s (if cond then s.triggerAll ids else s) cond ids := by
  split
  · refine ⟨rfl, rfl, State.triggerAll_faithful hf, fun hx => ?_, fun _ hx he => ?_⟩
    · exact (State.mem_triggerAll hf).2 (.inr hx)
    · exact (State.mem_triggerAll hf).2 (.inl ⟨hx, he⟩)
  · rename_i hn
    exact ⟨rfl, rfl, hf, fun hx => hx, fun hc => absurd hc hn⟩

/-- A cut empties no shared domain but its own. -/
theorem cutBox_alive_iff (ha : b.Alive) (h : p.view.domain.index < b.size) :
    (cutBox b p).Alive ↔ ((b.entry p.view.domain).tightenTo p.target).isEmpty = false := by
  rw [Interval.isEmpty_eq_false_iff]
  constructor
  · intro halive
    have hself := halive.bounds p.view.domain
    rwa [cutBox_entry, if_pos ⟨rfl, h⟩] at hself
  · intro hne
    refine Box.alive_iff.2 fun d => ?_
    rw [cutBox_entry]
    split
    · rename_i hd
      exact hd.1 ▸ hne
    · exact ha.bounds d

/-- The cut state, with the subscribers of both bounds triggered, each if it moved. -/
def cutState (n : Network) (id : PropagatorId) (again : Bool) (p : Position) (s : State) : State :=
  let old := s.box.entry p.view.domain
  let new := old.tightenTo p.target
  let s := { s with box := cutBox s.box p }
  let s := if new.min ≠ old.min then s.triggerAll (awakened n id again p.view.domain .min) else s
  if new.max ≠ old.max then s.triggerAll (awakened n id again p.view.domain .max) else s

@[simp] theorem cutState_box : (cutState n id again p s).box = cutBox s.box p := by
  unfold cutState
  dsimp only
  split <;> split <;> rfl

theorem cutState_narrows (hf : s.triggered.Faithful) :
    Narrows n id again s (cutState n id again p s) := by
  have hmin := triggers_if (s := { s with box := cutBox s.box p }) hf
    (((s.box.entry p.view.domain).tightenTo p.target).min ≠ (s.box.entry p.view.domain).min)
    (awakened n id again p.view.domain .min)
  have hmax := triggers_if hmin.faithful
    (((s.box.entry p.view.domain).tightenTo p.target).max ≠ (s.box.entry p.view.domain).max)
    (awakened n id again p.view.domain .max)
  refine ⟨?_, hmax.entailed.trans hmin.entailed, hmax.faithful,
    fun hx => hmax.keeps (hmin.keeps hx), fun {d x y} hmoved hy he => ?_⟩
  · rw [cutState_box]
    exact cutBox_inside s.box p
  · rw [cutState_box, cutBox_entry] at hmoved
    split at hmoved
    · rename_i hd
      obtain ⟨rfl, -⟩ := hd
      cases x with
      | min => exact hmax.keeps (hmin.adds hmoved hy he)
      | max =>
        refine hmax.adds hmoved hy ?_
        rw [hmin.entailed]
        exact he
    · exact absurd rfl hmoved

/-- **A cut narrows the shared domain to the target**, and fails if that leaves nothing. -/
theorem cut_cases (hn : n.WellFormed) (hb : b.Inside n.initial) (ha : b.Alive)
    (hp : p.Placed n b) (hs : s.box.Alive) (h : cut n id again p s = .ok o) :
    o.state.box = cutBox s.box p ∧ p.view.domain.index < s.box.size ∧
      (o.kept = false ∧ ¬ (cutBox s.box p).Alive ∧ o.state.entailed = s.entailed ∧
          o.state.triggered = s.triggered ∨
        o.kept = true ∧ (cutBox s.box p).Alive ∧ o.state = cutState n id again p s) := by
  obtain ⟨back, hback, h⟩ := bind_eq_ok.1 h
  obtain ⟨old, hold, h⟩ := bind_eq_ok.1 h
  obtain ⟨-, rfl⟩ := Width.neg_eq_ok.1 hback
  have hget := Keyed.get_eq_ok.1 hold
  have hlt := Keyed.lt_size_of_get? hget
  obtain rfl : s.box.entry p.view.domain = old := Keyed.entry_of_get? hget
  rw [hp.shifted_eq_target hb ha hn] at h
  rw [cutBox_alive_iff hs hlt]
  dsimp only at h
  split at h
  · rename_i hempty
    obtain rfl := Except.ok.inj h
    exact ⟨rfl, hlt, .inl ⟨rfl, by rw [hempty]; exact Bool.noConfusion, rfl, rfl⟩⟩
  · rename_i hne
    obtain rfl := Except.ok.inj h
    exact ⟨cutState_box, hlt, .inr ⟨rfl, Bool.eq_false_iff.2 hne, rfl⟩⟩

/-! ### All variables -/

/-- One of the positions left a shared domain without values, so no box survives. -/
structure Refuses (ps : List Position) (s : State) (o : Outcome) : Prop where
  kept : o.kept = false
  dead : ¬ o.state.box.Alive
  inside : o.state.box.Inside s.box
  entailed : o.state.entailed = s.entailed
  faithful : o.state.triggered.Faithful
  hopeless : ∀ c : Box, c.Inside s.box → c.Alive → ¬ ∀ p ∈ ps, p.Confines c

/-- The greatest box that all positions confine has been written back. -/
structure Writes (n : Network) (id : PropagatorId) (again : Bool) (ps : List Position) (s : State)
    (o : Outcome) : Prop where
  kept : o.kept = true
  alive : o.state.box.Alive
  narrows : Narrows n id again s o.state
  confined : ∀ p ∈ ps, p.Confines o.state.box
  covers : ∀ c : Box, c.Inside s.box → (∀ p ∈ ps, p.Confines c) → c.Inside o.state.box

section Cons

variable (hnar : Narrows n id again s t)
  (hcov : ∀ {c : Box}, c.Inside s.box → p.Confines c → c.Inside t.box)
include hnar hcov

theorem Refuses.cons (h : Refuses ps t o) : Refuses (p :: ps) s o where
  kept := h.kept
  dead := h.dead
  inside := h.inside.trans hnar.inside
  entailed := h.entailed.trans hnar.entailed
  faithful := h.faithful
  hopeless c hc hca hall := by
    obtain ⟨hp, hps⟩ := List.forall_mem_cons.1 hall
    exact h.hopeless c (hcov hc hp) hca hps

theorem Writes.cons (h : Writes n id again ps t o) (hp : p.Confines t.box) :
    Writes n id again (p :: ps) s o where
  kept := h.kept
  alive := h.alive
  narrows := hnar.trans h.narrows
  confined := List.forall_mem_cons.2 ⟨hp.of_inside h.narrows.inside, h.confined⟩
  covers c hc hall := by
    obtain ⟨hp, hps⟩ := List.forall_mem_cons.1 hall
    exact h.covers c (hcov hc hp) hps

end Cons

/-- **What is written back is the greatest box that all positions confine**; it fails only
if there is none. -/
theorem writeBack_cases {changed : Bool} (hn : n.WellFormed) (hb : b.Inside n.initial)
    (ha : b.Alive) (hps : ∀ p ∈ ps, p.Placed n b) (hs : s.box.Inside b) (hsa : s.box.Alive)
    (hf : s.triggered.Faithful) (h : writeBack n id again ps s changed = .ok o) :
    Refuses ps s o ∨ Writes n id again ps s o := by
  induction ps generalizing s changed with
  | nil =>
    obtain rfl := Except.ok.inj h
    exact .inr ⟨rfl, hsa, .refl hf, fun p hp => absurd hp List.not_mem_nil, fun c hc _ => hc⟩
  | cons p ps ih =>
    obtain ⟨hp, hps⟩ := List.forall_mem_cons.1 hps
    unfold writeBack at h
    split at h
    · -- The variable was left alone, and every smaller box confines it anyway.
      rename_i heq
      have hnar : Narrows n id again s s := .refl hf
      exact (ih hps hs hsa hf h).imp (·.cons hnar fun hc _ => hc)
        (·.cons hnar (fun hc _ => hc) (hp.confines_of_eq hb ha heq hs))
    · split at h
      · rename_i hempty
        have := hp.filled
        rw [Interval.isEmpty_iff] at hempty
        omega
      · obtain ⟨o', ho', h⟩ := bind_eq_ok.1 h
        obtain ⟨hbox, hlt, hcut⟩ := cut_cases hn hb ha hp hsa ho'
        rcases hcut with ⟨hk, hd, he, ht⟩ | ⟨hk, hal, hstate⟩
        · rw [hk, if_neg Bool.false_ne_true] at h
          obtain rfl := Except.ok.inj h
          refine .inl ⟨rfl, hbox ▸ hd, hbox ▸ cutBox_inside s.box p, he, ht ▸ hf,
            fun c hc hca hall => hd ?_⟩
          exact hca.of_inside (inside_cutBox hc (hall p List.mem_cons_self))
        · rw [hk, if_pos rfl] at h
          have hnar : Narrows n id again s o'.state := hstate ▸ cutState_narrows hf
          have hcov {c : Box} (hc : c.Inside s.box) (hcp : p.Confines c) : c.Inside o'.state.box :=
            hbox ▸ inside_cutBox hc hcp
          have hcon : p.Confines o'.state.box := hbox ▸ confines_cutBox hlt
          exact (ih hps (hnar.inside.trans hs) (hbox ▸ hal) hnar.faithful h).imp
            (·.cons hnar hcov) (·.cons hnar hcov hcon)

end BoundsSolver
