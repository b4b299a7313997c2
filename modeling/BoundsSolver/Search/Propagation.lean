/-
# Propagation to a fixpoint

Triggered propagators run until none is left.  A propagator sees the intervals
of its variables, offsets applied; what it narrows is moved back by the offset
and cut into the shared domain, and the subscribers of every bound that moved
are triggered.  A propagator does not trigger itself, unless one of its shared
domains stands behind several of its variables.  An entailed propagator is left
alone until the search backtracks.

`propagate_totalSize_le` says that propagation only takes values away, and
`run_progress` that a run which triggers anything takes at least one.  As it
triggers no more than `run_triggers` says, a value outweighs all that the run
which takes it away can trigger, and every round of the loop lowers
`State.rounds`.
-/

import BoundsSolver.Problem.Network
import BoundsSolver.Search.Log
import BoundsSolver.Search.Statistics
import BoundsSolver.Search.Triggered

namespace BoundsSolver

/-- What propagation works on. -/
structure State where
  box : Box
  /-- The propagators that have nothing left to say. -/
  entailed : Keyed PropagatorId Bool
  triggered : Triggered
  statistics : Statistics
  log : Log
  deriving DecidableEq, Inhabited

/-- What a step of propagation leaves. -/
structure Outcome where
  /-- No shared domain lost its last value, and no constraint is violated. -/
  kept : Bool
  /-- Some bound moved. -/
  changed : Bool
  state : State
  deriving DecidableEq

namespace State

def tell (s : State) (e : Event) : State := { s with log := s.log.add e }

def count (s : State) (f : Statistics → Statistics) : State :=
  { s with statistics := f s.statistics }

/-- Triggers those of several propagators that are not entailed. -/
def triggerAll (s : State) (ids : List PropagatorId) : State :=
  { s with triggered := (ids.filter fun id => !s.entailed.entry id).foldl Triggered.insert s.triggered }

/-- Triggers the subscribers of a bound. -/
def wake (s : State) (n : Network) (d : DomainId) (b : Bound) : State :=
  s.triggerAll (n.subscribersOf d b)

/-- Moves a bound inwards and triggers its subscribers. -/
def narrow (s : State) (n : Network) (branch : Branch) : State :=
  { s with box := s.box.tighten branch }.wake n branch.domain branch.bound

end State

/-- The place of a variable in a propagator, and its interval before and after a run. -/
structure Position where
  view : View
  before : Interval
  after : Interval

/-- The positions of a propagator, given the intervals before and after a run. -/
def positions (views : List View) (before after : List Interval) : List Position :=
  (views.zip (before.zip after)).map fun (v, i, j) => ⟨v, i, j⟩

/-- The subscribers of a bound, without the propagator that moved it unless it has
to run again as well. -/
def awakened (n : Network) (self : PropagatorId) (again : Bool) (d : DomainId) (b : Bound) :
    List PropagatorId :=
  (n.subscribersOf d b).filter fun id => again || decide (id ≠ self)

/-- Cuts a narrowed variable into its shared domain and triggers the subscribers of
the bounds that moved. -/
def cut (n : Network) (self : PropagatorId) (again : Bool) (p : Position) (s : State) :
    Checked Outcome := do
  let back ← Width.value.neg p.view.offset
  let old ← s.box.get p.view.domain
  let new := old.tightenTo (p.after.shifted back)
  let s := { s with box := s.box.set p.view.domain new }
  if new.isEmpty then return ⟨false, true, s⟩
  let s := if new.min ≠ old.min then s.triggerAll (awakened n self again p.view.domain .min) else s
  let s := if new.max ≠ old.max then s.triggerAll (awakened n self again p.view.domain .max) else s
  return ⟨true, decide (new ≠ old), s⟩

/-- Cuts every narrowed variable into its shared domain, up to the first that has no
value left. -/
def writeBack (n : Network) (self : PropagatorId) (again : Bool) :
    List Position → State → Bool → Checked Outcome
  | [], s, changed => .ok ⟨true, changed, s⟩
  | p :: ps, s, changed =>
    if p.after = p.before then writeBack n self again ps s changed
    else if p.after.isEmpty then .ok ⟨false, changed, s⟩
    else do
      let o ← cut n self again p s
      if o.kept then writeBack n self again ps o.state (changed || o.changed)
      else return { o with changed := changed || o.changed }

/-- Runs one propagator. -/
def run (n : Network) (s : State) (id : PropagatorId) : Checked Outcome := do
  let q ← n.propagators.get id
  let s := s.count fun c => { c with propagatorCalls := c.propagatorCalls + 1 }
  let before := q.views.map (·.read s.box)
  let r ← q.constraint.propagate before q.parameters
  if r.status = .inconsistent then
    return ⟨false, false, s.tell (.inconsistent q.constraint id)⟩
  let s :=
    if r.status = .entailed then
      { s.count fun c => { c with entailments := c.entailments + 1 } with
        entailed := s.entailed.set id true }
    else s
  let o ← writeBack n id q.selfAliasing (positions q.views before r.bounds) s false
  if o.kept && !o.changed then
    return { o with state := o.state.count fun c => { c with noOpCalls := c.noOpCalls + 1 } }
  return o

theorem Box.totalSize_set {b : Box} {d : DomainId} {i j : Interval} (h : b.get? d = some i) :
    Box.totalSize (b.set d j) + i.size = b.totalSize + j.size := by
  rw [Keyed.get?_eq_getElem?] at h
  simpa [Box.totalSize] using BoundsSolver.totalSize_set h

theorem Box.totalSize_tighten_lt {box : Box} {d : DomainId} {b : Bound} {v : Int}
    (h : (box.entry d).min < (box.entry d).max)
    (hv : (box.entry d).tighten b v ≠ box.entry d) :
    Box.totalSize (box.tighten ⟨d, b, v⟩) < box.totalSize := by
  unfold Box.tighten Keyed.modify
  cases hd : Keyed.get? box d with
  | none =>
    have : box.entry d = default := by
      have : ¬ Keyed.has box d = true := by rw [← Keyed.get?_isSome, hd]; simp
      rw [Keyed.has_iff] at this
      simp [Keyed.entry, Array.getD, this]
    rw [this] at h
    exact absurd h (by decide)
  | some i =>
    rw [Keyed.entry_of_get? hd] at h hv
    have hset := Box.totalSize_set (j := i.tighten b v) hd
    have := Interval.size_lt_of_isWithin (Interval.tighten_isWithin i b v) hv
      (Interval.isEmpty_eq_false_iff.2 (by omega))
    dsimp only
    omega

theorem Box.totalSize_tighten_le (b : Box) (branch : Branch) :
    Box.totalSize (b.tighten branch) ≤ b.totalSize := by
  unfold Box.tighten Keyed.modify
  cases h : Keyed.get? b branch.domain with
  | none => exact Nat.le_refl _
  | some i =>
    have hset := Box.totalSize_set (j := i.tighten branch.bound branch.value) h
    have := Interval.size_le_of_isWithin (Interval.tighten_isWithin i branch.bound branch.value)
    dsimp only
    omega

theorem Box.tighten_comm (b : Box) (c c' : Branch) :
    Box.tighten (b.tighten c) c' = Box.tighten (b.tighten c') c :=
  Keyed.modify_comm b c.domain c'.domain fun i => Interval.tighten_comm i _ _ _ _

/-- A cut takes a value away, or leaves everything as it was. -/
theorem cut_progress {n : Network} {self : PropagatorId} {again : Bool} {p : Position}
    {s : State} {o : Outcome} (h : cut n self again p s = .ok o) (hk : o.kept = true) :
    o.state.box.totalSize < s.box.totalSize ∨
      o.changed = false ∧ o.state.box.totalSize = s.box.totalSize ∧
        o.state.triggered = s.triggered := by
  obtain ⟨back, _, h⟩ := bind_eq_ok.1 h
  obtain ⟨old, hold, h⟩ := bind_eq_ok.1 h
  have hset := Box.totalSize_set (j := old.tightenTo (p.after.shifted back)) (Keyed.get_eq_ok.1 hold)
  dsimp only at h
  split at h
  · obtain rfl := Except.ok.inj h
    cases hk
  · rename_i hne
    obtain rfl := Except.ok.inj h
    by_cases heq : old.tightenTo (p.after.shifted back) = old
    · right
      rw [heq] at hset ⊢
      simp only [ne_eq, not_true_eq_false, if_false, decide_false, true_and]
      exact ⟨by omega, trivial⟩
    · left
      have := Interval.shrinks_of_isWithin (Interval.tightenTo_isWithin old (p.after.shifted back))
        (by simpa using hne)
      have := this.resolve_left heq
      have hbox : ∀ (c c' : Prop) [Decidable c] [Decidable c'] (t : State) (ids ids' : List PropagatorId),
          (if c' then (if c then t.triggerAll ids else t).triggerAll ids'
            else if c then t.triggerAll ids else t).box = t.box := by
        intros; split <;> split <;> rfl
      simp only [hbox]
      omega

theorem writeBack_progress {n : Network} {self : PropagatorId} {again : Bool}
    {ps : List Position} {s : State} {changed : Bool} {o : Outcome}
    (h : writeBack n self again ps s changed = .ok o) (hk : o.kept = true) :
    o.state.box.totalSize < s.box.totalSize ∨
      o.changed = changed ∧ o.state.box.totalSize = s.box.totalSize ∧
        o.state.triggered = s.triggered := by
  induction ps generalizing s changed with
  | nil => obtain rfl := Except.ok.inj h; exact .inr ⟨rfl, rfl, rfl⟩
  | cons p ps ih =>
    unfold writeBack at h
    split at h
    · exact ih h
    · split at h
      · obtain rfl := Except.ok.inj h; cases hk
      · obtain ⟨o', ho', h⟩ := bind_eq_ok.1 h
        split at h
        · rename_i hk'
          rcases cut_progress ho' hk' with hlt | ⟨hc, hs, ht⟩
          · rcases ih h with hlt' | ⟨_, hs', _⟩
            · exact .inl (by omega)
            · exact .inl (by omega)
          · rcases ih h with hlt' | ⟨hc', hs', ht'⟩
            · exact .inl (by omega)
            · exact .inr ⟨by rw [hc', hc, Bool.or_false], by omega, ht'.trans ht⟩
        · rename_i hk'
          obtain rfl := Except.ok.inj h
          exact absurd hk hk'

/-- **A run takes a value away, or triggers nothing.** -/
theorem run_progress {n : Network} {s : State} {id : PropagatorId} {o : Outcome}
    (h : run n s id = .ok o) (hk : o.kept = true) :
    o.state.box.totalSize < s.box.totalSize ∨
      o.state.box.totalSize = s.box.totalSize ∧ o.state.triggered = s.triggered := by
  obtain ⟨q, _, h⟩ := bind_eq_ok.1 h
  obtain ⟨r, _, h⟩ := bind_eq_ok.1 h
  split at h
  · obtain rfl := Except.ok.inj h; cases hk
  · obtain ⟨o', ho', h⟩ := bind_eq_ok.1 h
    have progress (hk' : o'.kept = true) : o'.state.box.totalSize < s.box.totalSize ∨
        o'.state.box.totalSize = s.box.totalSize ∧ o'.state.triggered = s.triggered := by
      have := writeBack_progress ho' hk'
      split at this
      · exact this.imp_right And.right
      · exact this.imp_right And.right
    split at h
    · rename_i hc
      obtain rfl := Except.ok.inj h
      exact progress (by simp_all)
    · obtain rfl := Except.ok.inj h
      exact progress hk

/-- The number of subscriptions to the bounds of shared domains. -/
def Network.subscriptions (n : Network) : Nat :=
  (n.subscribers.toList.map fun s => s.min ++ s.max).flatten.length

/-- The number of variables of all propagators. -/
def Network.arity (n : Network) : Nat := (n.propagators.toList.map (·.views)).flatten.length

/-- A bound on the rounds in which propagators run until none is left. -/
def State.rounds (s : State) (n : Network) : Nat :=
  s.box.totalSize * (n.arity * n.subscriptions + 1) + s.triggered.size

theorem Network.length_subscribersOf_le (n : Network) (d : DomainId) :
    (n.subscribersOf d .min).length + (n.subscribersOf d .max).length ≤ n.subscriptions := by
  unfold subscribersOf
  cases hd : n.subscribers.get? d with
  | none => exact Nat.zero_le _
  | some s =>
    rw [Keyed.get?_eq_getElem?] at hd
    have hmem : s.min ++ s.max ∈ n.subscribers.toList.map fun s => s.min ++ s.max :=
      List.mem_map_of_mem (List.mem_of_getElem? hd)
    exact List.length_append ▸ (List.sublist_flatten_of_mem hmem).length_le

theorem State.size_triggerAll_le (s : State) (ids : List PropagatorId) :
    (s.triggerAll ids).triggered.size ≤ s.triggered.size + ids.length :=
  Nat.le_trans (Triggered.size_foldl_insert_le _ _)
    (Nat.add_le_add_left (List.length_filter_le _ _) _)

/-- A cut triggers at most the subscribers of both bounds of a shared domain. -/
theorem cut_triggers {n : Network} {self : PropagatorId} {again : Bool} {p : Position}
    {s : State} {o : Outcome} (h : cut n self again p s = .ok o) :
    o.state.triggered.size ≤ s.triggered.size + n.subscriptions := by
  have hbounds := n.length_subscribersOf_le p.view.domain
  have hmin := List.length_filter_le (fun id => again || decide (id ≠ self))
    (n.subscribersOf p.view.domain .min)
  have hmax := List.length_filter_le (fun id => again || decide (id ≠ self))
    (n.subscribersOf p.view.domain .max)
  have hwake (c : Prop) [Decidable c] (t : State) (ids : List PropagatorId) :
      (if c then t.triggerAll ids else t).triggered.size ≤ t.triggered.size + ids.length := by
    split
    · exact t.size_triggerAll_le ids
    · exact Nat.le_add_right _ _
  obtain ⟨back, _, h⟩ := bind_eq_ok.1 h
  obtain ⟨old, _, h⟩ := bind_eq_ok.1 h
  dsimp only at h
  split at h
  · obtain rfl := Except.ok.inj h
    exact Nat.le_add_right _ _
  · obtain rfl := Except.ok.inj h
    refine Nat.le_trans (hwake _ _ _) ?_
    have hfirst := hwake ((old.tightenTo (p.after.shifted back)).min ≠ old.min)
      { s with box := s.box.set p.view.domain (old.tightenTo (p.after.shifted back)) }
      (awakened n self again p.view.domain .min)
    simp only [awakened] at hfirst ⊢
    omega

theorem writeBack_triggers {n : Network} {self : PropagatorId} {again : Bool}
    {ps : List Position} {s : State} {changed : Bool} {o : Outcome}
    (h : writeBack n self again ps s changed = .ok o) :
    o.state.triggered.size ≤ s.triggered.size + ps.length * n.subscriptions := by
  induction ps generalizing s changed with
  | nil =>
    obtain rfl := Except.ok.inj h
    exact Nat.le_add_right _ _
  | cons p ps ih =>
    rw [List.length_cons, Nat.succ_mul]
    unfold writeBack at h
    split at h
    · have := ih h
      omega
    · split at h
      · obtain rfl := Except.ok.inj h
        exact Nat.le_add_right _ _
      · obtain ⟨o', ho', h⟩ := bind_eq_ok.1 h
        have hcut := cut_triggers ho'
        split at h
        · have := ih h
          omega
        · obtain rfl := Except.ok.inj h
          exact Nat.le_trans hcut (Nat.add_le_add_left (Nat.le_add_left _ _) _)

/-- **A run triggers so many propagators at most**, whatever it narrows. -/
theorem run_triggers {n : Network} {s : State} {id : PropagatorId} {o : Outcome}
    (h : run n s id = .ok o) :
    o.state.triggered.size ≤ s.triggered.size + n.arity * n.subscriptions := by
  obtain ⟨q, hq, h⟩ := bind_eq_ok.1 h
  obtain ⟨r, _, h⟩ := bind_eq_ok.1 h
  rw [Keyed.get_eq_ok, Keyed.get?_eq_getElem?] at hq
  have hviews : q.views.length ≤ n.arity :=
    (List.sublist_flatten_of_mem (List.mem_map_of_mem (List.mem_of_getElem? hq))).length_le
  split at h
  · obtain rfl := Except.ok.inj h
    exact Nat.le_add_right _ _
  · obtain ⟨o', ho', h⟩ := bind_eq_ok.1 h
    have hwrite := writeBack_triggers ho'
    have hlength : (positions q.views (q.views.map (·.read s.box)) r.bounds).length ≤ n.arity := by
      simp only [positions, List.length_map, List.length_zip]
      omega
    have hle := Nat.mul_le_mul_right n.subscriptions hlength
    have hstate : o'.state.triggered.size ≤ s.triggered.size + n.arity * n.subscriptions := by
      split at hwrite <;> exact Nat.le_trans hwrite (Nat.add_le_add_left hle _)
    split at h
    · obtain rfl := Except.ok.inj h
      exact hstate
    · obtain rfl := Except.ok.inj h
      exact hstate

theorem State.rounds_of_pop? {n : Network} {s : State} {id : PropagatorId} {rest : Triggered}
    (h : s.triggered.pop? = some (id, rest)) :
    State.rounds { s with triggered := rest } n < s.rounds n := by
  have := Triggered.size_of_pop? h
  simp only [rounds]
  omega

/-- **A run leaves no more rounds**: what it triggers is outweighed by a value that it takes
away. -/
theorem run_rounds {n : Network} {s : State} {id : PropagatorId} {o : Outcome}
    (h : run n s id = .ok o) (hk : o.kept = true) : o.state.rounds n ≤ s.rounds n := by
  have htriggers := run_triggers h
  unfold State.rounds
  rcases run_progress h hk with hlt | ⟨hsize, htriggered⟩
  · have hvalue := Nat.mul_le_mul_right (n.arity * n.subscriptions + 1) hlt
    rw [Nat.succ_mul] at hvalue
    omega
  · exact Nat.le_of_eq (by rw [hsize, htriggered])

/-- Runs triggered propagators until none is left or one fails. -/
def settle (n : Network) (s : State) : Checked (Bool × State) :=
  match _p : s.triggered.pop? with
  | none => .ok (true, s)
  | some (id, rest) =>
    if s.entailed.entry id then settle n { s with triggered := rest }
    else
      match _r : run n { s with triggered := rest } id with
      | .error f => .error f
      | .ok ⟨true, _, t⟩ => settle n t
      | .ok ⟨false, _, t⟩ =>
        .ok (false, { t.count fun c => { c with inconsistencies := c.inconsistencies + 1 } with
          triggered := t.triggered.clear })
termination_by s.rounds n
decreasing_by
  · exact State.rounds_of_pop? _p
  · exact Nat.lt_of_le_of_lt (run_rounds _r rfl) (State.rounds_of_pop? _p)

/-- Propagates until no propagator is triggered; the answer is false if that fails,
and then the box is as it was when the failure was noticed. -/
def propagate (n : Network) (s : State) : Checked (Bool × State) :=
  settle n (s.count fun c => { c with filters := c.filters + 1 })

theorem settle_totalSize_le {n : Network} {s t : State} (h : settle n s = .ok (true, t)) :
    t.box.totalSize ≤ s.box.totalSize := by
  fun_induction settle n s with
  | case1 =>
    obtain rfl : _ = t := by simpa using h
    exact Nat.le_refl _
  | case2 _ _ _ _ _ ih => exact ih h
  | case3 => cases h
  | case4 s id rest _ _ changed u hr ih =>
    have := ih h
    rcases run_progress hr rfl with h' | ⟨h', _⟩ <;> dsimp only at h' <;> omega
  | case5 => simp at h

/-- **Propagation only takes values away.** -/
theorem propagate_totalSize_le {n : Network} {s t : State} (h : propagate n s = .ok (true, t)) :
    t.box.totalSize ≤ s.box.totalSize :=
  settle_totalSize_le (n := n) (s := s.count _) h

end BoundsSolver
