/-
# What a problem is made of, call by call

`Building` is a row of calls that build a problem, each with its reply, from the problem
without anything on.  Calls may be refused, and they come in any order: variables are added
after propagators, bounds are narrowed in between and given back.

A call either posts a propagator or leaves the propagators and their subscribers as they are
(`BuildCall.run_cases`), and none takes a variable back.  A refused call returns the problem that
it was called on, since each builder checks what it is given before it writes anything
(`problem_of_mapError`).  By induction on the calls, the
tables are exactly what was asked for (`building_exact`): a propagator stays as it was
registered, also where it is kept in flat arrays, and a bound has the propagators to run
again when it changes once each, in the order in which they were posted.
-/

import BoundsSolver.Proofs.Model.Posted
import BoundsSolver.Proofs.Network.Layout

namespace BoundsSolver

/-- What can be called on a problem that is built. -/
inductive BuildCall where
  | addVariable (i : Interval)
  | addVariables (is : List Interval)
  | addOffsetVariable (d : DomainId) (offset : Int)
  | addPropagator (xs : List VariableId) (c : Constraint) (parameters : List Int)
  | setMinValue (x : VariableId) (value : Int)
  | setMaxValue (x : VariableId) (value : Int)
  | restrictInitial (x : VariableId) (min max : Int)
  | reset
  deriving DecidableEq, Repr

/-- What a call returns. -/
inductive BuildReply where
  | created (xs : List VariableId)
  | posted (id : PropagatorId)
  | moved (changed : Bool)
  | done
  | refused (e : BuildError)
  deriving DecidableEq, Repr

/-- The propagator that was posted. -/
def BuildReply.posted? : BuildReply → Option PropagatorId
  | .posted id => some id
  | .created _ | .moved _ | .done | .refused _ => none

/-- The call was answered, and posted no propagator. -/
def BuildReply.isQuiet : BuildReply → Bool
  | .created _ | .moved _ | .done => true
  | .posted _ | .refused _ => false

namespace BuildCall

/-- The intervals that a call adds are made of values. -/
def Fits : BuildCall → Prop
  | .addVariable i => i.Fits
  | .addVariables is => ∀ i ∈ is, i.Fits
  | .addOffsetVariable .. | .addPropagator .. | .setMinValue .. | .setMaxValue .. |
    .restrictInitial .. | .reset => True

instance : DecidablePred Fits
  | .addVariable i => inferInstanceAs (Decidable i.Fits)
  | .addVariables is => inferInstanceAs (Decidable (∀ i ∈ is, i.Fits))
  | .addOffsetVariable .. | .addPropagator .. | .setMinValue .. | .setMaxValue .. |
    .restrictInitial .. | .reset => .isTrue trivial

/-- What a call does: its reply, and the problem after it.  Narrowing a variable that does not
exist is a fault. -/
def run (p : Problem) : BuildCall → Checked (BuildReply × Problem)
  | .addVariable i =>
    let (x, q) := p.addVariable i
    .ok (.created [x], q)
  | .addVariables is =>
    let (xs, q) := p.addVariables is
    .ok (.created xs, q)
  | .addOffsetVariable d offset =>
    match p.addOffsetVariable d offset with
    | .ok (x, q) => .ok (.created [x], q)
    | .error e => .ok (.refused e, e.problem)
  | .addPropagator xs c parameters =>
    match p.addPropagator xs c parameters with
    | .ok (id, q) => .ok (.posted id, q)
    | .error e => .ok (.refused e, e.problem)
  | .setMinValue x value => do
    let (changed, q) ← p.setMinValue x value
    return (.moved changed, q)
  | .setMaxValue x value => do
    let (changed, q) ← p.setMaxValue x value
    return (.moved changed, q)
  | .restrictInitial x min max =>
    match p.restrictInitial x min max with
    | .ok q => .ok (.done, q)
    | .error e => .ok (.refused e, e.problem)
  | .reset => .ok (.done, p.reset)

end BuildCall

/-- Calls that build a problem, each with what it returned, and the problem after them. -/
inductive Building : List (BuildCall × BuildReply) → Problem → Prop
  | start : Building [] .empty
  | call {es : List (BuildCall × BuildReply)} {p q : Problem} {c : BuildCall} {r : BuildReply} :
    Building es p → c.Fits → c.run p = .ok (r, q) → Building (es ++ [(c, r)]) q

/-- The first problem has the propagators of the second, with the same subscribers, and all
its variables. -/
structure Problem.Keeps (q p : Problem) : Prop where
  propagators : q.network.propagators = p.network.propagators
  subscribers : ∀ (d : DomainId) (b : Bound),
    q.network.subscribersOf d b = p.network.subscribersOf d b
  views : ∀ {x : VariableId} {v : View},
    p.network.views.get? x = some v → q.network.views.get? x = some v

/-- The last posted first, each once and all among the first `n`. -/
structure LastFirst (n : Nat) (ids : List PropagatorId) : Prop where
  descending : ids.Pairwise fun a b => b.index < a.index
  lt : ∀ id ∈ ids, id.index < n

/-- A change of the bound makes it necessary to run the propagator again: the shared domain
stands behind one of its variables, whose triggers contain the bound. -/
def Network.Wakes (n : Network) (id : PropagatorId) (d : DomainId) (b : Bound) : Prop :=
  ∃ r v t, n.propagators.get? id = some r ∧ (v, t) ∈ r.views.zip r.triggers ∧ v.domain = d ∧
    t.on b = true

/-- The tables of a problem hold what the calls that built it asked for. -/
structure Problem.Exact (p : Problem) (es : List (BuildCall × BuildReply)) : Prop where
  /-- A call that is refused leaves the problem as it is. -/
  kept : ∀ {c : BuildCall} {e : BuildError} {q : Problem}, c.run p = .ok (.refused e, q) → q = p
  /-- The identifiers of the propagators are those that were handed out, in that order. -/
  numbered : es.filterMap (·.2.posted?) = p.network.propagators.keys
  /-- A propagator is what was registered, whatever was added later, in its record and in flat
  arrays. -/
  registered : ∀ {xs : List VariableId} {c : Constraint} {parameters : List Int}
    {id : PropagatorId}, (.addPropagator xs c parameters, .posted id) ∈ es →
      ∃ views, List.Forall₂ (fun x v => p.network.views.get? x = some v) xs views ∧
        p.network.propagators.get? id = some (.post c views parameters) ∧
        p.network.layout.Registers id (.post c views parameters)
  /-- In the order of posting, no propagator subscribes to a bound twice. -/
  ascending : ∀ (d : DomainId) (b : Bound),
    (p.network.subscribersOf d b).reverse.Pairwise fun i j => i.index < j.index
  subscribed : ∀ {id : PropagatorId} {d : DomainId} {b : Bound},
    id ∈ p.network.subscribersOf d b ↔ p.network.Wakes id d b
  selfAliasing : ∀ {id : PropagatorId} {r : Propagator}, p.network.propagators.get? id = some r →
    (r.selfAliasing = true ↔ ∃ (i j : Nat) (v w : View), i < j ∧ r.views[i]? = some v ∧
      r.views[j]? = some w ∧ v.domain = w.domain)
  inside : p.current.Inside p.network.initial
  /-- The offset of a variable keeps its initial bounds among the values. -/
  carried : ∀ v ∈ p.network.views.toList, p.network.Carries v

variable {p q s : Problem} {c : BuildCall} {r : BuildReply} {es : List (BuildCall × BuildReply)}

/-! ### What a call leaves as it is -/

/-- What is checked before anything changes is refused with the problem it was checked for. -/
theorem problem_of_mapError {α : Type} {a : Except BuildError α} {e : Refusal}
    (h : a.mapError (Refusal.mk · p) = .error e) : e.problem = p := by
  cases a with
  | error cause =>
    obtain rfl := Except.error.inj h
    rfl
  | ok a => cases h

theorem addOffsetVariable_refused {d : DomainId} {offset : Int} {e : Refusal}
    (h : p.addOffsetVariable d offset = .error e) : e.problem = p := by
  unfold Problem.addOffsetVariable at h
  split at h
  · obtain rfl := Except.error.inj h
    rfl
  · split at h
    · cases h
    · obtain rfl := Except.error.inj h
      rfl

/-- The tables are written only once the variables and the parameters have been checked. -/
theorem addPropagator_refused {xs : List VariableId} {k : Constraint} {parameters : List Int}
    {e : Refusal} (h : p.addPropagator xs k parameters = .error e) : e.problem = p := by
  rcases bind_eq_error.1 h with hviews | ⟨views, -, h⟩
  · exact problem_of_mapError hviews
  · rcases bind_eq_error.1 h with hvalid | ⟨_, -, h⟩
    · exact problem_of_mapError hvalid
    · cases h

theorem restrictInitial_refused {x : VariableId} {min max : Int} {e : Refusal}
    (h : p.restrictInitial x min max = .error e) : e.problem = p := by
  unfold Problem.restrictInitial at h
  split at h
  · obtain rfl := Except.error.inj h
    rfl
  · dsimp only at h
    split at h
    · obtain rfl := Except.error.inj h
      rfl
    · cases h

theorem BuildReply.posted?_of_isQuiet (h : r.isQuiet) : r.posted? = none := by
  cases r with
  | posted => cases h
  | _ => rfl

theorem Problem.Keeps.refl (p : Problem) : p.Keeps p := ⟨rfl, fun _ _ => rfl, id⟩

theorem Problem.Keeps.trans (hs : s.Keeps q) (hq : q.Keeps p) : s.Keeps p where
  propagators := hs.propagators.trans hq.propagators
  subscribers d b := (hs.subscribers d b).trans (hq.subscribers d b)
  views h := hs.views (hq.views h)

theorem Keyed.get?_push_of_get? {κ α : Type} [Key κ] {t : Keyed κ α} {k : κ} {a b : α}
    (h : t.get? k = some a) : (t.push b).2.get? k = some a :=
  (Keyed.get?_push_of_lt (Keyed.lt_size_of_get? h)).trans h

/-- A new shared domain has no subscribers. -/
theorem listed_push (s : Keyed DomainId Subscribers) (d : DomainId) (b : Bound) :
    listed (s.push ⟨[], []⟩).2 d b = listed s d b := by
  rw [listed, listed, Keyed.get?_push]
  split
  · rename_i hd
    have hnone : s.get? d = none := by
      rw [Keyed.get?_eq_getElem?, List.getElem?_eq_none_iff, Keyed.length_toList]
      exact Nat.le_of_eq hd.symm
    rw [hnone]
    cases b <;> rfl
  · rfl

theorem addVariable_keeps (p : Problem) (i : Interval) : (p.addVariable i).2.Keeps p := by
  obtain ⟨⟨initial, views, propagators, subscribers⟩, current⟩ := p
  exact ⟨rfl, fun d b => listed_push subscribers d b, Keyed.get?_push_of_get?⟩

theorem addVariables_keeps (p : Problem) (is : List Interval) : (p.addVariables is).2.Keeps p := by
  induction is generalizing p with
  | nil => exact .refl p
  | cons i is ih => exact (ih (p.addVariable i).2).trans (addVariable_keeps p i)

theorem addOffsetVariable_keeps {d : DomainId} {offset : Int} {x : VariableId}
    (h : p.addOffsetVariable d offset = .ok (x, q)) : q.Keeps p := by
  unfold Problem.addOffsetVariable at h
  split at h
  · cases h
  · split at h
    · obtain ⟨-, rfl⟩ := Prod.mk.inj (Except.ok.inj h)
      exact ⟨rfl, fun _ _ => rfl, Keyed.get?_push_of_get?⟩
    · cases h

theorem restrictInitial_keeps {x : VariableId} {min max : Int}
    (h : p.restrictInitial x min max = .ok q) : q.Keeps p := by
  unfold Problem.restrictInitial at h
  split at h
  · cases h
  · dsimp only at h
    split at h
    · cases h
    · obtain rfl := Except.ok.inj h
      exact ⟨rfl, fun _ _ => rfl, id⟩

theorem setBound_keeps {x : VariableId} {b : Bound} {value : Int} {changed : Bool}
    (h : p.setBound x b value = .ok (changed, q)) : q.Keeps p := by
  obtain ⟨v, -, h⟩ := bind_eq_ok.1 h
  obtain ⟨-, rfl⟩ := Prod.mk.inj (Except.ok.inj h)
  exact ⟨rfl, fun _ _ => rfl, id⟩

/-- **What a call can do**: it is refused and leaves the problem as it is, it posts a
propagator, or it leaves the propagators and their subscribers as they are. -/
theorem BuildCall.run_cases (h : c.run p = .ok (r, q)) :
    (∃ e, r = .refused e ∧ q = p) ∨
    (∃ xs k parameters id, c = .addPropagator xs k parameters ∧ r = .posted id ∧
      p.addPropagator xs k parameters = .ok (id, q)) ∨
    (r.isQuiet ∧ q.Keeps p ∧ (Built p → c.Fits → Built q)) := by
  cases c with
  | addVariable i =>
    obtain ⟨rfl, rfl⟩ := Prod.mk.inj (Except.ok.inj h)
    exact .inr (.inr ⟨rfl, addVariable_keeps p i, .addVariable⟩)
  | addVariables is =>
    obtain ⟨rfl, rfl⟩ := Prod.mk.inj (Except.ok.inj h)
    exact .inr (.inr ⟨rfl, addVariables_keeps p is, .addVariables⟩)
  | addOffsetVariable d offset =>
    cases hq : p.addOffsetVariable d offset with
    | error e =>
      rw [run, hq] at h
      obtain ⟨rfl, rfl⟩ := Prod.mk.inj (Except.ok.inj h)
      exact .inl ⟨e, rfl, addOffsetVariable_refused hq⟩
    | ok a =>
      rw [run, hq] at h
      obtain ⟨rfl, rfl⟩ := Prod.mk.inj (Except.ok.inj h)
      exact .inr (.inr ⟨rfl, addOffsetVariable_keeps hq, fun hp _ => hp.addOffsetVariable hq⟩)
  | addPropagator xs k parameters =>
    cases hq : p.addPropagator xs k parameters with
    | error e =>
      rw [run, hq] at h
      obtain ⟨rfl, rfl⟩ := Prod.mk.inj (Except.ok.inj h)
      exact .inl ⟨e, rfl, addPropagator_refused hq⟩
    | ok a =>
      rw [run, hq] at h
      obtain ⟨rfl, rfl⟩ := Prod.mk.inj (Except.ok.inj h)
      exact .inr (.inl ⟨xs, k, parameters, a.1, rfl, rfl, hq⟩)
  | setMinValue x value =>
    obtain ⟨⟨changed, q'⟩, hq, h⟩ := bind_eq_ok.1 h
    obtain ⟨rfl, rfl⟩ := Prod.mk.inj (Except.ok.inj h)
    exact .inr (.inr ⟨rfl, setBound_keeps hq, fun hp _ => hp.setBound hq⟩)
  | setMaxValue x value =>
    obtain ⟨⟨changed, q'⟩, hq, h⟩ := bind_eq_ok.1 h
    obtain ⟨rfl, rfl⟩ := Prod.mk.inj (Except.ok.inj h)
    exact .inr (.inr ⟨rfl, setBound_keeps hq, fun hp _ => hp.setBound hq⟩)
  | restrictInitial x min max =>
    cases hq : p.restrictInitial x min max with
    | error e =>
      rw [run, hq] at h
      obtain ⟨rfl, rfl⟩ := Prod.mk.inj (Except.ok.inj h)
      exact .inl ⟨e, rfl, restrictInitial_refused hq⟩
    | ok a =>
      rw [run, hq] at h
      obtain ⟨rfl, rfl⟩ := Prod.mk.inj (Except.ok.inj h)
      exact .inr (.inr ⟨rfl, restrictInitial_keeps hq, fun hp _ => hp.restrictInitial hq⟩)
  | reset =>
    obtain ⟨rfl, rfl⟩ := Prod.mk.inj (Except.ok.inj h)
    exact .inr (.inr ⟨rfl, ⟨rfl, fun _ _ => rfl, id⟩, fun hp _ => hp.reset⟩)

/-- **A refusal leaves the problem as it is.** -/
theorem BuildCall.run_refused {e : BuildError} (h : c.run p = .ok (.refused e, q)) : q = p := by
  obtain ⟨_, _, hq⟩ | ⟨_, _, _, _, _, hr, _⟩ | ⟨hr, _⟩ := run_cases h
  · exact hq
  · cases hr
  · cases hr

theorem Building.built (h : Building es p) : Built p := by
  induction h with
  | start => exact .empty
  | call _ hc hrun ih =>
    obtain ⟨_, _, rfl⟩ | ⟨_, _, _, _, _, _, hq⟩ | ⟨_, _, hbuilt⟩ := BuildCall.run_cases hrun
    · exact ih
    · exact ih.addPropagator hq
    · exact hbuilt ih hc

/-! ### Posting a propagator -/

section Posting

variable {n : Nat} {ids : List PropagatorId} {xs : List VariableId} {k : Constraint}
  {parameters : List Int} {id : PropagatorId} {views : List View}

theorem LastFirst.mono {m : Nat} (h : LastFirst n ids) (hm : n ≤ m) : LastFirst m ids :=
  ⟨h.descending, fun id hid => Nat.lt_of_lt_of_le (h.lt id hid) hm⟩

/-- The latest propagator is added at most once: if it is there, it comes first. -/
theorem LastFirst.add (h : LastFirst (n + 1) ids) :
    LastFirst (n + 1) (Subscribers.add ids ⟨n⟩) := by
  unfold Subscribers.add
  split
  · exact h
  · rename_i hhead
    have hlt (id : PropagatorId) (hid : id ∈ ids) : id.index < n := by
      cases ids with
      | nil => cases hid
      | cons a ids =>
        have ha : a.index ≠ n := fun ha => hhead (congrArg (fun i => some (PropagatorId.mk i)) ha)
        have hale := h.lt a List.mem_cons_self
        rcases List.mem_cons.1 hid with rfl | hid
        · omega
        · have := (List.pairwise_cons.1 h.descending).1 id hid
          omega
    refine ⟨List.pairwise_cons.2 ⟨hlt, h.descending⟩, fun id hid => ?_⟩
    rcases List.mem_cons.1 hid with rfl | hid
    · exact Nat.lt_succ_self n
    · exact h.lt id hid

/-- Subscribing the latest propagator leaves the subscribers of each bound in order. -/
theorem LastFirst.subscribeAll {ps : List (View × Triggers)} {t : Keyed DomainId Subscribers}
    (h : ∀ d b, LastFirst (n + 1) (listed t d b)) (d : DomainId) (b : Bound) :
    LastFirst (n + 1) (listed (Problem.subscribeAll ⟨n⟩ ps t) d b) := by
  induction ps generalizing t with
  | nil => exact h d b
  | cons a ps ih =>
    refine ih fun d b => ?_
    rw [listed_modify]
    split
    · exact (h d b).add
    · exact h d b

theorem addPropagator_lastFirst (h : p.addPropagator xs k parameters = .ok (id, q))
    (hp : ∀ d b, LastFirst p.numPropagators (p.network.subscribersOf d b)) (d : DomainId)
    (b : Bound) : LastFirst q.numPropagators (q.network.subscribersOf d b) := by
  obtain ⟨views, -, -, -, rfl⟩ := addPropagator_eq_ok h
  have hsize : Keyed.size (p.network.propagators.push (.post k views parameters)).2 =
      p.numPropagators + 1 := Keyed.size_push ..
  show LastFirst (Keyed.size _) _
  rw [hsize]
  exact .subscribeAll (fun d b => (hp d b).mono (Nat.le_succ _)) d b

/-- Posting wakes the new propagator by the bounds that trigger it, and the others as
before. -/
theorem addPropagator_wakes (hn : p.network.WellFormed)
    (h : p.addPropagator xs k parameters = .ok (id, q))
    (hp : ∀ {id d b}, id ∈ p.network.subscribersOf d b ↔ p.network.Wakes id d b)
    {id' : PropagatorId} {d : DomainId} {b : Bound} :
    id' ∈ q.network.subscribersOf d b ↔ q.network.Wakes id' d b := by
  obtain ⟨views, hv, -, -, rfl⟩ := addPropagator_eq_ok h
  show id' ∈ listed (Problem.subscribeAll _ _ _) d b ↔ ∃ r v t, (Keyed.push _ _).2.get? id' = _ ∧ _
  rw [mem_listed_subscribeAll, Keyed.get?_push]
  constructor
  · rintro (⟨rfl, -, ⟨v, t⟩, hvt, hd, ht⟩ | hold)
    · refine ⟨_, v, t, if_pos rfl, hvt, congrArg DomainId.mk hd, ht⟩
    · obtain ⟨r, v, t, hr, hvt, hd, ht⟩ := hp.1 hold
      refine ⟨r, v, t, ?_, hvt, hd, ht⟩
      rw [if_neg (Nat.ne_of_lt (Keyed.lt_size_of_get? hr))]
      exact hr
  · rintro ⟨r, v, t, hr, hvt, rfl, ht⟩
    split at hr
    · rename_i hid
      obtain rfl := Option.some.inj hr
      have hlt := (hn.carried v (viewsOf_mem hv (List.of_mem_zip hvt).1)).has
      refine .inl ⟨congrArg PropagatorId.mk hid, ?_, (v, t), hvt, rfl, ht⟩
      exact decide_eq_true (Nat.lt_of_lt_of_eq hlt hn.numbered.symm)
    · exact .inr (hp.2 ⟨r, v, t, hr, hvt, rfl, ht⟩)

theorem viewsOf_forall₂ (h : p.viewsOf xs = .ok views) :
    List.Forall₂ (fun x v => p.network.views.get? x = some v) xs views := by
  induction xs generalizing views with
  | nil =>
    obtain rfl := Except.ok.inj h
    exact .nil
  | cons x xs ih =>
    unfold Problem.viewsOf at h
    split at h
    · cases h
    · rename_i v hv
      obtain ⟨vs, hvs, h⟩ := bind_eq_ok.1 h
      obtain rfl := Except.ok.inj h
      exact .cons hv (ih hvs)

/-- The propagator runs again after a change of its own if and only if it sees one. -/
theorem selfAliasing_post_iff : (Propagator.post k views parameters).selfAliasing = true ↔
    ∃ (i j : Nat) (v w : View), i < j ∧ views[i]? = some v ∧ views[j]? = some w ∧
      v.domain = w.domain := by
  have hpost : (Propagator.post k views parameters).selfAliasing = true ↔
      ¬ (views.map View.domain).Nodup := by
    simp [Propagator.post]
  rw [hpost, List.Nodup, List.pairwise_iff_getElem]
  simp only [List.length_map, List.getElem_map]
  push Not
  constructor
  · rintro ⟨i, j, hi, hj, hij, heq⟩
    exact ⟨i, j, views[i], views[j], hij, List.getElem?_eq_getElem hi,
      List.getElem?_eq_getElem hj, heq⟩
  · rintro ⟨i, j, v, w, hij, hv, hw, heq⟩
    obtain ⟨hi, rfl⟩ := List.getElem?_eq_some_iff.1 hv
    obtain ⟨hj, rfl⟩ := List.getElem?_eq_some_iff.1 hw
    exact ⟨i, j, hi, hj, hij, heq⟩

end Posting

/-! ### What the calls keep -/

theorem Keyed.keys_push {κ α : Type} [Key κ] (t : Keyed κ α) (a : α) :
    (t.push a).2.keys = t.keys ++ [(t.push a).1] := by
  rw [keys, size_push, List.range_succ, List.map_append]
  rfl

/-- The tables after some calls, as far as one call depends on them. -/
structure Problem.Ledger (p : Problem) (es : List (BuildCall × BuildReply)) : Prop where
  numbered : es.filterMap (·.2.posted?) = p.network.propagators.keys
  registered : ∀ {xs : List VariableId} {c : Constraint} {parameters : List Int}
    {id : PropagatorId}, (.addPropagator xs c parameters, .posted id) ∈ es →
      ∃ views, List.Forall₂ (fun x v => p.network.views.get? x = some v) xs views ∧
        p.network.propagators.get? id = some (.post c views parameters)
  lastFirst : ∀ d b, LastFirst p.numPropagators (p.network.subscribersOf d b)
  subscribed : ∀ {id d b}, id ∈ p.network.subscribersOf d b ↔ p.network.Wakes id d b

theorem Problem.Ledger.start : Problem.empty.Ledger [] where
  numbered := rfl
  registered h := absurd h List.not_mem_nil
  lastFirst _ _ := ⟨.nil, fun _ h => absurd h List.not_mem_nil⟩
  subscribed := by
    refine ⟨fun h => absurd h List.not_mem_nil, ?_⟩
    rintro ⟨r, v, t, hr, -⟩
    exact absurd (Keyed.mem_of_get? hr) List.not_mem_nil

theorem Problem.Ledger.keep (h : p.Ledger es) (hq : q.Keeps p) (hr : r.posted? = none) :
    q.Ledger (es ++ [(c, r)]) where
  numbered := by
    rw [List.filterMap_append, h.numbered, hq.propagators]
    simp [hr]
  registered hmem := by
    rcases List.mem_append.1 hmem with hmem | hmem
    · obtain ⟨views, hviews, hget⟩ := h.registered hmem
      exact ⟨views, hviews.imp fun _ _ => hq.views, hq.propagators ▸ hget⟩
    · obtain ⟨-, rfl⟩ := Prod.mk.inj (List.mem_singleton.1 hmem)
      cases hr
  lastFirst d b := by
    rw [Problem.numPropagators, hq.propagators, hq.subscribers]
    exact h.lastFirst d b
  subscribed {id d b} := by
    rw [hq.subscribers, h.subscribed, Network.Wakes, Network.Wakes, hq.propagators]

theorem Problem.Ledger.post (h : p.Ledger es) (hn : p.network.WellFormed)
    {xs : List VariableId} {k : Constraint} {parameters : List Int} {id : PropagatorId}
    (hq : p.addPropagator xs k parameters = .ok (id, q)) :
    q.Ledger (es ++ [(.addPropagator xs k parameters, .posted id)]) := by
  refine ⟨?_, fun hmem => ?_, addPropagator_lastFirst hq h.lastFirst,
    addPropagator_wakes hn hq h.subscribed⟩
  · obtain ⟨views, -, -, rfl, rfl⟩ := addPropagator_eq_ok hq
    rw [List.filterMap_append, h.numbered]
    exact (Keyed.keys_push ..).symm
  · obtain ⟨views, hv, -, rfl, rfl⟩ := addPropagator_eq_ok hq
    rcases List.mem_append.1 hmem with hmem | hmem
    · obtain ⟨views', hviews', hget⟩ := h.registered hmem
      exact ⟨views', hviews', Keyed.get?_push_of_get? hget⟩
    · obtain ⟨hcall, hreply⟩ := Prod.mk.inj (List.mem_singleton.1 hmem)
      obtain ⟨rfl, rfl, rfl⟩ := BuildCall.addPropagator.inj hcall
      obtain rfl := BuildReply.posted.inj hreply
      exact ⟨views, viewsOf_forall₂ (p := p) hv, Keyed.get?_push_size rfl⟩

theorem Building.ledger (h : Building es p) : p.Ledger es := by
  induction h with
  | start => exact .start
  | call hp hc hrun ih =>
    obtain ⟨e, rfl, rfl⟩ | ⟨xs, k, parameters, id, rfl, rfl, hq⟩ | ⟨hr, hkeeps, -⟩ :=
      BuildCall.run_cases hrun
    · exact ih.keep (.refl _) rfl
    · exact ih.post hp.built.sound.network hq
    · exact ih.keep hkeeps (BuildReply.posted?_of_isQuiet hr)

/-- **The tables of a problem hold exactly what was asked for**, after any calls that build
it: refused calls leave it alone, propagators stay as they were registered, and every bound
has the propagators that it triggers, once each and in order. -/
theorem building_exact (h : Building es p) : p.Exact es := by
  obtain ⟨hn, hin⟩ := h.built.sound
  refine ⟨BuildCall.run_refused, h.ledger.numbered, fun hmem => ?_, fun d b => ?_,
    h.ledger.subscribed, fun hr => ?_, hin, hn.carried⟩
  · obtain ⟨views, hviews, hget⟩ := h.ledger.registered hmem
    exact ⟨views, hviews, hget, Network.layout_registers hn hget⟩
  · exact List.pairwise_reverse.2 (h.ledger.lastFirst d b).descending
  · rw [(hn.posted _ (Keyed.mem_of_get? hr)).eq_post]
    exact selfAliasing_post_iff

/-- Two postings over variables that share a domain, with a refusal between them. -/
theorem building_exact_shared : ∃ es p, Building es p ∧ p.Exact es ∧
    es.map Prod.snd = [.created [⟨0⟩, ⟨1⟩], .created [⟨2⟩], .posted ⟨0⟩,
      .refused (.variableOutOfRange 7 3), .created [⟨3⟩], .posted ⟨1⟩, .moved true, .done, .done] ∧
    p.network.subscribersOf ⟨0⟩ .max = [⟨1⟩, ⟨0⟩] ∧
    p.network.subscribersOf ⟨0⟩ .min = [⟨0⟩] := by
  have h₁ := Building.start.call (c := .addVariables [⟨0, 9⟩, ⟨-5, 5⟩]) (by decide) rfl
  have h₂ := h₁.call (c := .addOffsetVariable ⟨0⟩ 2) (by decide) rfl
  have h₃ := h₂.call (c := .addPropagator [⟨0⟩, ⟨2⟩, ⟨1⟩] .allDifferent []) (by decide) rfl
  have h₄ := h₃.call (c := .addPropagator [⟨7⟩] .allDifferent []) (by decide) rfl
  have h₅ := h₄.call (c := .addVariable ⟨1, 1⟩) (by decide) rfl
  have h₆ := h₅.call (c := .addPropagator [⟨3⟩, ⟨0⟩] .affineLeq [1, -1, 0]) (by decide) rfl
  have h₇ := h₆.call (c := .setMinValue ⟨2⟩ 4) (by decide) rfl
  have h₈ := h₇.call (c := .restrictInitial ⟨0⟩ 1 8) (by decide) rfl
  have h := h₈.call (c := .reset) (by decide) rfl
  exact ⟨_, _, h, building_exact h, rfl, rfl, rfl⟩

end BoundsSolver
