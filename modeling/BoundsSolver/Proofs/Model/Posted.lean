/-
# What a model says

A model is made of variables with intervals of their own and of constraints posted over them.
Its solutions are the assignments within the intervals for which every posting holds
(`solves_post_iff`), whatever the propagators do; `Posting.Holds` reads a posting off the
values of all variables, which is what a solution is handed out as.

Posting fails only for a variable that does not exist or for what `Constraint.validate`
refuses (`post_of_accepted`).
-/

import BoundsSolver.Model.Basic
import BoundsSolver.Proofs.Network.Posting

namespace BoundsSolver

variable {p q : Problem} {is : List Interval} {t : Posting} {ts : List Posting}
  {as values : List Int} {x : VariableId} {vs : List View}

/-! ### Variables with intervals of their own -/

/-- The view of a variable with a shared domain of its own. -/
def View.plain (k : Nat) : View := ⟨⟨k⟩, 0⟩

/-- The second problem is the first with a variable for each interval, from the next shared
domain on. -/
structure Problem.Extends (p q : Problem) (is : List Interval) : Prop where
  initial : q.network.initial.toList = p.network.initial.toList ++ is
  views : q.network.views.toList =
    p.network.views.toList ++ (List.range' p.current.size is.length).map View.plain
  propagators : q.network.propagators = p.network.propagators

theorem addVariables_extends (p : Problem) (is : List Interval) :
    p.Extends (p.addVariables is).2 is := by
  induction is generalizing p with
  | nil =>
    exact ⟨(List.append_nil _).symm, (List.append_nil _).symm, rfl⟩
  | cons i is ih =>
    obtain ⟨⟨initial, views, propagators, subscribers⟩, current⟩ := p
    obtain ⟨hinitial, hviews, hpropagators⟩ :=
      ih (Problem.addVariable ⟨⟨initial, views, propagators, subscribers⟩, current⟩ i).2
    refine ⟨hinitial.trans ?_, hviews.trans ?_, hpropagators⟩
    · rw [List.append_cons]
      exact congrArg (· ++ is) (Keyed.toList_push initial i)
    · show (views.push _).2.toList ++ (List.range' (current.push i).2.size _).map _ = _
      rw [Keyed.toList_push, Keyed.size_push, List.append_assoc]
      rfl

namespace Problem

@[simp] theorem toList_initial_ofIntervals (is : List Interval) :
    (ofIntervals is).network.initial.toList = is :=
  (addVariables_extends .empty is).initial

@[simp] theorem toList_views_ofIntervals (is : List Interval) :
    (ofIntervals is).network.views.toList = (List.range is.length).map View.plain := by
  rw [List.range_eq_range']
  exact (addVariables_extends .empty is).views

@[simp] theorem numVariables_ofIntervals (is : List Interval) :
    (ofIntervals is).numVariables = is.length := by
  have hlen := congrArg List.length (toList_views_ofIntervals is)
  rw [List.length_map, List.length_range] at hlen
  exact hlen

@[simp] theorem propagators_ofIntervals (is : List Interval) :
    (ofIntervals is).network.propagators = .empty :=
  (addVariables_extends .empty is).propagators

end Problem

@[simp] theorem View.value_plain (k : Nat) (as : List Int) :
    (View.plain k).value as = as.getD k 0 :=
  Int.add_zero _

/-- The values of plain variables are the assignment. -/
theorem map_value_plain (as : List Int) :
    (List.range as.length).map (fun k => (View.plain k).value as) = as := by
  refine List.ext_getElem (by simp) fun k hk hk' => ?_
  simp [hk']

/-- Without further variables a solution is handed out as it is. -/
theorem valuesOf_ofIntervals (h : as.length = is.length) :
    (Problem.ofIntervals is).network.valuesOf as = as := by
  rw [Network.valuesOf, Problem.toList_views_ofIntervals, List.map_map, ← h]
  exact map_value_plain as

/-- The solutions are a matter of the initial box and the propagators. -/
theorem Network.solves_congr {m n : Network} (hinitial : m.initial = n.initial)
    (hpropagators : m.propagators = n.propagators) : m.Solves as ↔ n.Solves as := by
  constructor
  · rintro ⟨hwithin, hholds⟩
    exact ⟨hinitial ▸ hwithin, fun r hr => hholds r (hpropagators ▸ hr)⟩
  · rintro ⟨hwithin, hholds⟩
    exact ⟨hinitial ▸ hwithin, fun r hr => hholds r (hpropagators ▸ hr)⟩

/-- Without propagators the solutions are the assignments within the intervals. -/
theorem solves_ofIntervals_iff : (Problem.ofIntervals is).network.Solves as ↔ Mem as is := by
  constructor
  · intro h
    simpa using h.within
  · intro h
    refine ⟨by simpa using h, fun r hr => ?_⟩
    rw [Problem.propagators_ofIntervals] at hr
    cases hr

/-! ### Postings -/

/-- The values of all variables satisfy the constraint. -/
def Posting.Holds (t : Posting) (values : List Int) : Prop :=
  t.constraint.Holds (t.arguments.map fun x => values.getD x.index 0) t.parameters

instance (t : Posting) (values : List Int) : Decidable (t.Holds values) :=
  inferInstanceAs (Decidable (Constraint.Holds ..))

theorem map_value_of_viewsOf {xs : List VariableId} (h : p.viewsOf xs = .ok vs)
    (as : List Int) :
    vs.map (·.value as) = xs.map fun x => (p.network.valuesOf as).getD x.index 0 := by
  induction xs generalizing vs with
  | nil =>
    obtain rfl := Except.ok.inj h
    rfl
  | cons x xs ih =>
    unfold Problem.viewsOf at h
    split at h
    · cases h
    · rename_i v hv
      obtain ⟨ws, hws, h⟩ := bind_eq_ok.1 h
      obtain rfl := Except.ok.inj h
      have hx : (p.network.valuesOf as)[x.index]? = some (v.value as) := by
        rw [Network.valuesOf, List.getElem?_map]
        rw [Keyed.get?_eq_getElem?] at hv
        exact congrArg (Option.map _) hv
      rw [List.map_cons, List.map_cons, ih hws, List.getD_eq_getElem?_getD, hx]
      rfl

/-- The propagator of a posting stands for it. -/
theorem holds_posted_iff {r : Propagator} (h : p.posted t = .ok r) :
    r.Holds as ↔ t.Holds (p.network.valuesOf as) := by
  obtain ⟨views, hv, h⟩ := bind_eq_ok.1 h
  obtain ⟨_, -, h⟩ := bind_eq_ok.1 h
  obtain rfl := Except.ok.inj h
  show t.constraint.Holds (views.map (·.value as)) t.parameters ↔ _
  rw [map_value_of_viewsOf hv as]
  rfl

/-- **The solutions of a posted model** are those of what it was posted to for which every
posting holds. -/
theorem solves_post_iff (h : p.post ts = .ok q) :
    q.network.Solves as ↔
      p.network.Solves as ∧ ∀ t ∈ ts, t.Holds (p.network.valuesOf as) := by
  obtain ⟨rs, hrs⟩ := posted_of_post h
  obtain ⟨q', hq', hag, hlist⟩ := post_of_posted hrs
  obtain rfl := Except.ok.inj (h.symm.trans hq')
  have hposted : (∀ r ∈ rs, r.Holds as) ↔ ∀ t ∈ ts, t.Holds (p.network.valuesOf as) := by
    clear hlist hq' h
    induction hrs with
    | nil => exact ⟨fun _ _ h => absurd h List.not_mem_nil, fun _ _ h => absurd h List.not_mem_nil⟩
    | cons ht _ ih => rw [List.forall_mem_cons, List.forall_mem_cons, holds_posted_iff ht, ih]
  rw [← hposted]
  constructor
  · rintro ⟨hwithin, hholds⟩
    rw [hag.initial] at hwithin
    refine ⟨⟨hwithin, fun r hr => hholds r ?_⟩, fun r hr => hholds r ?_⟩
    · rw [hlist]
      exact List.mem_append_left _ hr
    · rw [hlist]
      exact List.mem_append_right _ hr
  · rintro ⟨⟨hwithin, hholds⟩, hnew⟩
    refine ⟨hag.initial ▸ hwithin, fun r hr => ?_⟩
    rw [hlist] at hr
    rcases List.mem_append.1 hr with hr | hr
    · exact hholds r hr
    · exact hnew r hr

/-- Posting changes no variable. -/
theorem valuesOf_post (h : p.post ts = .ok q) (as : List Int) :
    q.network.valuesOf as = p.network.valuesOf as := by
  rw [Network.valuesOf, (post_agrees h).views]
  rfl

/-- The variables exist and their number and parameters pass the check. -/
structure Problem.Accepts (p : Problem) (t : Posting) : Prop where
  known : ∀ x ∈ t.arguments, x.index < p.numVariables
  valid : ∀ bounds : List Interval, bounds.length = t.arguments.length →
    t.constraint.validate bounds t.parameters = .ok ()

theorem viewsOf_of_known {xs : List VariableId} (h : ∀ x ∈ xs, x.index < p.numVariables) :
    ∃ vs, p.viewsOf xs = .ok vs ∧ vs.length = xs.length := by
  induction xs with
  | nil => exact ⟨[], rfl, rfl⟩
  | cons x xs ih =>
    obtain ⟨hx, hxs⟩ := List.forall_mem_cons.1 h
    obtain ⟨vs, hvs, hlen⟩ := ih hxs
    have hv := Keyed.get?_eq_some_entry (t := p.network.views) (Keyed.has_iff.2 hx)
    refine ⟨p.network.views.entry x :: vs, ?_, congrArg (· + 1) hlen⟩
    unfold Problem.viewsOf
    rw [hv]
    exact bind_of_ok hvs

/-- What is accepted can be posted. -/
theorem post_of_accepted (h : ∀ t ∈ ts, p.Accepts t) : ∃ q, p.post ts = .ok q := by
  have hposted (t : Posting) (ht : t ∈ ts) : ∃ r, p.posted t = .ok r := by
    obtain ⟨vs, hvs, hlen⟩ := viewsOf_of_known (h t ht).known
    have hvalid := (h t ht).valid (vs.map (·.read p.network.initial)) (by simpa using hlen)
    exact ⟨_, bind_eq_ok.2 ⟨vs, hvs, bind_eq_ok.2 ⟨(), hvalid, rfl⟩⟩⟩
  obtain ⟨rs, hrs⟩ : ∃ rs, List.Forall₂ (fun t r => p.posted t = .ok r) ts rs := by
    clear h
    induction ts with
    | nil => exact ⟨[], .nil⟩
    | cons t ts ih =>
      obtain ⟨ht, hts⟩ := List.forall_mem_cons.1 hposted
      obtain ⟨r, hr⟩ := ht
      obtain ⟨rs, hrs⟩ := ih hts
      exact ⟨r :: rs, .cons hr hrs⟩
  obtain ⟨q, hq, -⟩ := post_of_posted hrs
  exact ⟨q, hq⟩

theorem Problem.accepts_allDifferent {xs : List VariableId} (hne : xs ≠ [])
    (h : ∀ x ∈ xs, x.index < p.numVariables) : p.Accepts ⟨.allDifferent, xs, []⟩ where
  known := h
  valid bounds hlen := by
    have hpos : 0 < bounds.length := hlen ▸ List.length_pos_iff.2 hne
    have hmet : VariableNeed.oneVariable.metBy bounds.length = true := decide_eq_true hpos
    exact if_pos hmet

/-- Linear constraints are accepted if there is a coefficient for each variable. -/
theorem Problem.accepts_affine {c : Constraint} (hc : c = .affineEq ∨ c = .affineLeq)
    {xs : List VariableId} {parameters : List Int} (hne : xs ≠ [])
    (hlen : parameters.length = xs.length + 1) (h : ∀ x ∈ xs, x.index < p.numVariables) :
    p.Accepts ⟨c, xs, parameters⟩ where
  known := h
  valid bounds hbounds := by
    have hbounds : bounds.length = xs.length := hbounds
    have hpos : 0 < bounds.length := hbounds ▸ List.length_pos_iff.2 hne
    have hmet : VariableNeed.oneVariable.metBy bounds.length = true := decide_eq_true hpos
    have hvariables : c.expectVariables bounds .oneVariable = .ok () := if_pos hmet
    have hparameters : c.expectParameters parameters (bounds.length + 1) = .ok () :=
      if_pos (hbounds ▸ hlen)
    rcases hc with rfl | rfl
    · exact (bind_of_ok hvariables).trans hparameters
    · exact (bind_of_ok hvariables).trans hparameters

/-! ### Reading a solution -/

/-- The assignments within equal intervals. -/
theorem mem_replicate_iff {n : Nat} {i : Interval} :
    Mem as (List.replicate n i) ↔ as.length = n ∧ ∀ v ∈ as, i.min ≤ v ∧ v ≤ i.max := by
  induction n generalizing as with
  | zero =>
    constructor
    · rintro ⟨⟩
      exact ⟨rfl, fun _ h => absurd h List.not_mem_nil⟩
    · rintro ⟨hlen, -⟩
      obtain rfl := List.length_eq_zero_iff.1 hlen
      exact .nil
  | succ n ih =>
    rw [List.replicate_succ]
    constructor
    · rintro (_ | ⟨hmin, hmax, hrest⟩)
      obtain ⟨hlen, hrest⟩ := ih.1 hrest
      exact ⟨congrArg (· + 1) hlen, List.forall_mem_cons.2 ⟨⟨hmin, hmax⟩, hrest⟩⟩
    · rintro ⟨hlen, hall⟩
      obtain ⟨v, vs, rfl⟩ := List.exists_cons_of_length_eq_add_one hlen
      obtain ⟨hv, hvs⟩ := List.forall_mem_cons.1 hall
      exact mem_cons_iff.2 ⟨hv.1, hv.2, ih.2 ⟨Nat.succ.inj hlen, hvs⟩⟩

/-- A variable that exists has its value in a solution. -/
theorem valueIn_of_lt (h : x.index < values.length) :
    x.valueIn values = .ok (values.getD x.index 0) := by
  unfold VariableId.valueIn
  rw [List.getD_eq_getElem?_getD, List.getElem?_eq_getElem h]
  rfl

/-- Variables that exist are read one after the other. -/
theorem mapM_valueIn {xs : List VariableId} (h : ∀ x ∈ xs, x.index < values.length) :
    xs.mapM (fun x => x.valueIn values) = .ok (xs.map fun x => values.getD x.index 0) :=
  mapM_of_ok fun x hx => valueIn_of_lt (h x hx)

/-- Going through positions in order makes the list of what stands there. -/
theorem map_range_eq_ofFn {α : Type} {n : Nat} {f : Nat → α} {g : Fin n → α}
    (h : ∀ i : Fin n, f i = g i) : (List.range n).map f = List.ofFn g := by
  refine List.ext_getElem (by simp) fun k hk hk' => ?_
  rw [List.getElem_map, List.getElem_range, List.getElem_ofFn]
  exact h ⟨k, by simpa using hk⟩

theorem length_valuesOf (n : Network) (as : List Int) :
    (n.valuesOf as).length = n.views.size :=
  List.length_map ..

/-! ### Models that are refused -/

theorem parameter_eq_ok_iff {kind : ModelKind} {n : Nat} {v : Int} :
    kind.parameter n = .ok v ↔ Width.value.Fits n ∧ v = n := by
  unfold ModelKind.parameter
  split
  · rename_i hn
    simp [hn, eq_comm]
  · rename_i hn
    simp [hn]

end BoundsSolver
