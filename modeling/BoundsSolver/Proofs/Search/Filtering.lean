/-
# Filtering a node

A state is at rest (`State.Resting`) when nothing is triggered and the box is stable.
Trials and removed values lead from such states to such states; a value is removed
only if no solution of the box takes it, and it takes the solutions with the value and
those without to make all of them (`mem_tighten_or`).

`filter_filtered` sums up what the search needs of either consistency: the node keeps
its solutions, and unless it fails it comes to rest.  Filtering completes, since it
starts propagation only in states from which that completes (`filter_completes`).
-/

import BoundsSolver.Proofs.Propagation.Grounded
import BoundsSolver.Search.Solver

namespace BoundsSolver

/-- Nothing is triggered, and the box is stable for every propagator. -/
structure State.Resting (n : Network) (s : State) : Prop where
  coherent : s.Coherent n
  alive : s.box.Alive
  stable : n.StableOn s.box
  idle : ∀ id, id ∉ s.triggered

/-- What filtering makes of a state; `kept` tells whether it succeeded. -/
structure Filtered (n : Network) (s t : State) (kept : Bool) : Prop where
  coherent : t.Coherent n
  inside : t.box.Inside s.box
  rests : kept = true → t.Resting n
  /-- No solution is lost. -/
  keeps : ∀ {as : List Int}, Mem as s.box.toList → n.Satisfies as →
    kept = true ∧ Mem as t.box.toList

variable {n : Network} {s t u : State} {o : Outcome} {b : Box} {as : List Int}
  {kept shaved : Bool} {br : Branch} {d : DomainId} {x : Bound}

/-! ### States at rest -/

namespace State

theorem Resting.tell (h : s.Resting n) (e : Event) : (s.tell e).Resting n :=
  ⟨h.coherent.tell e, h.alive, h.stable, h.idle⟩

theorem Resting.count (h : s.Resting n) (f : Statistics → Statistics) : (s.count f).Resting n :=
  ⟨h.coherent.count f, h.alive, h.stable, h.idle⟩

theorem Resting.primed (h : s.Resting n) : s.Primed n where
  coherent := h.coherent
  alive := h.alive
  attends _ _ hq := .inl (h.stable _ (Keyed.mem_of_get? hq))

end State

/-- Propagation filters: a solution within the box is a box that all propagators spare. -/
theorem Propagated.filtered (h : Propagated n s t kept) (hn : n.WellFormed)
    (hs : s.box.Inside n.initial) : Filtered n s t kept where
  coherent := h.coherent
  inside := h.inside
  rests hk := ⟨h.coherent, h.alive hk, h.stable hk, h.idle⟩
  keeps {as} hm hsat := by
    have hinit := Box.mem_of_inside hm hs
    obtain ⟨hk, hin⟩ := h.spares (.point as) (Box.point_inside_iff.2 hm) (Box.point_alive as)
      fun q hq => (hn.posted q hq).spares_of_holds hinit (hsat q hq)
    exact ⟨hk, Box.point_inside_iff.1 hin⟩

theorem propagate_filtered (hn : n.WellFormed) (hs : s.Primed n)
    (h : propagate n s = .ok (kept, t)) : Filtered n s t kept :=
  (propagate_spec hn hs h).filtered hn hs.coherent.inside

theorem State.Resting.filtered (h : s.Resting n) : Filtered n s s true where
  coherent := h.coherent
  inside := .refl _
  rests _ := h
  keeps hm _ := ⟨rfl, hm⟩

/-- Filtering goes on from a state that has lost no solution. -/
theorem Filtered.after (h : Filtered n t u kept) (hin : t.box.Inside s.box)
    (hk : ∀ {as : List Int}, Mem as s.box.toList → n.Satisfies as → Mem as t.box.toList) :
    Filtered n s u kept where
  coherent := h.coherent
  inside := h.inside.trans hin
  rests := h.rests
  keeps hm hs := h.keeps (hk hm hs) hs

theorem Filtered.trans (h : Filtered n s t true) (h' : Filtered n t u kept) :
    Filtered n s u kept :=
  h'.after h.inside fun hm hs => (h.keeps hm hs).2

/-! ### Tightened boxes -/

theorem tighten_alive (ha : b.Alive)
    (h : ((b.entry br.domain).tighten br.bound br.value).min ≤
      ((b.entry br.domain).tighten br.bound br.value).max) : (Box.tighten b br).Alive := by
  refine Box.alive_iff.2 fun e => ?_
  rw [Box.entry_tighten]
  split
  · rename_i he
    rw [← he.1]
    exact h
  · exact ha.bounds e

/-- A shared domain with several values has an entry. -/
theorem lt_size_of_lt (h : (b.entry d).min < (b.entry d).max) : d.index < b.size := by
  by_contra hn
  rw [Box.entry_of_le (Nat.not_lt.1 hn)] at h
  exact absurd h (Int.lt_irrefl 0)

/-- Committing to one end of a shared domain with several values leaves that value. -/
theorem tighten_opposite_alive (ha : b.Alive) :
    (Box.tighten b ⟨d, x.opposite, (b.entry d).get x⟩).Alive := by
  have hd := ha.bounds d
  refine tighten_alive ha ?_
  cases x
  · simp only [Bound.opposite, Interval.get, Interval.tighten, Interval.tightenMax_min,
      Interval.tightenMax_max]
    omega
  · simp only [Bound.opposite, Interval.get, Interval.tighten, Interval.tightenMin_min,
      Interval.tightenMin_max]
    omega

theorem tighten_next_alive {next : Int} (ha : b.Alive)
    (h : (b.entry d).min < (b.entry d).max)
    (hv : nextInwards x ((b.entry d).get x) = .ok next) : (Box.tighten b ⟨d, x, next⟩).Alive := by
  refine tighten_alive ha ?_
  cases x
  · obtain ⟨-, rfl⟩ := Width.add_eq_ok.1 hv
    simp only [Interval.get, Interval.tighten, Interval.tightenMin_min, Interval.tightenMin_max]
    omega
  · obtain ⟨-, rfl⟩ := Width.sub_eq_ok.1 hv
    simp only [Interval.get, Interval.tighten, Interval.tightenMax_min, Interval.tightenMax_max]
    omega

/-- An assignment takes the value at the end of a shared domain or one further in. -/
theorem mem_tighten_or {next : Int} (h : (b.entry d).min < (b.entry d).max)
    (hv : nextInwards x ((b.entry d).get x) = .ok next) (hm : Mem as b.toList) :
    Mem as (Box.tighten b ⟨d, x.opposite, (b.entry d).get x⟩).toList ∨
      Mem as (Box.tighten b ⟨d, x, next⟩).toList := by
  have hlt := lt_size_of_lt h
  have hd := Box.mem_bounds hm d
  rw [Box.mem_tighten_iff hlt, Box.mem_tighten_iff hlt]
  cases x
  · obtain ⟨-, rfl⟩ := Width.add_eq_ok.1 hv
    simp only [Branch.Allows, Bound.opposite, Interval.get, hm, true_and]
    omega
  · obtain ⟨-, rfl⟩ := Width.sub_eq_ok.1 hv
    simp only [Branch.Allows, Bound.opposite, Interval.get, hm, true_and]
    omega

/-! ### Shaving -/

/-- **A trial leaves a state at rest at rest**, and fails only if no solution takes the
branch. -/
theorem trial_spec (hn : n.WellFormed) (hs : s.Resting n) (ha : Box.Alive (s.box.tighten br))
    (h : trial n s br = .ok (kept, t)) :
    t.Resting n ∧ t.box = s.box ∧ t.entailed = s.entailed ∧
      (kept = false → ∀ {as}, Mem as (s.box.tighten br).toList → ¬ n.Satisfies as) := by
  obtain ⟨⟨b, u⟩, hu, h⟩ := bind_eq_ok.1 h
  obtain ⟨rfl, rfl⟩ := Prod.mk.inj (Except.ok.inj h)
  have hp := hs.primed.narrow _ hn ha
  have hspec := propagate_spec hn hp hu
  have hfil := hspec.filtered hn hp.coherent.inside
  refine ⟨⟨⟨hs.coherent.inside, hspec.coherent.faithful, hs.coherent.flags, hs.coherent.settled⟩,
    hs.alive, hs.stable, hspec.idle⟩, rfl, rfl, fun hk {as} hm hsat => ?_⟩
  have := (hfil.keeps hm hsat).1
  rw [hk] at this
  cases this

/-- Removing the value at an end of a shared domain filters the rest. -/
theorem shaveValue_spec (hn : n.WellFormed) (hs : s.Resting n)
    (hlt : (s.box.entry d).min < (s.box.entry d).max)
    (h : shaveValue n s d x ((s.box.entry d).get x) = .ok (kept, t)) :
    ∃ next, nextInwards x ((s.box.entry d).get x) = .ok next ∧
      Filtered n { s with box := s.box.tighten ⟨d, x, next⟩ } t kept := by
  obtain ⟨next, hnext, h⟩ := bind_eq_ok.1 h
  refine ⟨next, hnext, ?_⟩
  have hp := ((hs.tell (.shaving ((s.box.entry d).get x) d)).count fun c =>
    { c with shavedValues := c.shavedValues + 1 }).primed.narrow ⟨d, x, next⟩ hn
      (tighten_next_alive hs.alive hlt hnext)
  exact (propagate_filtered hn hp h).after (.refl _) fun hm _ => hm

/-- **A value whose trial failed is in no solution**, so that removing it loses none. -/
theorem removal_filtered (hn : n.WellFormed) (hs : s.Resting n)
    (hlt : (s.box.entry d).min < (s.box.entry d).max)
    (ht : trial n s ⟨d, x.opposite, (s.box.entry d).get x⟩ = .ok (false, t))
    (hu : shaveValue n t d x ((s.box.entry d).get x) = .ok (kept, u)) :
    Filtered n s u kept := by
  obtain ⟨hrest, hbox, -, hno⟩ := trial_spec hn hs (tighten_opposite_alive hs.alive) ht
  rw [← hbox] at hlt hu
  obtain ⟨next, hnext, hfil⟩ := shaveValue_spec hn hrest hlt hu
  rw [hbox] at hlt hnext hfil
  refine hfil.after (Box.tighten_inside s.box _) fun hm hsat => ?_
  exact (mem_tighten_or hlt hnext hm).resolve_left fun hm' => hno rfl hm' hsat

theorem shaveBound_filtered (hn : n.WellFormed) (hs : s.Resting n)
    (h : shaveBound n s d x shaved = .ok o) : Filtered n s o.state o.kept := by
  fun_induction shaveBound n s d x shaved with
  | case1 s shaved i hi =>
    obtain rfl := Except.ok.inj h
    exact hs.filtered
  | case2 => cases h
  | case3 s shaved i hi value counted t ht =>
    obtain rfl := Except.ok.inj h
    obtain ⟨hrest, hbox, -⟩ := trial_spec hn (hs.count _)
      (tighten_opposite_alive hs.alive) ht
    have hbox : t.box = s.box := hbox
    exact hrest.filtered.after (hbox ▸ .refl _) fun hm _ => hbox ▸ hm
  | case4 => cases h
  | case5 s shaved i hi value counted t ht u hu =>
    obtain rfl := Except.ok.inj h
    exact (removal_filtered hn (hs.count _) (Int.not_le.1 hi) ht hu).after (.refl _) fun hm _ => hm
  | case6 s shaved i hi value counted t ht u hu ih =>
    have hfil : Filtered n s u true :=
      (removal_filtered hn (hs.count _) (Int.not_le.1 hi) ht hu).after (.refl _) fun hm _ => hm
    exact hfil.trans (ih (hfil.rests rfl) h)

theorem shavePass_filtered {ends : List (DomainId × Bound)} (hn : n.WellFormed)
    (hs : s.Resting n) (h : shavePass n ends s shaved = .ok o) : Filtered n s o.state o.kept := by
  induction ends generalizing s shaved with
  | nil =>
    obtain rfl := Except.ok.inj h
    exact hs.filtered
  | cons e ends ih =>
    obtain ⟨o', ho', h⟩ := bind_eq_ok.1 h
    have hfil := shaveBound_filtered hn hs ho'
    split at h
    · rename_i hk
      rw [hk] at hfil
      exact hfil.trans (ih (hfil.rests rfl) h)
    · obtain rfl := Except.ok.inj h
      exact hfil

/-- **Shaving filters**: it removes values that are in no solution. -/
theorem shave_filtered (hn : n.WellFormed) (hs : s.Resting n)
    (h : shave n s = .ok (kept, t)) : Filtered n s t kept := by
  fun_induction shave n s with
  | case1 => cases h
  | case2 s changed u hu =>
    obtain ⟨rfl, rfl⟩ := Prod.mk.inj (Except.ok.inj h)
    exact shavePass_filtered hn hs hu
  | case3 s u hu =>
    obtain ⟨rfl, rfl⟩ := Prod.mk.inj (Except.ok.inj h)
    exact shavePass_filtered hn hs hu
  | case4 s u hu ih =>
    have hfil : Filtered n s u true := shavePass_filtered hn hs hu
    exact hfil.trans (ih (hfil.rests rfl) h)

/-- **A node keeps its solutions** under either consistency, and comes to rest unless it
fails. -/
theorem filter_filtered {c : Consistency} (hn : n.WellFormed) (hs : s.Primed n)
    (h : Solver.filter n c s = .ok (kept, t)) : Filtered n s t kept := by
  unfold Solver.filter at h
  split at h
  · cases h
  · rename_i u hu
    obtain ⟨rfl, rfl⟩ := Prod.mk.inj (Except.ok.inj h)
    exact propagate_filtered hn hs hu
  · rename_i u hu
    have hfil := propagate_filtered hn hs hu
    cases c with
    | bounds =>
      obtain ⟨rfl, rfl⟩ := Prod.mk.inj (Except.ok.inj h)
      exact hfil
    | shaving => exact hfil.trans (shave_filtered hn (hfil.rests rfl) h)

/-! ### Filtering completes -/

variable {success : Bool} {c : Consistency} {ends : List (DomainId × Bound)}

theorem State.Resting.grounded (h : s.Resting n) : s.Grounded n :=
  fun id hid => absurd hid (h.idle id)

theorem nextInwards_completes (x : Bound) (value : Int) : Completes (nextInwards x value) := by
  cases x with
  | min => exact Width.value.add_completes value 1
  | max => exact Width.value.sub_completes value 1

section

variable (hn : n.WellFormed) (hg : n.Grounded)
include hn hg

theorem trial_completes (hs : s.Resting n) (ha : Box.Alive (s.box.tighten br)) :
    Completes (trial n s br) := by
  have hprimed := hs.primed.narrow br hn ha
  exact (propagate_completes hn hg hprimed (hs.grounded.narrow hg br)).bind fun _ _ => .ok _

theorem shaveValue_completes (hs : s.Resting n) (hlt : (s.box.entry d).min < (s.box.entry d).max) :
    Completes (shaveValue n s d x ((s.box.entry d).get x)) := by
  refine (nextInwards_completes x _).bind fun next hnext => ?_
  have hrest := (hs.tell (.shaving ((s.box.entry d).get x) d)).count fun c =>
    { c with shavedValues := c.shavedValues + 1 }
  have hprimed := hrest.primed.narrow ⟨d, x, next⟩ hn (tighten_next_alive hs.alive hlt hnext)
  exact propagate_completes hn hg hprimed (hrest.grounded.narrow hg _)

theorem shaveBound_completes (hs : s.Resting n) : Completes (shaveBound n s d x shaved) := by
  fun_induction shaveBound n s d x shaved with
  | case1 => exact .ok _
  | case2 s shaved i hi value counted f ht =>
    exact .error (trial_completes hn hg (hs.count _) (tighten_opposite_alive hs.alive) f ht)
  | case3 => exact .ok _
  | case4 s shaved i hi value counted t ht f hu =>
    obtain ⟨hrest, hbox, -⟩ := trial_spec hn (hs.count _) (tighten_opposite_alive hs.alive) ht
    have hbox : t.box = s.box := hbox
    have hvalue : value = (t.box.entry d).get x := by rw [hbox]
    have hlt : (t.box.entry d).min < (t.box.entry d).max := hbox ▸ Int.not_le.1 hi
    rw [hvalue] at hu
    exact .error (shaveValue_completes hn hg hrest hlt f hu)
  | case5 => exact .ok _
  | case6 s shaved i hi value counted t ht u hu ih =>
    exact ih ((removal_filtered hn (hs.count _) (Int.not_le.1 hi) ht hu).rests rfl)

theorem shavePass_completes (hs : s.Resting n) : Completes (shavePass n ends s shaved) := by
  induction ends generalizing s shaved with
  | nil => exact .ok _
  | cons e ends ih =>
    refine (shaveBound_completes hn hg hs).bind fun o ho => ?_
    split
    · rename_i hk
      exact ih ((shaveBound_filtered hn hs ho).rests hk)
    · exact .ok _

theorem shave_completes (hs : s.Resting n) : Completes (shave n s) := by
  fun_induction shave n s with
  | case1 s f hu => exact .error (shavePass_completes hn hg hs f hu)
  | case2 => exact .ok _
  | case3 => exact .ok _
  | case4 s u hu ih => exact ih ((shavePass_filtered hn hs hu).rests rfl)

/-- **Filtering a node completes.** -/
theorem filter_completes (hs : s.Primed n) (ht : s.Grounded n) :
    Completes (Solver.filter n c s) := by
  unfold Solver.filter
  cases hu : propagate n s with
  | error f => exact .error (propagate_completes hn hg hs ht f hu)
  | ok r =>
    obtain ⟨kept, u⟩ := r
    cases kept with
    | false => exact .ok _
    | true =>
      cases c with
      | bounds => exact .ok _
      | shaving => exact shave_completes hn hg ((propagate_filtered hn hs hu).rests rfl)

end

/-! ### What filtering leaves triggered -/

theorem trial_grounded (h : trial n s br = .ok (success, t)) : t.Grounded n := by
  obtain ⟨⟨_, u⟩, hu, h⟩ := bind_eq_ok.1 h
  obtain ⟨-, rfl⟩ := Prod.mk.inj (Except.ok.inj h)
  exact (show u.Grounded n from propagate_grounded hu)

theorem shaveValue_grounded {value : Int} (h : shaveValue n s d x value = .ok (success, t)) :
    t.Grounded n := by
  obtain ⟨next, -, h⟩ := bind_eq_ok.1 h
  exact propagate_grounded h

theorem shaveBound_grounded (hs : s.Grounded n) (h : shaveBound n s d x shaved = .ok o) :
    o.state.Grounded n := by
  fun_induction shaveBound n s d x shaved with
  | case1 =>
    obtain rfl := Except.ok.inj h
    exact hs
  | case2 => cases h
  | case3 s shaved i hi value counted t ht =>
    obtain rfl := Except.ok.inj h
    exact trial_grounded ht
  | case4 => cases h
  | case5 s shaved i hi value counted t ht u hu =>
    obtain rfl := Except.ok.inj h
    exact shaveValue_grounded hu
  | case6 s shaved i hi value counted t ht u hu ih => exact ih (shaveValue_grounded hu) h

theorem shavePass_grounded (hs : s.Grounded n) (h : shavePass n ends s shaved = .ok o) :
    o.state.Grounded n := by
  induction ends generalizing s shaved with
  | nil =>
    obtain rfl := Except.ok.inj h
    exact hs
  | cons e ends ih =>
    obtain ⟨o', ho', h⟩ := bind_eq_ok.1 h
    have ho' := shaveBound_grounded hs ho'
    split at h
    · exact ih ho' h
    · obtain rfl := Except.ok.inj h
      exact ho'

theorem shave_grounded (hs : s.Grounded n) (h : shave n s = .ok (success, t)) : t.Grounded n := by
  fun_induction shave n s with
  | case1 => cases h
  | case2 s changed u hu =>
    obtain ⟨-, rfl⟩ := Prod.mk.inj (Except.ok.inj h)
    exact shavePass_grounded hs hu
  | case3 s u hu =>
    obtain ⟨-, rfl⟩ := Prod.mk.inj (Except.ok.inj h)
    exact shavePass_grounded hs hu
  | case4 s u hu ih => exact ih (shavePass_grounded hs hu) h

theorem filter_grounded (h : Solver.filter n c s = .ok (success, t)) : t.Grounded n := by
  unfold Solver.filter at h
  split at h
  · cases h
  · rename_i u hu
    obtain ⟨-, rfl⟩ := Prod.mk.inj (Except.ok.inj h)
    exact propagate_grounded hu
  · rename_i u hu
    have hu := propagate_grounded hu
    cases c with
    | bounds =>
      obtain ⟨-, rfl⟩ := Prod.mk.inj (Except.ok.inj h)
      exact hu
    | shaving => exact shave_grounded hu h

end BoundsSolver
