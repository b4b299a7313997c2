/-
# What shaving achieves

A state is quiet if it could be the result of propagation: its box is stable, nothing is
triggered and the flags are right about all assignments of the box.  Such flags are all
that later propagation relies on (`Network.Posts.settledOn_of_holds`), so quiet states
are states at rest.

Shaving completes (`shave_completes`), and ends with a pass that removed nothing.  Its trials all
started from twins of the final state, hence each would succeed there as well: this is the lemma
`shavePass_unchanged`, from which `shave_supported` follows.  Shaving again then removes nothing
(`shave_idem`).
-/

import BoundsSolver.Proofs.Constraint.Tight
import BoundsSolver.Proofs.Propagation.Congruence
import BoundsSolver.Proofs.Propagation.Counters
import BoundsSolver.Proofs.Search.Reached

namespace BoundsSolver

/-- What propagation that succeeded leaves: a stable box with a value everywhere, nothing
triggered, and flags that hold. -/
structure State.Quiet (n : Network) (s : State) : Prop where
  inside : s.box.Inside n.initial
  alive : s.box.Alive
  stable : n.StableOn s.box
  faithful : s.triggered.Faithful
  empty : s.triggered.isEmpty = true
  flags : s.entailed.size = n.propagators.size
  hold : FlagsHold n s.box s.entailed

/-- Committing to the value at an end of a shared domain, propagation succeeds. -/
def State.Supports (n : Network) (s : State) (d : DomainId) (x : Bound) : Prop :=
  ∃ u, propagate n (s.narrow n ⟨d, x.opposite, (s.box.entry d).get x⟩) = .ok (true, u)

/-- Every parameter of every propagator is a value. -/
def Network.ParametersFit (n : Network) : Prop :=
  ∀ q ∈ n.propagators.toList, BoundsSolver.ParametersFit q.parameters

/-- One more trial is counted. -/
def State.tried (s : State) : State :=
  s.count fun c => { c with shavingTrials := c.shavingTrials + 1 }

variable {n : Network} {p : Problem} {q : Propagator} {s t u : State} {o : Outcome} {b : Box}
  {as : List Int} {d : DomainId} {x : Bound} {shaved kept : Bool} {br : Branch}
  {ends : List (DomainId × Bound)}

/-! ### Flags that hold -/

theorem Box.valueIn_map (f : Interval → Int) (hf : f ⟨0, 0⟩ = 0) (b : Box) (d : DomainId) :
    d.valueIn (b.toList.map f) = f (b.entry d) := by
  rw [DomainId.valueIn, List.getD_eq_getElem?_getD, List.getElem?_map]
  have hget : b.toList[d.index]? = b.get? d := Box.toList_getElem? b d.index
  rw [hget]
  by_cases hlt : d.index < b.size
  · rw [Box.get?_eq_of_lt hlt]
    rfl
  · rw [Box.get?_eq_none_of_le (Nat.not_lt.1 hlt), Box.entry_of_le (Nat.not_lt.1 hlt), hf]
    rfl

namespace Network.Posts

variable (h : n.Posts q)
include h

/-- A box all of whose assignments satisfy the constraint is tight for it. -/
theorem tight_of_holds (hb : b.Inside n.initial) (ha : b.Alive)
    (hall : ∀ {as : List Int}, Mem as b.toList → q.Holds as) :
    Tight (q.constraint.Holds · q.parameters) (q.reads b) where
  solvable := ⟨_, h.mem_reads hb ha.mem_mins, hall ha.mem_mins⟩
  least {k i} hi := by
    obtain ⟨v, hv, rfl⟩ := Propagator.exists_of_reads hi
    refine ⟨_, h.mem_reads hb ha.mem_mins, hall ha.mem_mins, ?_⟩
    rw [List.getElem?_map, hv, Option.map_some, View.value, Box.valueIn_map _ rfl,
      (h.carried v (List.mem_of_getElem? hv)).read_eq hb ha]
  greatest {k i} hi := by
    obtain ⟨v, hv, rfl⟩ := Propagator.exists_of_reads hi
    refine ⟨_, h.mem_reads hb ha.mem_maxs, hall ha.mem_maxs, ?_⟩
    rw [List.getElem?_map, hv, Option.map_some, View.value, Box.valueIn_map _ rfl,
      (h.carried v (List.mem_of_getElem? hv)).read_eq hb ha]

/-- **A stable constraint that all assignments satisfy is settled.** -/
theorem settledOn_of_holds (hfit : BoundsSolver.ParametersFit q.parameters) (hb : b.Inside n.initial)
    (ha : b.Alive) (hst : q.StableOn b)
    (hall : ∀ {as : List Int}, Mem as b.toList → q.Holds as) : q.SettledOn b := by
  intro c hc hca
  refine Constraint.stable_of_tight (h.posed hb ha) hfit hst (Propagator.reads_within hc q) ?_
  exact h.tight_of_holds (hc.trans hb) hca fun hm => hall (Box.mem_of_inside hm hc)

end Network.Posts

theorem Triggered.isEmpty_iff {v : Triggered} : v.isEmpty = true ↔ ∀ id, id ∉ v := by
  rw [Triggered.isEmpty, decide_eq_true_iff]
  constructor
  · intro h id hid
    cases hq : v.queue with
    | leaf =>
      rw [Triggered.mem_def, hq] at hid
      cases hid
    | node i l r =>
      rw [hq, Heap.size] at h
      omega
  · intro h
    cases hq : v.queue with
    | leaf => rfl
    | node i l r =>
      refine absurd ?_ (h ⟨i⟩)
      rw [Triggered.mem_def, hq]
      exact List.mem_cons_self

namespace State

theorem Quiet.resting (h : s.Quiet n) (hn : n.WellFormed) (hfit : n.ParametersFit) :
    s.Resting n where
  coherent := ⟨h.inside, h.faithful, h.flags, fun {id q} hq he => by
    have hmem := Keyed.mem_of_get? hq
    exact (hn.posted q hmem).settledOn_of_holds (hfit q hmem) h.inside h.alive (h.stable q hmem)
      (h.hold hq he)⟩
  alive := h.alive
  stable := h.stable
  idle := Triggered.isEmpty_iff.1 h.empty

theorem Resting.quiet (h : s.Resting n) (hn : n.WellFormed) : s.Quiet n where
  inside := h.coherent.inside
  alive := h.alive
  stable := h.stable
  faithful := h.coherent.faithful
  empty := Triggered.isEmpty_iff.2 h.idle
  flags := h.coherent.flags
  hold := h.coherent.flagsHold hn

/-- States at rest with the same box and flags are twins. -/
theorem Resting.twins (h : s.Resting n) (h' : t.Resting n) (hb : s.box = t.box)
    (he : s.entailed = t.entailed) : s.Twins t :=
  ⟨hb, he, h.coherent.faithful.twins_of_empty h'.coherent.faithful
    (Triggered.isEmpty_iff.2 h.idle) (Triggered.isEmpty_iff.2 h'.idle)⟩

theorem Supports.of_twins (h : s.Supports n d x) (hst : s.Twins t) : t.Supports n d x := by
  obtain ⟨u, hu⟩ := h
  obtain ⟨⟨k, v⟩, hv, rfl, -⟩ := (propagate_twins (hst.narrow n _)).of_ok hu
  rw [hst.box] at hv
  exact ⟨v, hv⟩

/-- What supports a value fixes the shared domain to it. -/
theorem Resting.fixed_of_supports (hn : n.WellFormed) (hs : s.Resting n)
    (hlt : (s.box.entry d).min < (s.box.entry d).max)
    (h : propagate n (s.narrow n ⟨d, x.opposite, (s.box.entry d).get x⟩) = .ok (true, u)) :
    u.box.entry d = .singleton ((s.box.entry d).get x) := by
  have hspec := propagate_spec hn (hs.primed.narrow _ hn (tighten_opposite_alive hs.alive)) h
  have hin : u.box.Inside (Box.tighten s.box ⟨d, x.opposite, (s.box.entry d).get x⟩) := hspec.inside
  have hbounds := hin.bounds d
  have hle := (hspec.alive rfl).bounds d
  rw [Box.entry_tighten, if_pos ⟨rfl, lt_size_of_lt hlt⟩] at hbounds
  cases x with
  | min =>
    simp only [Bound.opposite, Interval.tighten, Interval.get, Interval.tightenMax_min,
      Interval.tightenMax_max] at hbounds
    exact Interval.ext (by dsimp only [Interval.singleton, Interval.get]; omega)
      (by dsimp only [Interval.singleton, Interval.get]; omega)
  | max =>
    simp only [Bound.opposite, Interval.tighten, Interval.get, Interval.tightenMin_min,
      Interval.tightenMin_max] at hbounds
    exact Interval.ext (by dsimp only [Interval.singleton, Interval.get]; omega)
      (by dsimp only [Interval.singleton, Interval.get]; omega)

end State

/-! ### Trials -/

/-- A trial succeeds if the value is supported. -/
theorem trial_of_supports (hn : n.WellFormed) (hs : s.Resting n) (h : s.Supports n d x) :
    ∃ t, trial n s ⟨d, x.opposite, (s.box.entry d).get x⟩ = .ok (true, t) ∧ t.Resting n ∧
      s.Twins t := by
  obtain ⟨u, hu⟩ := h
  have ht : trial n s ⟨d, x.opposite, (s.box.entry d).get x⟩ =
      .ok (true, { u with box := s.box, entailed := s.entailed }) := by
    unfold trial
    rw [bind_of_ok hu]
    rfl
  obtain ⟨hrest, hbox, hent, -⟩ := trial_spec hn hs (tighten_opposite_alive hs.alive) ht
  exact ⟨_, ht, hrest, hs.twins hrest hbox.symm hent.symm⟩

theorem State.twins_tried (s : State) : s.Twins s.tried := .of_alike ⟨rfl, rfl, rfl⟩

theorem supports_of_trial (h : trial n s ⟨d, x.opposite, (s.box.entry d).get x⟩ = .ok (true, t)) :
    s.Supports n d x := by
  obtain ⟨⟨k, u⟩, hu, h⟩ := bind_eq_ok.1 h
  obtain ⟨rfl, -⟩ := Prod.mk.inj (Except.ok.inj h)
  exact ⟨u, hu⟩

/-! ### Passes that remove nothing -/

/-- One round at an end of a shared domain. -/
theorem shaveBound_eq (n : Network) (s : State) (d : DomainId) (x : Bound) (shaved : Bool) :
    shaveBound n s d x shaved =
      if (s.box.entry d).max ≤ (s.box.entry d).min then .ok ⟨true, shaved, s⟩
      else do
        let (supported, t) ← trial n s.tried ⟨d, x.opposite, (s.box.entry d).get x⟩
        if supported then return ⟨true, shaved, t⟩
        let (kept, u) ← shaveValue n t d x ((s.box.entry d).get x)
        if kept then shaveBound n u d x true else return ⟨false, true, u⟩ := by
  rw [shaveBound, State.tried]
  split
  · rfl
  · dsimp only
    split
    · rename_i ht
      rw [ht]
      rfl
    · rename_i ht
      rw [bind_of_ok ht]
      rfl
    · rename_i ht
      rw [bind_of_ok ht]
      dsimp only
      rw [if_neg Bool.false_ne_true]
      split
      · rename_i hu
        rw [hu]
        rfl
      · rename_i hu
        rw [bind_of_ok hu]
        rfl
      · rename_i hu
        rw [bind_of_ok hu]
        rfl

theorem shaveBound_changed (h : shaveBound n s d x true = .ok o) : o.changed = true := by
  suffices ∀ {shaved}, shaveBound n s d x shaved = .ok o → shaved = true → o.changed = true from
    this h rfl
  intro shaved h hsh
  fun_induction shaveBound n s d x shaved with
  | case1 =>
    obtain rfl := Except.ok.inj h
    exact hsh
  | case2 => cases h
  | case3 =>
    obtain rfl := Except.ok.inj h
    exact hsh
  | case4 => cases h
  | case5 =>
    obtain rfl := Except.ok.inj h
    rfl
  | case6 s shaved i hi value counted t ht u hu ih => exact ih h h rfl

theorem shavePass_changed (h : shavePass n ends s true = .ok o) (hk : o.kept = true) :
    o.changed = true := by
  induction ends generalizing s with
  | nil =>
    obtain rfl := Except.ok.inj h
    rfl
  | cons e ends ih =>
    obtain ⟨o', ho', h⟩ := bind_eq_ok.1 h
    split at h
    · exact ih h
    · rename_i hk'
      obtain rfl := Except.ok.inj h
      exact absurd hk hk'

/-- If no value was removed, the one at the end is supported. -/
theorem shaveBound_unchanged (hn : n.WellFormed) (hs : s.Resting n)
    (h : shaveBound n s d x shaved = .ok ⟨true, false, t⟩) :
    t.Resting n ∧ s.Twins t ∧
      ((s.box.entry d).min < (s.box.entry d).max → s.Supports n d x) := by
  have hrest := (shaveBound_filtered hn hs h).rests rfl
  rw [shaveBound_eq] at h
  split at h
  · rename_i hle
    obtain ⟨-, -, rfl⟩ := by simpa using h
    exact ⟨hs, .refl s, fun hlt => absurd hlt (Int.not_lt.2 hle)⟩
  · obtain ⟨⟨k, v⟩, hv, h⟩ := bind_eq_ok.1 h
    cases k with
    | true =>
      obtain ⟨-, -, rfl⟩ := by simpa [pure, Except.pure] using h
      obtain ⟨-, hbox, hent, -⟩ := trial_spec hn (hs.count _) (tighten_opposite_alive hs.alive) hv
      exact ⟨hrest, hs.twins hrest hbox.symm hent.symm,
        fun _ => (supports_of_trial (s := s.tried) hv).of_twins s.twins_tried.symm⟩
    | false =>
      obtain ⟨⟨k', w⟩, -, h⟩ := bind_eq_ok.1 h
      cases k' with
      | true => cases shaveBound_changed h
      | false => cases Except.ok.inj h

/-- **A pass that removed nothing** leaves a twin of the state it started from, in which the
values at all ends are supported. -/
theorem shavePass_unchanged (hn : n.WellFormed) (hs : s.Resting n)
    (h : shavePass n ends s shaved = .ok ⟨true, false, t⟩) :
    t.Resting n ∧ s.Twins t ∧ ∀ e ∈ ends, (s.box.entry e.1).min < (s.box.entry e.1).max →
      s.Supports n e.1 e.2 := by
  induction ends generalizing s shaved with
  | nil =>
    obtain ⟨-, rfl⟩ := by simpa [shavePass] using h
    exact ⟨hs, .refl s, fun e he => absurd he List.not_mem_nil⟩
  | cons e ends ih =>
    obtain ⟨⟨k, c, u⟩, hu, h⟩ := bind_eq_ok.1 h
    cases k with
    | false => cases Except.ok.inj h
    | true =>
      have hsum : (shaved || c) = false := by
        cases hc : (shaved || c) with
        | false => rfl
        | true =>
          rw [if_pos rfl, hc] at h
          cases shavePass_changed h rfl
      obtain ⟨-, rfl⟩ := Bool.or_eq_false_iff.1 hsum
      obtain ⟨hrest, htw, hsup⟩ := shaveBound_unchanged hn hs hu
      obtain ⟨hrest', htw', hall⟩ := ih hrest h
      refine ⟨hrest', htw.trans htw', List.forall_mem_cons.2 ⟨hsup, fun e' he' hlt => ?_⟩⟩
      exact (hall e' he' (htw.box ▸ hlt)).of_twins htw.symm

theorem mem_allEnds (h : d.index < b.size) (x : Bound) : (d, x) ∈ allEnds b := by
  have hkey : d ∈ b.keys := List.mem_map.2 ⟨d.index, List.mem_range.2 h, rfl⟩
  refine List.mem_flatMap.2 ⟨d, hkey, ?_⟩
  cases x with
  | min => exact List.mem_cons_self
  | max => exact List.mem_cons_of_mem _ List.mem_cons_self

/-- **Shaving ends with all ends supported.** -/
theorem shave_supports (hn : n.WellFormed) (hs : s.Resting n) (h : shave n s = .ok (true, t))
    (hlt : (t.box.entry d).min < (t.box.entry d).max) (x : Bound) : t.Supports n d x := by
  fun_induction shave n s with
  | case1 => cases h
  | case2 s changed u hu => cases Except.ok.inj h
  | case3 s u hu =>
    obtain ⟨-, rfl⟩ := Prod.mk.inj (Except.ok.inj h)
    obtain ⟨-, htw, hall⟩ := shavePass_unchanged hn hs hu
    rw [← htw.box] at hlt
    exact (hall _ (mem_allEnds (lt_size_of_lt hlt) x) hlt).of_twins htw
  | case4 s u hu ih => exact ih ((shavePass_filtered hn hs hu).rests rfl) h

/-! ### Shaving what is shaved -/

/-- A pass over supported ends removes nothing. -/
theorem shavePass_of_supports (hn : n.WellFormed) (hs : s.Resting n)
    (h : ∀ e ∈ ends, (s.box.entry e.1).min < (s.box.entry e.1).max → s.Supports n e.1 e.2) :
    ∃ t, shavePass n ends s shaved = .ok ⟨true, shaved, t⟩ ∧ s.Twins t := by
  induction ends generalizing s shaved with
  | nil => exact ⟨s, rfl, .refl s⟩
  | cons e ends ih =>
    rw [List.forall_mem_cons] at h
    obtain ⟨u, hu, hrest, htw⟩ : ∃ u, shaveBound n s e.1 e.2 false = .ok ⟨true, false, u⟩ ∧
        u.Resting n ∧ s.Twins u := by
      rw [shaveBound_eq]
      split
      · exact ⟨s, rfl, hs, .refl s⟩
      · rename_i hlt
        have hsup : s.tried.Supports n e.1 e.2 :=
          (h.1 (Int.not_le.1 hlt)).of_twins s.twins_tried
        obtain ⟨u, hu, hrest, htw⟩ := trial_of_supports hn (hs.count _) hsup
        exact ⟨u, bind_of_ok hu, hrest, s.twins_tried.trans htw⟩
    obtain ⟨t, ht, htw'⟩ := ih hrest fun e' he' hlt =>
      (h.2 e' he' (htw.box ▸ hlt)).of_twins htw
    refine ⟨t, ?_, htw.trans htw'⟩
    rw [shavePass, bind_of_ok hu, if_pos rfl, Bool.or_false, ht]

/-- **Shaving leaves alone what it could have left.** -/
theorem shave_of_supports (hn : n.WellFormed) (hs : s.Resting n)
    (h : ∀ d x, (s.box.entry d).min < (s.box.entry d).max → s.Supports n d x) :
    ∃ t, shave n s = .ok (true, t) ∧ s.Twins t := by
  obtain ⟨t, ht, htw⟩ : ∃ t, shavePass n (allEnds s.box) s false = .ok ⟨true, false, t⟩ ∧
      s.Twins t := shavePass_of_supports hn hs fun e _ => h e.1 e.2
  refine ⟨t, ?_, htw⟩
  rw [shave]
  split
  · rename_i hu
    rw [ht] at hu
    cases hu
  · rename_i hu
    rw [ht] at hu
    cases hu
  · rename_i hu
    rw [ht] at hu
    cases hu
    rfl
  · rename_i hu
    rw [ht] at hu
    cases hu

/-- **Shaving twice is shaving once.** -/
theorem shave_idem (hn : n.WellFormed) (hs : s.Resting n) (h : shave n s = .ok (true, t)) :
    ∃ u, shave n t = .ok (true, u) ∧ t.Twins u :=
  shave_of_supports hn ((shave_filtered hn hs h).rests rfl) fun _ x hlt => shave_supports hn hs h hlt x

/-! ### The number of trials -/

theorem trial_shavingTrials (h : trial n s br = .ok (kept, t)) :
    t.statistics.shavingTrials = s.statistics.shavingTrials := by
  obtain ⟨⟨k, u⟩, hu, h⟩ := bind_eq_ok.1 h
  obtain ⟨rfl, rfl⟩ := Prod.mk.inj (Except.ok.inj h)
  have := propagate_shavingTrials hu
  exact this

theorem shaveValue_shavingTrials {v : Int} (h : shaveValue n s d x v = .ok (kept, t)) :
    t.statistics.shavingTrials = s.statistics.shavingTrials := by
  obtain ⟨next, -, h⟩ := bind_eq_ok.1 h
  have := propagate_shavingTrials h
  exact this

/-- Every trial at an end but the last removes a value. -/
theorem shaveBound_trials (h : shaveBound n s d x shaved = .ok o) :
    o.state.statistics.shavingTrials + (if o.kept then o.state.box.totalSize else 0) ≤
      s.statistics.shavingTrials + s.box.totalSize + 1 := by
  fun_induction shaveBound n s d x shaved with
  | case1 =>
    obtain rfl := Except.ok.inj h
    simp only [if_true]
    omega
  | case2 => cases h
  | case3 s shaved i hi value counted t ht =>
    obtain rfl := Except.ok.inj h
    have hcount : t.statistics.shavingTrials = s.statistics.shavingTrials + 1 :=
      trial_shavingTrials ht
    have hbox : t.box = counted.box := trial_box ht
    have hbox : t.box = s.box := hbox
    simp only [if_true, hcount, hbox]
    omega
  | case4 => cases h
  | case5 s shaved i hi value counted t ht u hu =>
    obtain rfl := Except.ok.inj h
    have hcount : t.statistics.shavingTrials = s.statistics.shavingTrials + 1 :=
      trial_shavingTrials ht
    have := shaveValue_shavingTrials hu
    simp only [Bool.false_eq_true, if_false]
    omega
  | case6 s shaved i hi value counted t ht u hu ih =>
    have hcount : t.statistics.shavingTrials = s.statistics.shavingTrials + 1 :=
      trial_shavingTrials ht
    have hbox : t.box = counted.box := trial_box ht
    have hbox : t.box = s.box := hbox
    have hcount' := shaveValue_shavingTrials hu
    have hlt : u.box.totalSize < t.box.totalSize :=
      shaveValue_totalSize (by rw [hbox]; exact Int.not_le.1 hi) (by rw [hbox]; exact hu)
    rw [hbox] at hlt
    have := ih h
    omega

theorem shavePass_trials (h : shavePass n ends s shaved = .ok o) :
    o.state.statistics.shavingTrials + (if o.kept then o.state.box.totalSize else 0) ≤
      s.statistics.shavingTrials + s.box.totalSize + ends.length := by
  induction ends generalizing s shaved with
  | nil =>
    obtain rfl := Except.ok.inj h
    simp
  | cons e ends ih =>
    obtain ⟨o', ho', h⟩ := bind_eq_ok.1 h
    have hfirst := shaveBound_trials ho'
    rw [List.length_cons]
    split at h
    · rename_i hk
      have := ih h
      rw [if_pos hk] at hfirst
      omega
    · obtain rfl := Except.ok.inj h
      omega

theorem length_allEnds (b : Box) : (allEnds b).length = 2 * b.size := by
  rw [allEnds, List.length_flatMap]
  simp [Keyed.keys, Function.comp_def, Nat.mul_comm]

/-- **Shaving takes at most so many trials**: a pass that is followed by another one removed
a value, and a pass takes one trial for each end and one for each value that it removes. -/
theorem shave_trials (hn : n.WellFormed) (hs : s.Resting n) (h : shave n s = .ok (kept, t)) :
    t.statistics.shavingTrials ≤ s.statistics.shavingTrials + s.box.totalSize +
      2 * s.box.size * (s.box.totalSize + 1) := by
  fun_induction shave n s with
  | case1 => cases h
  | case2 s changed u hu =>
    obtain ⟨rfl, rfl⟩ := Prod.mk.inj (Except.ok.inj h)
    have := shavePass_trials hu
    rw [length_allEnds] at this
    rw [Nat.mul_succ]
    dsimp only at this
    omega
  | case3 s u hu =>
    obtain ⟨rfl, rfl⟩ := Prod.mk.inj (Except.ok.inj h)
    have := shavePass_trials hu
    rw [length_allEnds] at this
    rw [Nat.mul_succ]
    dsimp only at this
    omega
  | case4 s u hu ih =>
    have hfil : Filtered n s u true := shavePass_filtered hn hs hu
    have hpass := shavePass_trials hu
    have hrest := ih (hfil.rests rfl) h
    have hlt : u.box.totalSize < s.box.totalSize :=
      (shavePass_totalSize hu rfl).resolve_right fun hsame => Bool.noConfusion hsame.2
    have hmul : 2 * s.box.size * (u.box.totalSize + 1) ≤ 2 * s.box.size * s.box.totalSize :=
      Nat.mul_le_mul_left _ hlt
    rw [length_allEnds, if_pos rfl] at hpass
    rw [hfil.inside.size_eq] at hrest
    rw [Nat.mul_succ]
    dsimp only at hpass
    omega

/-! ### The result -/

/-- **Shaving keeps all solutions and supports every end.**  From a quiet state it comes to an end
without a fault other than one of arithmetic, after boundedly many trials.  A solution within the
box is still within it afterwards, and if shaving fails there was none.  Otherwise it leaves a
quiet state in which propagation succeeds from each end of each shared domain that is not
fixed. -/
theorem shave_supported (hp : Built p) (hfit : p.network.ParametersFit) (hs : s.Quiet p.network) :
    Completes (shave p.network s) ∧
    ∀ {kept : Bool} {t : State}, shave p.network s = .ok (kept, t) →
      t.box.Inside s.box ∧
      t.statistics.shavingTrials ≤ s.statistics.shavingTrials + s.box.totalSize +
        2 * s.box.size * (s.box.totalSize + 1) ∧
      (∀ {as : List Int}, Mem as s.box.toList → p.network.Satisfies as →
        kept = true ∧ Mem as t.box.toList) ∧
      (kept = false → ∀ {as : List Int}, Mem as s.box.toList → ¬ p.network.Satisfies as) ∧
      (kept = true → t.Quiet p.network ∧
        ∀ (d : DomainId) (x : Bound), (t.box.entry d).min < (t.box.entry d).max →
          ∃ u, propagate p.network (t.narrow p.network ⟨d, x.opposite, (t.box.entry d).get x⟩) =
              .ok (true, u) ∧ u.box.entry d = .singleton ((t.box.entry d).get x)) := by
  have hn := hp.sound.network
  have hrest := hs.resting hn hfit
  refine ⟨shave_completes hn hp.grounded hrest, fun {kept t} h => ?_⟩
  have hfil := shave_filtered hn hrest h
  refine ⟨hfil.inside, shave_trials hn hrest h, hfil.keeps, fun hk {as} hm hsat => ?_,
    fun hk => ⟨(hfil.rests hk).quiet hn, fun d x hlt => ?_⟩⟩
  · have := (hfil.keeps hm hsat).1
    rw [hk] at this
    cases this
  · subst hk
    obtain ⟨u, hu⟩ := shave_supports hn hrest h hlt x
    exact ⟨u, hu, (hfil.rests rfl).fixed_of_supports hn hlt hu⟩

/-- In `Problem.either` propagation leaves three values for the cost, and shaving removes two of
them, which take both other variables to zero.  Of the other variables both values are supported. -/
theorem shave_supported_either :
    let n := Problem.either.network
    ∃ s t : State, s.Quiet n ∧ s.box = .ofList [⟨0, 2⟩, ⟨0, 1⟩, ⟨0, 1⟩] ∧
      Completes (shave n s) ∧ shave n s = .ok (true, t) ∧ t.Quiet n ∧
      t.box = .ofList [⟨2, 2⟩, ⟨0, 1⟩, ⟨0, 1⟩] ∧ t.statistics.shavedValues = 2 ∧
      t.statistics.shavingTrials ≤ 55 ∧ ∀ x, t.Supports n ⟨1⟩ x ∧ t.Supports n ⟨2⟩ x := by
  intro n
  have hn : n.WellFormed := Built.either.sound.network
  have hfit : n.ParametersFit := by
    show ∀ q ∈ n.propagators.toList, ∀ a ∈ q.parameters, Width.value.Fits a
    decide +kernel
  have hrun : ∃ s, propagate n ((State.start .either .off).triggerAll n.propagators.keys) =
      .ok (true, s) ∧ s.box = .ofList [⟨0, 2⟩, ⟨0, 1⟩, ⟨0, 1⟩] ∧ s.statistics.shavingTrials = 0 ∧
        ∃ t, shave n s = .ok (true, t) ∧ t.box = .ofList [⟨2, 2⟩, ⟨0, 1⟩, ⟨0, 1⟩] ∧
          t.statistics.shavedValues = 2 := by
    decide +kernel
  obtain ⟨s, hs, hbox, hnone, t, ht, hbox', hshaved⟩ := hrun
  have hprimed := (State.start_starts .either .off).primed Built.either.sound
    (Box.anyEmpty_eq_false_iff.1 (by decide +kernel))
  have hquiet : s.Quiet n := ((propagate_filtered hn hprimed hs).rests rfl).quiet hn
  obtain ⟨hcompletes, hall⟩ := shave_supported .either hfit hquiet
  obtain ⟨-, htrials, -, -, hkept⟩ := hall ht
  obtain ⟨hquiet', hsupports⟩ := hkept rfl
  have hsupported (d : DomainId) (hlt : (t.box.entry d).min < (t.box.entry d).max) (x : Bound) :
      t.Supports n d x := by
    obtain ⟨u, hu, -⟩ := hsupports d x hlt
    exact ⟨u, hu⟩
  refine ⟨s, t, hquiet, hbox, hcompletes, ht, hquiet', hbox', hshaved, ?_, fun x => ⟨?_, ?_⟩⟩
  · rw [hnone, hbox] at htrials
    exact htrials.trans (by decide +kernel)
  · exact hsupported ⟨1⟩ (by rw [hbox']; decide +kernel) x
  · exact hsupported ⟨2⟩ (by rw [hbox']; decide +kernel) x

end BoundsSolver
