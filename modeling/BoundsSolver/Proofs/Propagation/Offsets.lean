/-
# Offsets while propagating

A run reads each variable through its offset and takes the offset away again from what it writes
back.  Within the initial box neither shift is cut short (`Carries.read_eq`,
`Placed.shifted_eq_target`), so a shared domain is left with just those of its values that all its
variables keep (`writeBack_contains`), and a run fails only if there is none.

To take an offset away it is negated first, and the least value cannot be.  It is a legal offset
all the same: a variable that has it can be read, but not narrowed (`run_translates`).
-/

import BoundsSolver.Proofs.Network.Narrowing
import BoundsSolver.Proofs.Propagation.Fixpoint
import BoundsSolver.Proofs.Propagation.Grounded

namespace BoundsSolver

namespace Position

/-- The run leaves the value of the shared domain to the variable, if that is its own. -/
def Keeps (pos : Position) (d : DomainId) (x : Int) : Prop :=
  pos.view.domain = d → pos.after.contains (x + pos.view.offset)

/-- The values of a shared domain that all positions keep. -/
def kept (ps : List Position) (b : Box) (d : DomainId) : Set Int :=
  {x | (b.entry d).contains x ∧ ∀ pos ∈ ps, pos.Keeps d x}

end Position

variable {p : Problem} {n : Network} {q : Propagator} {s : State} {o : Outcome} {pos : Position}
  {ps : List Position} {b : Box} {id self : PropagatorId} {again changed : Bool} {d : DomainId}
  {x : Int}

/-! ### Taking an offset away -/

/-- All offsets but the least can be negated. -/
theorem exists_neg_iff {offset : Int} (h : Width.value.Fits offset) :
    (∃ back, Width.value.neg offset = .ok back) ↔ offset ≠ Width.value.lo := by
  obtain ⟨hlo, hhi⟩ := h
  simp only [Width.neg_eq_ok, exists_and_left, exists_eq', and_true, Width.Fits, Width.value] at *
  omega

theorem Position.target_contains_iff : pos.target.contains x ↔
    pos.after.contains (x + pos.view.offset) := by
  simp only [target, Interval.contains_iff]
  omega

theorem cutBox_contains_iff (h : pos.view.domain.index < b.size) :
    ((cutBox b pos).entry d).contains x ↔ (b.entry d).contains x ∧ pos.Keeps d x := by
  rw [cutBox_entry]
  split
  · rename_i hd
    rw [Interval.contains_tightenTo_iff, Position.target_contains_iff, Position.Keeps,
      forall_prop_of_true hd.1]
  · rename_i hd
    exact (and_iff_left fun hpos => absurd ⟨hpos, h⟩ hd).symm

theorem Position.kept_cons (h : pos.view.domain.index < b.size) :
    kept (pos :: ps) b d = kept ps (cutBox b pos) d := by
  refine Set.ext fun x => ?_
  show _ ∧ _ ↔ _ ∧ _
  rw [cutBox_contains_iff h, List.forall_mem_cons, and_assoc]

/-- A variable that the run left alone keeps everything. -/
theorem Position.Placed.keeps_of_eq {c : Box} (h : pos.Placed n b) (hb : b.Inside n.initial)
    (ha : b.Alive) (he : pos.after = pos.before) (hc : c.Inside b) (hx : (c.entry d).contains x) :
    pos.Keeps d x := by
  rintro rfl
  obtain ⟨hmin, hmax⟩ := h.confines_of_eq hb ha he hc
  rw [Interval.contains_iff] at hx
  exact target_contains_iff.1 (Interval.contains_iff.2 ⟨by omega, by omega⟩)

/-- **What is written back is what all positions keep**, unless they keep nothing of some shared
domain. -/
theorem writeBack_contains (hn : n.WellFormed) (hb : b.Inside n.initial) (ha : b.Alive)
    (hps : ∀ pos ∈ ps, pos.Placed n b) (hs : s.box.Inside b) (hsa : s.box.Alive)
    (h : writeBack n self again ps s changed = .ok o) :
    o.kept = true ∧ o.state.box.Alive ∧
        (∀ d, {x | (o.state.box.entry d).contains x} = Position.kept ps s.box d) ∨
      o.kept = false ∧ ∃ d, Position.kept ps s.box d = ∅ := by
  induction ps generalizing s changed with
  | nil =>
    obtain rfl := Except.ok.inj h
    refine .inl ⟨rfl, hsa, fun d => Set.ext fun x => ?_⟩
    exact (and_iff_left fun pos hpos => absurd hpos List.not_mem_nil).symm
  | cons pos ps ih =>
    obtain ⟨hpos, hps⟩ := List.forall_mem_cons.1 hps
    unfold writeBack at h
    split at h
    · rename_i heq
      have hcons (d : DomainId) : Position.kept (pos :: ps) s.box d = Position.kept ps s.box d := by
        refine Set.ext fun x => and_congr_right fun hx => ?_
        rw [List.forall_mem_cons]
        exact and_iff_right (hpos.keeps_of_eq hb ha heq hs hx)
      simp only [hcons]
      exact ih hps hs hsa h
    · split at h
      · rename_i hempty
        have := hpos.filled
        rw [Interval.isEmpty_iff] at hempty
        omega
      · obtain ⟨o', ho', h⟩ := bind_eq_ok.1 h
        obtain ⟨hbox, hlt, hcut⟩ := cut_cases hn hb ha hpos hsa ho'
        simp only [Position.kept_cons hlt]
        rcases hcut with ⟨hk, hdead, -⟩ | ⟨hk, halive, -⟩
        · rw [hk, if_neg Bool.false_ne_true] at h
          obtain rfl := Except.ok.inj h
          rw [Box.alive_iff] at hdead
          push Not at hdead
          obtain ⟨d, hd⟩ := hdead
          refine .inr ⟨rfl, d, Set.eq_empty_of_forall_notMem fun x hx => ?_⟩
          have hx := Interval.contains_iff.1 hx.1
          omega
        · rw [hk, if_pos rfl] at h
          rw [← hbox] at halive ⊢
          have hin : o'.state.box.Inside b := by
            rw [hbox]
            exact (cutBox_inside s.box pos).trans hs
          exact ih hps hin halive h

/-! ### A run -/

theorem cut_returns {back : Int} (hneg : Width.value.neg pos.view.offset = .ok back)
    (hlt : pos.view.domain.index < s.box.size) : ∃ o, cut n self again pos s = .ok o := by
  rw [cut, bind_of_ok hneg, bind_of_ok (Keyed.get_eq_ok.2 (Box.get?_eq_of_lt hlt))]
  dsimp only
  split <;> exact ⟨_, rfl⟩

/-- Writing back needs the negated offsets of the variables that were narrowed only. -/
theorem writeBack_returns
    (hneg : ∀ pos ∈ ps, pos.after ≠ pos.before → ∃ back, Width.value.neg pos.view.offset = .ok back)
    (hlt : ∀ pos ∈ ps, pos.view.domain.index < s.box.size) :
    ∃ o, writeBack n self again ps s changed = .ok o := by
  induction ps generalizing s changed with
  | nil => exact ⟨_, rfl⟩
  | cons pos ps ih =>
    obtain ⟨hpos, hneg⟩ := List.forall_mem_cons.1 hneg
    obtain ⟨hown, hlt⟩ := List.forall_mem_cons.1 hlt
    unfold writeBack
    split
    · exact ih hneg hlt
    · rename_i hne
      split
      · exact ⟨_, rfl⟩
      · obtain ⟨back, hback⟩ := hpos hne
        obtain ⟨o, ho⟩ : ∃ o, cut n self again pos s = .ok o := cut_returns hback hown
        rw [bind_of_ok ho]
        split
        · exact ih hneg (cut_size ho ▸ hlt)
        · exact ⟨_, rfl⟩

/-- A run that its constraint does not refuse ends as writing back does. -/
theorem run_of_writeBack {r : Narrowing} (hq : n.propagators.get? id = some q)
    (hr : q.constraint.propagate (q.reads s.box) q.parameters = .ok r)
    (hs : r.status ≠ .inconsistent) : ∃ u : State, u.box = s.box ∧
      ∀ o, writeBack n id q.selfAliasing (positions q.views (q.reads s.box) r.bounds) u false =
        .ok o → ∃ o', run n s id = .ok o' ∧ o'.kept = o.kept ∧ o'.state.box = o.state.box := by
  have hr' : q.constraint.propagate (q.views.map (·.read (s.count fun c =>
      { c with propagatorCalls := c.propagatorCalls + 1 }).box)) q.parameters = .ok r := hr
  unfold run
  rw [bind_of_ok (Keyed.get_eq_ok.2 hq)]
  dsimp only
  rw [bind_of_ok hr', if_neg hs]
  generalize hu : (if r.status = .entailed then (_ : State) else _) = u
  refine ⟨u, by rw [← hu]; split <;> rfl, fun o ho => ?_⟩
  have ho' : writeBack n id q.selfAliasing (positions q.views (q.views.map (·.read (s.count fun c =>
      { c with propagatorCalls := c.propagatorCalls + 1 }).box)) r.bounds) u false = .ok o := ho
  rw [bind_of_ok ho']
  split <;> exact ⟨_, rfl, rfl, rfl⟩

/-- **Offsets are taken away and put back exactly**, as long as they can be negated.  A run sees
each variable in full.  If no variable that it narrows has the least offset, it comes to an end,
and leaves each shared domain the values that all its variables keep, or fails for want of any. -/
theorem run_translates (hp : Built p) (hb : s.box.Inside p.network.initial) (ha : s.box.Alive)
    (hq : p.network.propagators.get? id = some q) (ho : ∀ v ∈ q.views, Width.value.Fits v.offset) :
    q.reads s.box = q.views.map (fun v =>
        ⟨(s.box.entry v.domain).min + v.offset, (s.box.entry v.domain).max + v.offset⟩) ∧
      ∀ r, q.constraint.propagate (q.reads s.box) q.parameters = .ok r →
        r.status ≠ .inconsistent →
        (∀ pos ∈ positions q.views (q.reads s.box) r.bounds,
          (∃ back, Width.value.neg pos.view.offset = .ok back ∧
              pos.after.shifted back = ⟨pos.after.min - pos.view.offset,
                pos.after.max - pos.view.offset⟩) ↔
            pos.view.offset ≠ Width.value.lo) ∧
        ((∀ pos ∈ positions q.views (q.reads s.box) r.bounds, pos.after ≠ pos.before →
            pos.view.offset ≠ Width.value.lo) →
          ∃ o, run p.network s id = .ok o ∧
            (o.kept = true ↔ ∀ d,
              (Position.kept (positions q.views (q.reads s.box) r.bounds) s.box d).Nonempty) ∧
            (o.kept = true → ∀ d, {x | (o.state.box.entry d).contains x} =
              Position.kept (positions q.views (q.reads s.box) r.bounds) s.box d)) := by
  have hn := hp.sound.network
  have hpost := hn.posted q (Keyed.mem_of_get? hq)
  refine ⟨List.map_congr_left fun v hv => (hpost.carried v hv).read_eq hb ha, fun r hr hs => ?_⟩
  obtain ⟨hwithin, hfilled⟩ :=
    (q.constraint.contract q.parameters).shrinks (hpost.posed hb ha) hr hs
  have hplaced := hpost.placed hwithin hfilled
  have hneg : ∀ pos ∈ positions q.views (q.reads s.box) r.bounds,
      (∃ back, Width.value.neg pos.view.offset = .ok back) ↔
        pos.view.offset ≠ Width.value.lo := fun pos hpos => by
    obtain ⟨k, hv, -⟩ := mem_positions.1 hpos
    exact exists_neg_iff (ho _ (List.mem_of_getElem? hv))
  refine ⟨fun pos hpos => ?_, fun hleast => ?_⟩
  · rw [← hneg pos hpos]
    refine exists_congr fun back => and_iff_left_of_imp fun hback => ?_
    obtain ⟨-, rfl⟩ := Width.neg_eq_ok.1 hback
    exact (hplaced pos hpos).shifted_eq_target hb ha hn
  · obtain ⟨u, hu, hrun⟩ := run_of_writeBack hq hr hs
    obtain ⟨o, hback⟩ : ∃ o, writeBack p.network id q.selfAliasing
        (positions q.views (q.reads s.box) r.bounds) u false = .ok o := by
      refine writeBack_returns (fun pos hpos hne => (hneg pos hpos).2 (hleast pos hpos hne))
        fun pos hpos => ?_
      rw [hu, hb.size_eq]
      exact (hplaced pos hpos).carried.has
    obtain ⟨o', ho', hkept, hbox⟩ := hrun o hback
    have hcases := writeBack_contains hn hb ha hplaced (hu ▸ .refl _) (hu ▸ ha) hback
    rw [hu] at hcases
    refine ⟨o', ho', ?_⟩
    rw [hkept, hbox]
    rcases hcases with ⟨hk, halive, heq⟩ | ⟨hk, d, hd⟩
    · rw [hk]
      refine ⟨iff_of_true rfl fun d => ?_, fun _ => heq⟩
      rw [← heq d]
      exact ⟨_, Interval.contains_iff.2 ⟨Int.le_refl _, halive.bounds d⟩⟩
    · rw [hk]
      refine ⟨iff_of_false Bool.false_ne_true fun hall => ?_, Bool.noConfusion⟩
      exact Set.not_nonempty_iff_eq_empty.2 hd (hall d)

/-- A truth value, and a variable that lies an offset above it and may not exceed the offset. -/
def Problem.lowered (offset : Int) : Problem :=
  let p := ofIntervals [⟨0, 1⟩]
  match p.addOffsetVariable ⟨0⟩ offset with
  | .error _ => p
  | .ok (x, q) =>
    match q.addPropagator [x] .affineLeq [1, offset] with
    | .error _ => q
    | .ok (_, r) => r

theorem Built.lowered {offset : Int} {q : Problem}
    (hadd : (Problem.ofIntervals [⟨0, 1⟩]).addOffsetVariable ⟨0⟩ offset = .ok (⟨1⟩, q))
    (hpost : q.addPropagator [⟨1⟩] .affineLeq [1, offset] = .ok (⟨0⟩, .lowered offset)) :
    Built (.lowered offset) :=
  .addPropagator (.addOffsetVariable (.addVariable .empty (by decide)) hadd) hpost

/-- The least offset that can be negated. -/
theorem run_translates_lowered : Built (.lowered (-2147483647)) ∧
    ∃ o, run (Problem.lowered (-2147483647)).network
        (State.start (.lowered (-2147483647)) .off) ⟨0⟩ = .ok o ∧
      o.kept = true ∧ {x | (o.state.box.entry ⟨0⟩).contains x} = {0} := by
  let v : View := ⟨⟨0⟩, -2147483647⟩
  let q : Propagator := .post .affineLeq [v] [1, -2147483647]
  let s := State.start (.lowered (-2147483647)) .off
  let pos : Position := ⟨v, ⟨-2147483647, -2147483646⟩, ⟨-2147483647, -2147483647⟩⟩
  have hp : Built (.lowered (-2147483647)) := .lowered rfl rfl
  have ha : s.box.Alive := Box.anyEmpty_eq_false_iff.1 (by decide +kernel)
  have hr : q.constraint.propagate (q.reads s.box) q.parameters =
      .ok ⟨.consistent, [⟨-2147483647, -2147483647⟩]⟩ := by decide +kernel
  have hq : (Problem.lowered (-2147483647)).network.propagators.get? ⟨0⟩ = some q := rfl
  obtain ⟨-, hruns⟩ := run_translates (s := s) hp (.refl _) ha hq
    (List.forall_mem_singleton.2 (by decide))
  obtain ⟨-, hend⟩ := hruns _ hr Status.noConfusion
  obtain ⟨o, ho, hkept, hvalues⟩ := hend (List.forall_mem_singleton (a := pos).2 fun _ => by decide)
  have hpositions : positions q.views (q.reads s.box) [⟨-2147483647, -2147483647⟩] = [pos] := rfl
  rw [hpositions] at hkept hvalues
  have hk : o.kept = true := hkept.2 fun d => by
    refine ⟨0, ?_, List.forall_mem_singleton.2 fun _ => rfl⟩
    obtain ⟨_ | k⟩ := d
    · rfl
    · rfl
  refine ⟨hp, o, ho, hk, (hvalues hk ⟨0⟩).trans (Set.ext fun x => ?_)⟩
  show _ ∧ _ ↔ x = 0
  rw [List.forall_mem_singleton]
  constructor
  · rintro ⟨-, hx⟩
    have hx := Interval.contains_iff.1 (hx rfl)
    simp only [pos, v] at hx
    omega
  · rintro rfl
    exact ⟨rfl, fun _ => rfl⟩

/-- The least offset of all is accepted, but a run that narrows the variable ends in a fault. -/
theorem run_faults_of_least_offset : Built (.lowered (-2147483648)) ∧
    (Problem.lowered (-2147483648)).current.Alive ∧
    (Problem.lowered (-2147483648)).network.views.get? ⟨1⟩ = some ⟨⟨0⟩, -2147483648⟩ ∧
    run (Problem.lowered (-2147483648)).network
      (State.start (.lowered (-2147483648)) .off) ⟨0⟩ = .error .negOverflow := by
  refine ⟨.lowered rfl rfl, Box.anyEmpty_eq_false_iff.1 (by decide +kernel), rfl, ?_⟩
  decide +kernel

end BoundsSolver
