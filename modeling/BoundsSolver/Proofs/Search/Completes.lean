/-
# Searches complete

A search whose brancher takes decisions that split comes to an answer, or stops at a fault of
arithmetic: a sum of the propagators, a bound next to the end of the range of values.  Filtering
a node completes (`filter_completes`); a decision of the search itself splits, since it is taken
only where some shared domain has two values.

`Solver.Steady` is what a search needs for that; every move keeps it (`Steady.kept`), so that one
solution after the other is found, or that there is none (`solveOne_completes`), and going on
from a solution to a better one completes as well (`optimise_completes`).
-/

import BoundsSolver.Proofs.Search.Calls

namespace BoundsSolver

/-- A brancher whose decisions split.  Asked at a node with a shared domain that is not fixed,
it comes to an answer or stops at a fault of arithmetic, and what it decides splits a shared
domain, whatever its state. -/
def Brancher.Splits {σ : Type} (b : Brancher σ) (n : Network) : Prop :=
  ∀ (m : σ) (c : Box) (g : Generator), c.Inside n.initial → c.Alive → c.firstUnfixed? ≠ none →
    Completes (b.next m c g) ∧ ∀ {d : Decision} {m' : σ} {g' : Generator},
      b.next m c g = .ok (some d, m', g') → ∃ i, c.get d.domain = .ok i ∧ d.splits i = true

/-- A solver of the network that can go on. -/
structure Solver.Steady {σ : Type} (n : Network) (s : Solver σ) : Prop where
  sound : s.Sound n
  grounded : s.state.Grounded n
  splits : s.brancher.Splits n

variable {σ : Type} {n : Network} {d : DomainId} {b : Box} {i : Interval}

/-! ### Decisions -/

/-- Where the bounds of a shared domain differ, the least value can be split off. -/
theorem Box.Alive.atMost_min_splits (ha : b.Alive) (hget : b.get d = .ok i)
    (hfixed : ¬ i.isFixed = true) : (Decision.atMost d i.min).splits i = true := by
  have hle := ha.bounds d
  rw [Keyed.entry_of_get? (Keyed.get_eq_ok.1 hget)] at hle
  rw [Interval.isFixed_iff] at hfixed
  simp only [Decision.splits, decide_eq_true_eq]
  omega

/-- The decision of the search itself splits. -/
theorem Box.firstUnfixed?_splits (ha : b.Alive) (h : b.firstUnfixed? = some (d, i)) :
    b.get d = .ok i ∧ (Decision.atMost d i.min).splits i = true := by
  obtain ⟨k, hk, h⟩ := Option.bind_eq_some_iff.1 h
  obtain ⟨j, hj, h⟩ := Option.map_eq_some_iff.1 h
  obtain ⟨rfl, rfl⟩ := Prod.mk.inj h
  obtain ⟨hlt, hfixed, -⟩ := Array.findIdx?_eq_some_iff_getElem.1 hk
  have hget : b.get (⟨k⟩ : DomainId) = .ok j := Keyed.get_eq_ok.2 hj
  obtain rfl : b.entries[k] = j := Option.some.inj ((Array.getElem?_eq_getElem hlt).symm.trans hj)
  refine ⟨hget, ha.atMost_min_splits hget ?_⟩
  rw [Bool.not_eq_true', ← Bool.not_eq_true] at hfixed
  exact hfixed

namespace Solver

variable {s t v : Solver σ} {a : Option Answer} {d : Decision} {other : Branch}

theorem branchOn_completes (h : ∃ i, s.state.box.get d.domain = .ok i ∧ d.splits i = true) :
    Completes (s.branchOn d) := by
  obtain ⟨i, hi, hsplits⟩ := h
  unfold branchOn
  rw [bind_of_ok hi, if_pos hsplits]
  refine d.alternative_completes.bind fun other _ => ?_
  split <;> exact .ok _

/-- Going on from a node at rest completes. -/
theorem advance_completes (hs : s.state.Resting n) (hb : s.brancher.Splits n) :
    Completes s.advance := by
  unfold advance
  split
  · rename_i first i hfirst
    obtain ⟨hcompletes, hsplits⟩ := hb s.memory s.state.box s.generator hs.coherent.inside hs.alive
      (by rw [hfirst]; exact Option.some_ne_none _)
    refine hcompletes.bind fun r hr => ?_
    obtain ⟨own, memory, generator⟩ := r
    refine branchOn_completes (s := { s with memory, generator }) ?_
    cases own with
    | none => exact ⟨i, Box.firstUnfixed?_splits hs.alive hfirst⟩
    | some d => exact hsplits hr
  · exact (Completes.mapM (fun v => Width.value.add_completes _ _) _).bind fun _ _ => .ok _

/-! ### The search -/

section

variable (hn : n.WellFormed) (hg : n.Grounded)
include hn hg

/-- **A move completes.** -/
theorem step_completes (hs : s.Steady n) : Completes s.step := by
  cases hph : s.phase with
  | ready =>
    rw [step_of_ready hph]
    exact .ok _
  | solved =>
    rw [step_of_left (.inl hph)]
    exact .ok _
  | backtrack =>
    rw [step_of_left (.inr hph)]
    exact .ok _
  | exhausted =>
    rw [step_of_exhausted hph]
    exact .ok _
  | filtering =>
    have hnet := hs.sound.network
    have hprimed := hs.sound.primed hph
    cases hu : filter s.network s.options.consistency s.state with
    | error f =>
      rw [step_of_fault hph hu]
      rw [hnet] at hu
      exact .error (filter_completes hn hg hprimed hs.grounded f hu)
    | ok r =>
      obtain ⟨kept, u⟩ := r
      cases kept with
      | false =>
        rw [step_of_refuted hph hu]
        exact .ok _
      | true =>
        rw [step_of_consistent hph hu]
        rw [hnet] at hu
        have hrest := (filter_filtered hn hprimed hu).rests rfl
        exact advance_completes (s := { s with state := u }) hrest hs.splits

omit hn in
theorem backtrack_grounded {found : Bool} (hnet : s.network = n) (hs : s.state.Grounded n)
    (h : s.backtrack = (found, t)) : t.state.Grounded n := by
  fun_induction backtrack s with
  | case1 =>
    obtain ⟨-, rfl⟩ := Prod.mk.inj h
    exact hs
  | case2 s e cs hp _ ih => exact ih hnet hs h
  | case3 s e cs hp _ =>
    obtain ⟨-, rfl⟩ := Prod.mk.inj h
    have hrestore : (s.restore e cs).state.Grounded n := hs
    have hnet : (s.restore e cs).network = n := hnet
    rw [resume_state, hnet]
    split
    · exact .wake (s := (s.restore e cs).state.tell _) hrestore hg _ _
    · exact .wake (.wake (s := (s.restore e cs).state.tell _) hrestore hg _ _) hg _ _

omit hn in
theorem step_grounded (hnet : s.network = n) (hs : s.state.Grounded n)
    (h : s.step = .ok (t, a)) : t.state.Grounded n := by
  cases step_moves h with
  | close => exact hs
  | enter => exact hnet ▸ hs.keys
  | fail _ hu => exact filter_grounded (hnet ▸ hu)
  | leaf _ hu => exact (filter_grounded (hnet ▸ hu) : State.Grounded n _)
  | commit hd =>
    cases hd with
    | @intro u _ _ _ _ memory generator _ _ hu =>
      have hu : u.Grounded n := filter_grounded (hnet ▸ hu)
      subst hnet
      exact .narrow (s := (u.count _).tell _) hu hg _
  | overflow hd =>
    cases hd with
    | intro _ hu => exact filter_grounded (hnet ▸ hu)
  | leave =>
    unfold leave
    split <;> rename_i v hv <;>
    · have hv := backtrack_grounded hg hnet hs hv
      exact hv
  | stop => exact hs

/-- **A search keeps a solver steady.** -/
theorem Steady.kept : Kept (Steady n : Solver σ → Prop) where
  step hs h := ⟨(step_sound hn hs.sound h).1, step_grounded hg hs.sound.network hs.grounded h,
    (step_keeps h).brancher ▸ hs.splits⟩
  reset hs := ⟨reset_sound hs.sound, fun _ hid => absurd hid Triggered.not_mem_clear, hs.splits⟩
  tell value hs := ⟨tellObjective_sound hs.sound value, hs.grounded, hs.splits⟩
  prune hs ho := ⟨prune_sound hs.sound ho, hs.grounded, hs.splits⟩
  restart br hs :=
    ⟨restart_sound hs.sound br, fun _ hid => absurd hid Triggered.not_mem_clear, hs.splits⟩
  drop hs hph := ⟨drop_sound hs.sound hph, hs.grounded, hs.splits⟩

/-- **A search for the next solution completes.** -/
theorem solveOne_completes (hs : s.Steady n) : Completes s.solveOne := by
  fun_induction solveOne s with
  | case1 s f hstep => exact .error (step_completes hn hg hs f hstep)
  | case2 => exact .ok _
  | case3 s u hstep ih => exact ih ((Steady.kept hn hg).step hs hstep)

theorem collectOnto_completes {found : List (List Int)} {wanted : Option Nat} (hs : s.Steady n) :
    Completes (s.collectOnto found wanted).outcome := by
  fun_induction collectOnto found wanted s with
  | case1 => exact .ok _
  | case2 found wanted s _ f hu => exact .error (solveOne_completes hn hg hs f hu)
  | case3 => exact .ok _
  | case4 => exact .ok _
  | case5 found wanted s _ values u hu ih => exact ih ((Steady.kept hn hg).solveOne hs hu)

/-- **Listing all solutions completes.** -/
theorem findAll_completes (hs : s.Steady n) : Completes s.findAll :=
  (collectOnto_completes hn hg ((Steady.kept hn hg).reset hs)).bind fun _ _ => .ok _

theorem pruneOn_completes {dir : Direction} {y : VariableId} {v : View}
    {best : Option (List Int)} (hs : s.Steady n) (ho : ∀ o, s.objective = some o →
      ∀ value, o.domain = (dir.improve v value).domain ∧ o.bound = (dir.improve v value).bound) :
    Completes (s.pruneOn dir y v best) := by
  have hkept := Steady.kept (σ := σ) hn hg
  fun_induction pruneOn dir y v best s with
  | case1 best s f hu => exact .error (solveOne_completes hn hg hs f hu)
  | case2 => exact .ok _
  | case3 => exact .ok _
  | case4 best s values u hu value ih =>
    refine ih (hkept.prune (hkept.tell value (hkept.solveOne hs hu)) fun o hobj => ?_)
      fun o hobj => ?_
    · refine ho o ?_ value
      rw [← (solveOne_keeps hu).objective]
      exact hobj
    · obtain rfl := Option.some.inj hobj
      intro value
      exact ⟨by rw [improve_domain, improve_domain], improve_bound ..⟩

/-- **Optimising below the choice points completes.** -/
theorem optimise_completes {y : VariableId} {dir : Direction} (hs : s.Steady n)
    (hy : y.index < n.views.size) : Completes (s.optimise y .prune dir) := by
  obtain ⟨v, hv⟩ := Option.isSome_iff_exists.1
    ((Keyed.get?_isSome n.views y).trans (decide_eq_true hy))
  have hget : s.reset.network.views.get y = .ok v := by
    rw [show s.reset.network = n from hs.sound.network]
    exact Keyed.get_eq_ok.2 hv
  unfold optimise
  dsimp only
  rw [bind_of_ok hget]
  -- A reset leaves no objective that could be at odds with the one to be improved.
  exact pruneOn_completes hn hg ((Steady.kept hn hg).reset hs)
    fun o ho => absurd ho (Option.some_ne_none o).symm

end

end Solver
end BoundsSolver
