/-
# Searching for better solutions only

After a solution the search is confined to one side of its objective, by a bound on the
shared domain behind it.  The bound lets every better solution through and no worse one
(`improve_allows`): it only keeps solutions of the same value where it stops at an end of
the range of values, and there none can be better.

`Solver.Seeks` is what the loops of an optimisation keep up: whatever beats the best
solution so far is pending, and nothing that it beats is.  Both ways of going on keep
it, since going on below the choice points leaves what was pending and keeps within the
bound (`prune_pending_iff`), and starting again whatever keeps within the bound
(`restart_pending_iff`).
-/

import BoundsSolver.Proofs.Search.Enumeration

namespace BoundsSolver

/-- The first value of the objective is strictly better than the second. -/
def Direction.Better : Direction → Int → Int → Prop
  | .minimise, x, y => x < y
  | .maximise, x, y => y < x

variable {σ : Type} {n : Network} {s t : Solver σ} {v : View} {x : VariableId}
  {dir : Direction} {best : Option (List Int)} {br : Branch} {as bs : List Int}

/-! ### The bound on the objective -/

theorem Direction.Better.trans {x y z : Int} (h : dir.Better x y) (h' : ¬ dir.Better z y) :
    dir.Better x z := by
  cases dir with
  | minimise =>
    simp only [Better] at *
    omega
  | maximise =>
    simp only [Better] at *
    omega

theorem Direction.not_better_self (dir : Direction) (x : Int) : ¬ dir.Better x x := by
  cases dir <;> exact Int.lt_irrefl x

@[simp] theorem improve_domain (dir : Direction) (v : View) (value : Int) :
    (dir.improve v value).domain = v.domain := by
  cases dir <;> rfl

/-- Whatever the value, the bound is on the same side. -/
theorem improve_bound (dir : Direction) (v : View) (value value' : Int) :
    (dir.improve v value).bound = (dir.improve v value').bound := by
  cases dir <;> rfl

theorem valueIn_fits {d : DomainId} (hn : n.WellFormed) (hm : Mem as n.initial.toList)
    (hd : d.index < n.initial.size) : Width.value.Fits (d.valueIn as) := by
  have hentry : n.initial.entry d ∈ n.initial.toList :=
    Keyed.mem_of_get? (Box.get?_eq_of_lt hd)
  obtain ⟨hlo, hhi⟩ := hn.fits _ hentry
  obtain ⟨hmin, hmax⟩ := Box.mem_bounds hm d
  exact ⟨Int.le_trans hlo.1 hmin, Int.le_trans hmax hhi.2⟩

theorem value_fits (hv : n.Carries v) (hm : Mem as n.initial.toList) :
    Width.value.Fits (v.value as) := by
  obtain ⟨i, hi, hlo, hhi⟩ := hv
  obtain ⟨hmin, hmax⟩ := Box.mem_bounds hm v.domain
  rw [Keyed.entry_of_get? hi] at hmin hmax
  exact ⟨Int.le_trans hlo.1 (Int.add_le_add_right hmin _),
    Int.le_trans (Int.add_le_add_right hmax _) hhi.2⟩

/-- **The bound lets every better assignment through and no worse one.** -/
theorem improve_allows (hn : n.WellFormed) (hv : n.Carries v) (ha : Mem as n.initial.toList)
    (hb : Mem bs n.initial.toList) :
    (dir.Better (v.value bs) (v.value as) → (dir.improve v (v.value as)).Allows bs) ∧
      ((dir.improve v (v.value as)).Allows bs → ¬ dir.Better (v.value as) (v.value bs)) := by
  have had := valueIn_fits hn ha hv.has
  have hbd := valueIn_fits hn hb hv.has
  have hav := value_fits hv ha
  have hbv := value_fits hv hb
  simp only [Width.Fits, Width.value, View.value] at had hbd hav hbv
  cases dir with
  | minimise =>
    simp only [Direction.Better, Direction.improve, Branch.Allows, View.value, Width.clamp,
      Width.value]
    constructor <;> intro h <;> omega
  | maximise =>
    simp only [Direction.Better, Direction.improve, Branch.Allows, View.value, Width.clamp,
      Width.value]
    constructor <;> intro h <;> omega

/-- The value of the objective is read off the values of a solution. -/
theorem valuesOf_getElem? (hx : n.views.get x = .ok v) (as : List Int) :
    (n.valuesOf as)[x.index]? = some (v.value as) := by
  have hget := Keyed.get_eq_ok.1 hx
  rw [Keyed.get?_eq_getElem?] at hget
  rw [Network.valuesOf, List.getElem?_map]
  exact congrArg (Option.map _) hget

theorem valuesOf_getD (hx : n.views.get x = .ok v) (as : List Int) :
    (n.valuesOf as).getD x.index 0 = v.value as := by
  rw [List.getD_eq_getElem?_getD, valuesOf_getElem? hx]
  rfl

namespace Solver

/-! ### Going on -/

/-- The boxes of all choice points are narrowed alike. -/
theorem prune_behind (s : Solver σ) (br : Branch) :
    (s.prune br).behind = s.behind.map fun b => Box.tighten b br := by
  show (s.choicePoints.tightenAll br).live.map _ = _
  rw [ChoicePoints.live_tightenAll, behind, List.map_map, List.map_map]
  refine List.map_congr_left ?_
  intro c _
  exact Box.tighten_comm c.box br c.alternative

theorem prune_orderly (ho : s.Orderly) (hl : s.Left) (br : Branch) : (s.prune br).Orderly where
  fresh hph := by
    have hph : s.phase = .ready := hph
    rcases hl with h | h <;> rw [h] at hph <;> cases hph
  apart := by
    have hl' : (s.prune br).Left := hl
    have hapart := ho.apart
    rw [frontier_of_left hl] at hapart
    rw [frontier_of_left hl', prune_behind, List.pairwise_map]
    refine hapart.imp ?_
    intro b c h
    exact h.of_inside (Box.tighten_inside b br) (Box.tighten_inside c br)

theorem restart_frontier (s : Solver σ) (br : Branch) :
    (s.restart br).frontier = [Box.tighten s.network.initial br] := by
  show s.reset.choicePoints.live.map _ ++ _ = _
  rw [show s.reset.choicePoints.live = [] from ChoicePoints.live_clear _]
  rfl

/-- **Starting again leaves all that keeps within the bound.** -/
theorem restart_pending_iff (hs : s.network = n) (hd : br.domain.index < n.initial.size) :
    (s.restart br).Pending n as ↔ n.Solves as ∧ br.Allows as := by
  subst hs
  show _ ∧ (∃ b ∈ (s.restart br).frontier, _) ↔ _
  rw [restart_frontier]
  constructor
  · rintro ⟨hsat, b, hb, hm⟩
    obtain rfl := List.mem_singleton.1 hb
    obtain ⟨hm, hallows⟩ := (Box.mem_tighten_iff hd).1 hm
    exact ⟨⟨hm, hsat⟩, hallows⟩
  · rintro ⟨⟨hm, hsat⟩, hallows⟩
    exact ⟨hsat, _, List.mem_singleton_self _, (Box.mem_tighten_iff hd).2 ⟨hm, hallows⟩⟩

theorem restart_orderly (s : Solver σ) (br : Branch) : (s.restart br).Orderly where
  fresh _ := ChoicePoints.live_clear _
  apart := by
    rw [restart_frontier]
    exact List.pairwise_singleton _ _

/-! ### The best solution so far -/

/-- The search is for solutions that beat the best one so far, if there is one. -/
structure Seeks (n : Network) (dir : Direction) (v : View) (best : Option (List Int))
    (s : Solver σ) : Prop where
  solves : ∀ as ∈ best, n.Solves as
  /-- Nothing that is pending is worse. -/
  confined : ∀ bs, s.Pending n bs →
    n.Solves bs ∧ ∀ as ∈ best, ¬ dir.Better (v.value as) (v.value bs)
  /-- All that is better is pending. -/
  ahead : ∀ bs, n.Solves bs → (∀ as ∈ best, dir.Better (v.value bs) (v.value as)) →
    s.Pending n bs

variable {u : Solver σ}

/-- **A solution becomes the best one so far** if the search goes on with pending solutions
that keep within its bound, and with all of those. -/
theorem Seeks.improve (h : s.Seeks n dir v best) (hn : n.WellFormed) (hv : n.Carries v)
    (ha : s.Pending n as)
    (hsolves : ∀ bs, u.Pending n bs → n.Solves bs ∧ (dir.improve v (v.value as)).Allows bs)
    (hkeeps : ∀ bs, s.Pending n bs → bs ≠ as → (dir.improve v (v.value as)).Allows bs →
      u.Pending n bs) : u.Seeks n dir v (some as) := by
  obtain ⟨has, hbeats⟩ := h.confined as ha
  refine ⟨?_, ?_, ?_⟩
  · rintro _ ⟨⟩
    exact has
  · intro bs hp
    obtain ⟨hb, hallows⟩ := hsolves bs hp
    refine ⟨hb, ?_⟩
    rintro _ ⟨⟩
    exact (improve_allows hn hv has.within hb.within).2 hallows
  · intro bs hb hbetter
    have hbetter := hbetter as rfl
    have hp : s.Pending n bs := by
      refine h.ahead bs hb ?_
      intro as' has'
      exact hbetter.trans (hbeats as' has')
    refine hkeeps bs hp ?_ ((improve_allows hn hv has.within hb.within).1 hbetter)
    rintro rfl
    exact dir.not_better_self _ hbetter

end Solver
end BoundsSolver
