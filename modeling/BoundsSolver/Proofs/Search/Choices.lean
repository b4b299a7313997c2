/-
# Shaving takes no more decisions

With plain propagation the decisions of a search are determined by the box that it starts
from: propagation leaves the greatest stable box, and the least value of its first shared
domain that is not fixed is tried (`Box.Takes`).  A search under any consistency leaves a
stable box too, but perhaps a smaller one.  Each of its decisions then belongs to one of the
plain search, at which the same shared domain is split at the same value
(`Box.Takes.decision`): where the smaller box lies on one side of a decision, that decision
is not needed and the argument goes on below it.

So a search never takes more decisions than there are in the trees of boxes around its
frontier (`Solver.step_covered`), and a plain search takes just those of its own frontier
(`Solver.step_takes`).
-/

import BoundsSolver.Proofs.Search.Ascending
import BoundsSolver.Proofs.Search.Counts
import BoundsSolver.Proofs.Search.Shaving

namespace BoundsSolver

/-- The domain is the first that is not fixed. -/
structure Box.Unfixed (b : Box) (x : DomainId) : Prop where
  several : (b.entry x).min < (b.entry x).max
  first : ∀ e : DomainId, e.index < x.index → (b.entry e).min = (b.entry e).max

/-- The box with just the least value of a shared domain. -/
def Box.least (b : Box) (x : DomainId) : Box := b.tighten ⟨x, .max, (b.entry x).min⟩

/-- The box without the least value of a shared domain. -/
def Box.others (b : Box) (x : DomainId) : Box := b.tighten ⟨x, .min, (b.entry x).min + 1⟩

/-- To enumerate the solutions within the box by propagation takes so many decisions. -/
inductive Box.Takes (n : Network) : Box → Nat → Prop
  /-- The box is refuted. -/
  | refuted {b : Box} : (∀ c : Box, c.Inside b → c.Alive → ¬ n.StableOn c) → Takes n b 0
  /-- Nothing is left to decide. -/
  | fixed {b g : Box} : n.GreatestStable b g →
    (∀ x : DomainId, (g.entry x).min = (g.entry x).max) → Takes n b 0
  | decided {b g : Box} {x : DomainId} {j k : Nat} : n.GreatestStable b g → g.Unfixed x →
    Takes n (g.least x) j → Takes n (g.others x) k → Takes n b (j + k + 1)

/-- At most so many decisions enumerate the solutions within a box around this one. -/
def Box.Covered (n : Network) (b : Box) (k : Nat) : Prop :=
  ∃ (c : Box) (j : Nat), b.Inside c ∧ c.Takes n j ∧ j ≤ k

/-- Each box has a number, and they add up to `k`. -/
def Sums (R : Box → Nat → Prop) : List Box → Nat → Prop
  | [], k => k = 0
  | b :: bs, k => ∃ i j, R b i ∧ Sums R bs j ∧ k = i + j

variable {σ : Type} {p : Problem} {n : Network} {s t v : Solver σ} {b c g : Box}
  {bs cs : List Box} {R : Box → Nat → Prop} {d : Decision} {other : Branch} {x : DomainId}
  {a : Option Answer} {i j k : Nat} {found solutions : List (List Int)}

/-! ### Sums over boxes -/

theorem sums_append : Sums R (bs ++ cs) k ↔ ∃ i j, Sums R bs i ∧ Sums R cs j ∧ k = i + j := by
  induction bs generalizing k with
  | nil =>
    constructor
    · intro h
      exact ⟨0, k, rfl, h, (Nat.zero_add k).symm⟩
    · rintro ⟨i, j, rfl, h, rfl⟩
      rwa [Nat.zero_add]
  | cons b bs ih =>
    constructor
    · rintro ⟨i, j, hb, hrest, rfl⟩
      obtain ⟨j, l, hbs, hcs, rfl⟩ := ih.1 hrest
      exact ⟨i + j, l, ⟨i, j, hb, hbs, rfl⟩, hcs, (Nat.add_assoc i j l).symm⟩
    · rintro ⟨i, l, ⟨i, j, hb, hbs, rfl⟩, hcs, rfl⟩
      exact ⟨i, j + l, hb, ih.2 ⟨j, l, hbs, hcs, rfl⟩, Nat.add_assoc i j l⟩

theorem sums_singleton : Sums R [b] k ↔ R b k := by
  constructor
  · rintro ⟨i, j, hb, rfl, rfl⟩
    exact hb
  · intro hb
    exact ⟨k, 0, hb, rfl, rfl⟩

theorem sums_concat : Sums R (bs ++ [b]) k ↔ ∃ i j, Sums R bs i ∧ R b j ∧ k = i + j := by
  rw [sums_append]
  simp only [sums_singleton]

/-! ### The trees of boxes -/

namespace Box

theorem Unfixed.lt_size (h : b.Unfixed x) : x.index < b.size := lt_size_of_lt h.several

/-- A box that keeps to the side of a branch lies within the tightened box. -/
theorem Inside.tighten (h : b.Inside c) (br : Branch)
    (hbr : match br.bound with
      | .min => br.value ≤ (b.entry br.domain).min
      | .max => (b.entry br.domain).max ≤ br.value) : b.Inside (Box.tighten c br) := by
  refine inside_iff.2 ⟨by rw [size_tighten, h.size_eq], fun e => ?_⟩
  have hbounds := h.bounds e
  rw [entry_tighten]
  split
  · rename_i he
    obtain ⟨rfl, -⟩ := he
    cases hbound : br.bound <;> rw [hbound] at hbr
    · simp only [Interval.tighten, Interval.tightenMin_min, Interval.tightenMin_max]
      dsimp only at hbr
      omega
    · simp only [Interval.tighten, Interval.tightenMax_min, Interval.tightenMax_max]
      dsimp only at hbr
      omega
  · exact hbounds

theorem least_inside (b : Box) (x : DomainId) : (b.least x).Inside b := tighten_inside _ _

theorem others_inside (b : Box) (x : DomainId) : (b.others x).Inside b := tighten_inside _ _

theorem Inside.least (h : b.Inside c) (hle : (b.entry x).max ≤ (c.entry x).min) :
    b.Inside (c.least x) :=
  h.tighten ⟨x, .max, (c.entry x).min⟩ hle

theorem Inside.others (h : b.Inside c) (hlt : (c.entry x).min < (b.entry x).min) :
    b.Inside (c.others x) :=
  h.tighten ⟨x, .min, (c.entry x).min + 1⟩ hlt

theorem Unfixed.least_max (h : b.Unfixed x) : ((b.least x).entry x).max = (b.entry x).min := by
  rw [Box.least, entry_tighten, if_pos ⟨rfl, h.lt_size⟩, Interval.tighten, Interval.tightenMax_max]
  exact Int.min_eq_right (Int.le_of_lt h.several)

theorem Unfixed.others_min (h : b.Unfixed x) :
    ((b.others x).entry x).min = (b.entry x).min + 1 := by
  rw [Box.others, entry_tighten, if_pos ⟨rfl, h.lt_size⟩, Interval.tighten, Interval.tightenMin_min]
  exact Int.max_eq_right (Int.le_of_lt (Int.lt_succ _))

/-- What is fixed in a box is fixed in each box within it that has values left. -/
theorem Unfixed.index_le (h : b.Unfixed x) (hin : b.Inside c) {y : DomainId}
    (hy : c.Unfixed y) : y.index ≤ x.index := by
  by_contra hlt
  have hfixed := hy.first x (Nat.not_le.1 hlt)
  have hbounds := hin.bounds x
  have := h.several
  omega

/-- **Each decision in a smaller box is one in the tree of the greater box**: its branches lie
within boxes of that tree whose decisions are fewer by one together. -/
theorem Takes.decision (h : c.Takes n k) (hb : b.Alive) (hst : n.StableOn b) (hin : b.Inside c)
    (hx : b.Unfixed x) :
    ∃ i j, (b.least x).Covered n i ∧ (b.others x).Covered n j ∧ i + j + 1 ≤ k := by
  induction h with
  | refuted hno => exact absurd hst (hno b hin hb)
  | @fixed c g hg hfixed =>
    have hbounds := (hg.greatest b hin hb hst).bounds x
    have := hfixed x
    have := hx.several
    omega
  | @decided c g y j k hg hy hleast hothers ihleast ihothers =>
    have hin : b.Inside g := hg.greatest b hin hb hst
    by_cases hbelow : (b.entry y).max ≤ (g.entry y).min
    · -- The box lies in the branch of the least value.
      obtain ⟨i₁, i₂, h₁, h₂, hle⟩ := ihleast (hin.least hbelow)
      exact ⟨i₁, i₂, h₁, h₂, by omega⟩
    by_cases habove : (g.entry y).min < (b.entry y).min
    · -- The box lies in the other branch.
      obtain ⟨i₁, i₂, h₁, h₂, hle⟩ := ihothers (hin.others habove)
      exact ⟨i₁, i₂, h₁, h₂, by omega⟩
    · -- Both boxes are split at the same value.
      have hmin : (b.entry y).min = (g.entry y).min :=
        Int.le_antisymm (Int.not_lt.1 habove) (hin.bounds y).1
      obtain rfl : x = y := by
        have hle := hx.index_le hin hy
        by_contra hne
        have hlt : y.index < x.index := Nat.lt_of_le_of_ne hle fun he =>
          hne (congrArg DomainId.mk he).symm
        have := hx.first y hlt
        omega
      refine ⟨j, k, ⟨_, j, ?_, hleast, Nat.le_refl j⟩, ⟨_, k, ?_, hothers, Nat.le_refl k⟩,
        Nat.le_refl _⟩
      · refine ((b.least_inside x).trans hin).least ?_
        rw [hx.least_max, hmin]
      · refine ((b.others_inside x).trans hin).others ?_
        rw [hx.others_min]
        omega

theorem Takes.covered (h : b.Takes n k) : b.Covered n k := ⟨b, k, .refl b, h, Nat.le_refl k⟩

/-- **So a stable box within a covered one has a decision to spare.** -/
theorem Covered.decision (h : c.Covered n k) (hb : b.Alive) (hst : n.StableOn b)
    (hin : b.Inside c) (hx : b.Unfixed x) :
    ∃ i j, (b.least x).Covered n i ∧ (b.others x).Covered n j ∧ i + j + 1 ≤ k := by
  obtain ⟨e, l, hc, he, hle⟩ := h
  obtain ⟨i, j, h₁, h₂, hle'⟩ := he.decision hb hst (hin.trans hc) hx
  exact ⟨i, j, h₁, h₂, hle'.trans hle⟩

/-- A box without a value for some shared domain needs no decision. -/
theorem takes_of_not_alive (h : ¬ b.Alive) : b.Takes n 0 :=
  .refuted fun _ hc hca _ => h (hca.of_inside hc)

end Box

theorem sums_takes_of_not_alive (h : ∀ b ∈ bs, ¬ b.Alive) : Sums (Box.Takes n) bs 0 := by
  induction bs with
  | nil => rfl
  | cons b bs ih =>
    obtain ⟨hb, hbs⟩ := List.forall_mem_cons.1 h
    exact ⟨0, 0, Box.takes_of_not_alive hb, ih hbs, rfl⟩

/-! ### Decisions and filtering -/

theorem Box.fixed_of_firstUnfixed? (h : b.firstUnfixed? = none) (x : DomainId) :
    (b.entry x).min = (b.entry x).max := by
  by_cases hlt : x.index < b.size
  · exact Box.firstUnfixed?_eq_none h _ (Keyed.mem_of_get? (Box.get?_eq_of_lt hlt))
  · rw [Box.entry_of_le (Nat.not_lt.1 hlt)]

/-- **The branches of a decision of the least value.** -/
theorem Decision.LeastFirst.branches (hd : d.LeastFirst b) {i : Interval}
    (hi : b.get d.domain = .ok i) (hs : d.splits i = true) (ho : d.alternative = .ok other) :
    ∃ x, b.Unfixed x ∧ Box.tighten b d.commitment = b.least x ∧
      Box.tighten b other = b.others x := by
  obtain ⟨x, rfl, hfirst⟩ := hd
  obtain ⟨w, hw, ho⟩ := bind_eq_ok.1 ho
  obtain ⟨-, rfl⟩ := Width.add_eq_ok.1 hw
  obtain rfl := Except.ok.inj ho
  have he := entry_of_get hi
  simp only [Decision.splits, decide_eq_true_eq] at hs
  subst he
  exact ⟨x, ⟨hs.2, hfirst⟩, rfl, rfl⟩

/-- Propagation leaves the greatest stable box or shows that there is none. -/
theorem propagate_takes (hn : n.WellFormed) {s t : State} {kept : Bool} (hs : s.Primed n)
    (h : propagate n s = .ok (kept, t)) :
    (kept = false → s.box.Takes n 0) ∧ (kept = true → n.GreatestStable s.box t.box) := by
  have hspec := propagate_spec hn hs h
  constructor
  · intro hk
    refine .refuted fun c hc hca hst => ?_
    have := (hspec.spares c hc hca (hn.spares_of_stableOn hca hst)).1
    rw [hk] at this
    cases this
  · intro hk
    exact ⟨hspec.inside, hspec.alive hk, hspec.stable hk, fun c hc hca hst =>
      (hspec.spares c hc hca (hn.spares_of_stableOn hca hst)).2⟩

namespace Solver

/-- What holds at each point of a search for the default brancher. -/
structure Plain (n : Network) (s : Solver σ) : Prop where
  sound : s.Sound n
  orderly : s.Orderly
  brancher : s.brancher.LeastFirst

theorem Plain.step (hn : n.WellFormed) (hs : s.Plain n) (h : s.step = .ok (t, a)) : t.Plain n where
  sound := (step_sound hn hs.sound h).1
  orderly := (step_accounts hn hs.sound hs.orderly h).1
  brancher := (step_keeps h).brancher ▸ hs.brancher

theorem Plain.solveOne {a : Answer} (hn : n.WellFormed) (hs : s.Plain n)
    (h : s.solveOne = .ok (a, t)) : t.Plain n := by
  obtain ⟨hsound, horderly, -⟩ := solveOne_accounts hn hs.sound hs.orderly h
  exact ⟨hsound, horderly, (solveOne_keeps h).brancher ▸ hs.brancher⟩

theorem filter_bounds {u v : State} {kept : Bool} (h : filter n .bounds u = .ok (kept, v)) :
    propagate n u = .ok (kept, v) := by
  unfold filter at h
  split at h
  · cases h
  · rename_i hu
    obtain ⟨rfl, rfl⟩ := Prod.mk.inj (Except.ok.inj h)
    exact hu
  · rename_i hu
    obtain ⟨rfl, rfl⟩ := Prod.mk.inj (Except.ok.inj h)
    exact hu

/-- What filtering by propagation makes of a node. -/
theorem filter_takes (hn : n.WellFormed) (hs : s.Sound n) (hph : s.phase = .filtering)
    (hc : s.options.consistency = .bounds) {u : State} {kept : Bool}
    (h : filter s.network s.options.consistency s.state = .ok (kept, u)) :
    (kept = false → s.state.box.Takes n 0) ∧
      (kept = true → n.GreatestStable s.state.box u.box) := by
  rw [hs.network, hc] at h
  exact propagate_takes hn (hs.primed hph) (filter_bounds h)

theorem Decides.behind (h : s.Decides v d other) : v.behind = s.behind :=
  congrArg (List.map _ ∘ ChoicePoints.live) h.choicePoints

/-- The branches of a decision that is taken. -/
theorem commit_branches (hs : s.Plain n) (hd : s.Decides v d other)
    {points : ChoicePoints}
    (hcs : v.choicePoints.push ⟨v.state.box, v.state.entailed, other⟩ = .ok points) :
    ∃ x, v.state.box.Unfixed x ∧ (v.commit d points).frontier =
      s.behind ++ [v.state.box.others x] ++ [v.state.box.least x] := by
  obtain ⟨i, hi, hsplits, hother⟩ := hd.splits
  obtain ⟨x, hx, hleast, hothers⟩ := (hd.leastFirst hs.brancher).branches hi hsplits hother
  refine ⟨x, hx, ?_⟩
  rw [commit_frontier hd.phase hcs, hleast, hothers, hd.behind]

/-- **A move of a plain search takes a decision where the tree has one.** -/
theorem step_takes (hn : n.WellFormed) (hs : s.Plain n) (hc : s.options.consistency = .bounds)
    (h : s.step = .ok (t, a)) (ha : ∀ capacity, a ≠ some (.overflow capacity))
    (hk : Sums (Box.Takes n) t.frontier k) :
    ∃ j, Sums (Box.Takes n) s.frontier j ∧
      s.state.statistics.choices + j = t.state.statistics.choices + k := by
  cases step_moves h with
  | close hph hempty =>
    rw [frontier_of_exhausted rfl] at hk
    refine ⟨0, ?_, by rw [show k = 0 from hk]⟩
    rw [frontier_of_ready hph, behind, hs.orderly.fresh hph]
    refine sums_singleton.2 (Box.takes_of_not_alive fun halive => ?_)
    rw [Box.anyEmpty_eq_false_iff.2 halive] at hempty
    cases hempty
  | enter hph =>
    rw [frontier_of_filtering rfl] at hk
    exact ⟨k, by rw [frontier_of_ready hph]; exact hk, rfl⟩
  | fail hph hu =>
    rw [frontier_of_left (.inr rfl)] at hk
    refine ⟨k, ?_, congrArg (· + k) (filter_choices hu).symm⟩
    rw [frontier_of_filtering hph, sums_concat]
    exact ⟨k, 0, hk, (filter_takes hn hs.sound hph hc hu).1 rfl, rfl⟩
  | leaf hph hu hfix =>
    rw [frontier_of_left (.inl rfl)] at hk
    refine ⟨k, ?_, congrArg (· + k) (filter_choices hu).symm⟩
    rw [frontier_of_filtering hph, sums_concat]
    exact ⟨k, 0, hk, .fixed ((filter_takes hn hs.sound hph hc hu).2 rfl)
      (Box.fixed_of_firstUnfixed? hfix), rfl⟩
  | @commit v d other points hd hcs =>
    obtain ⟨x, hx, hfrontier⟩ := commit_branches hs hd hcs
    rw [hfrontier, sums_concat] at hk
    obtain ⟨j, l, hk, hl, rfl⟩ := hk
    obtain ⟨i, j, hi, hj, rfl⟩ := sums_concat.1 hk
    have hcount : v.state.statistics.choices = s.state.statistics.choices := hd.choices
    refine ⟨i + (l + j + 1), ?_, ?_⟩
    · have hph := (hd.filtered hn hs.sound).1
      rw [frontier_of_filtering hph, sums_concat]
      refine ⟨i, _, hi, ?_, rfl⟩
      cases hd with
      | intro _ hu => exact .decided ((filter_takes hn hs.sound hph hc hu).2 rfl) hx hl hj
    · show _ = v.state.statistics.choices + 1 + _
      omega
  | overflow => exact absurd rfl (ha _)
  | leave hl =>
    obtain ⟨skipped, hfrontier, hdead⟩ := leave_frontier hn hs.sound hl
    refine ⟨k, ?_, by rw [leave_choices]⟩
    rw [hfrontier]
    exact sums_append.2 ⟨k, 0, hk, sums_takes_of_not_alive hdead, rfl⟩
  | stop => exact ⟨k, hk, rfl⟩

/-- **A move of any search takes a decision only where a tree around the node has one.** -/
theorem step_covered (hn : n.WellFormed) (hs : s.Plain n) (h : s.step = .ok (t, a))
    (hk : Sums (Box.Covered n) s.frontier k) :
    ∃ j, Sums (Box.Covered n) t.frontier j ∧
      t.state.statistics.choices + j ≤ s.state.statistics.choices + k := by
  cases step_moves h with
  | close => exact ⟨0, rfl, Nat.le_add_right _ k⟩
  | enter hph =>
    rw [frontier_of_ready hph] at hk
    exact ⟨k, hk, Nat.le_refl _⟩
  | fail hph hu =>
    rw [frontier_of_filtering hph] at hk
    obtain ⟨i, j, hi, -, rfl⟩ := sums_concat.1 hk
    refine ⟨i, hi, ?_⟩
    show _ + i ≤ _
    rw [filter_choices hu]
    omega
  | @leaf u values hph hu =>
    rw [frontier_of_filtering hph] at hk
    obtain ⟨i, j, hi, -, rfl⟩ := sums_concat.1 hk
    refine ⟨i, hi, ?_⟩
    show u.statistics.choices + i ≤ _
    rw [filter_choices hu]
    omega
  | @commit v d other points hd hcs =>
    obtain ⟨x, hx, hfrontier⟩ := commit_branches hs hd hcs
    obtain ⟨hph, hfil⟩ := hd.filtered hn hs.sound
    rw [frontier_of_filtering hph] at hk
    obtain ⟨i, j, hi, hj, rfl⟩ := sums_concat.1 hk
    have hrest := hfil.rests rfl
    obtain ⟨l, m, hl, hm, hle⟩ := hj.decision hrest.alive hrest.stable hfil.inside hx
    have hcount : v.state.statistics.choices = s.state.statistics.choices := hd.choices
    refine ⟨i + m + l, ?_, ?_⟩
    · rw [hfrontier, sums_concat]
      exact ⟨i + m, l, sums_concat.2 ⟨i, m, hi, hm, rfl⟩, hl, rfl⟩
    · show v.state.statistics.choices + 1 + _ ≤ _
      omega
  | overflow hd => exact ⟨0, rfl, hd.choices ▸ Nat.le_add_right _ k⟩
  | leave hl =>
    obtain ⟨skipped, hfrontier, -⟩ := leave_frontier hn hs.sound hl
    rw [hfrontier] at hk
    obtain ⟨i, j, hi, -, rfl⟩ := sums_append.1 hk
    refine ⟨i, hi, ?_⟩
    rw [leave_choices]
    omega
  | stop => exact ⟨k, hk, Nat.le_refl _⟩

/-! ### The loops -/

theorem solveOne_takes {a : Answer} (hn : n.WellFormed) (hs : s.Plain n)
    (hc : s.options.consistency = .bounds) (h : s.solveOne = .ok (a, t))
    (ha : ∀ capacity, a ≠ .overflow capacity) (hk : Sums (Box.Takes n) t.frontier k) :
    ∃ j, Sums (Box.Takes n) s.frontier j ∧
      s.state.statistics.choices + j = t.state.statistics.choices + k := by
  fun_induction solveOne s with
  | case1 => cases h
  | case2 s u a hstep =>
    obtain ⟨rfl, rfl⟩ := Prod.mk.inj (Except.ok.inj h)
    exact step_takes hn hs hc hstep (fun capacity he => ha capacity (Option.some.inj he)) hk
  | case3 s u hstep ih =>
    obtain ⟨i, hi, hcount⟩ := ih (hs.step hn hstep) ((step_keeps hstep).options ▸ hc) h
    obtain ⟨j, hj, hcount'⟩ := step_takes hn hs hc hstep (fun _ => (Option.some_ne_none _).symm) hi
    exact ⟨j, hj, hcount'.trans hcount⟩

theorem solveOne_covered {a : Answer} (hn : n.WellFormed) (hs : s.Plain n)
    (h : s.solveOne = .ok (a, t)) (hk : Sums (Box.Covered n) s.frontier k) :
    ∃ j, Sums (Box.Covered n) t.frontier j ∧
      t.state.statistics.choices + j ≤ s.state.statistics.choices + k := by
  fun_induction solveOne s generalizing k with
  | case1 => cases h
  | case2 s u a hstep =>
    obtain ⟨rfl, rfl⟩ := Prod.mk.inj (Except.ok.inj h)
    exact step_covered hn hs hstep hk
  | case3 s u hstep ih =>
    obtain ⟨i, hi, hcount⟩ := step_covered hn hs hstep hk
    obtain ⟨j, hj, hcount'⟩ := ih (hs.step hn hstep) h hi
    exact ⟨j, hj, hcount'.trans hcount⟩

/-- **A plain search to the end takes the decisions of the trees on its frontier.** -/
theorem collectOnto_takes (hn : n.WellFormed) (hs : s.Plain n)
    (hc : s.options.consistency = .bounds)
    (h : (s.collectOnto found none).outcome = .ok (.ok solutions)) :
    ∃ k, Sums (Box.Takes n) s.frontier k ∧ s.state.statistics.choices + k =
      (s.collectOnto found none).solver.state.statistics.choices := by
  generalize hw : (none : Option Nat) = wanted at h ⊢
  fun_induction collectOnto found wanted s with
  | case1 => cases hw
  | case2 => cases h
  | case3 found wanted s _ t ht =>
    have hend : Sums (Box.Takes n) t.frontier 0 := by
      rw [frontier_of_exhausted (solveOne_exhausted ht)]
      rfl
    exact solveOne_takes hn hs hc ht (fun _ => Answer.noConfusion) hend
  | case4 => cases h
  | case5 found wanted s _ values t ht ih =>
    obtain ⟨i, hi, hcount⟩ :=
      ih (hs.solveOne hn ht) ((solveOne_keeps ht).options ▸ hc) (hw ▸ rfl) h
    obtain ⟨j, hj, hcount'⟩ := solveOne_takes hn hs hc ht (fun _ => Answer.noConfusion) hi
    exact ⟨j, hj, hcount'.trans hcount⟩

/-- **Any search takes at most the decisions of the trees around its frontier**, however it
ends. -/
theorem collectOnto_covered {wanted : Option Nat} (hn : n.WellFormed) (hs : s.Plain n)
    (hk : Sums (Box.Covered n) s.frontier k) :
    (s.collectOnto found wanted).solver.state.statistics.choices ≤
      s.state.statistics.choices + k := by
  have hlast {s t : Solver σ} {a : Answer} {k : Nat} (hs : s.Plain n)
      (hk : Sums (Box.Covered n) s.frontier k) (ht : s.solveOne = .ok (a, t)) :
      t.state.statistics.choices ≤ s.state.statistics.choices + k := by
    obtain ⟨j, -, hcount⟩ := solveOne_covered hn hs ht hk
    omega
  fun_induction collectOnto found wanted s generalizing k with
  | case1 => exact Nat.le_add_right _ k
  | case2 => exact Nat.le_add_right _ k
  | case3 found wanted s _ t ht => exact hlast hs hk ht
  | case4 found wanted s _ capacity t ht => exact hlast hs hk ht
  | case5 found wanted s _ values t ht ih =>
    obtain ⟨j, hj, hcount⟩ := solveOne_covered hn hs ht hk
    exact (ih (hs.solveOne hn ht) hj).trans hcount

theorem reset_plain (hp : Built p) (hs : Reached p s) (hb : s.brancher.LeastFirst) :
    s.reset.Plain p.network :=
  ⟨hs.reset.sound hp, s.reset_orderly, hb⟩

/-- A plain enumeration takes as many decisions as the tree of the initial box has. -/
theorem findAll_takes (hp : Built p) (hs : Reached p s) (hb : s.brancher.LeastFirst)
    (hc : s.options.consistency = .bounds) (h : s.findAll = .ok (.ok solutions, t)) :
    ∃ k, p.network.initial.Takes p.network k ∧
      s.state.statistics.choices + k = t.state.statistics.choices := by
  obtain ⟨x, hx, h⟩ := bind_eq_ok.1 h
  obtain ⟨rfl, rfl⟩ := Prod.mk.inj (Except.ok.inj h)
  obtain ⟨k, hk, hcount⟩ := collectOnto_takes hp.sound.network (reset_plain hp hs hb) hc hx
  rw [reset_frontier, (hs.sound hp).network, sums_singleton] at hk
  exact ⟨k, hk, hcount⟩

/-- Any enumeration takes no more than the tree of a box around the initial one has. -/
theorem findAll_covered {r : Except SearchError (List (List Int))} (hp : Built p)
    (hs : Reached p s) (hb : s.brancher.LeastFirst)
    (hk : p.network.initial.Covered p.network k) (h : s.findAll = .ok (r, t)) :
    t.state.statistics.choices ≤ s.state.statistics.choices + k := by
  obtain ⟨x, hx, h⟩ := bind_eq_ok.1 h
  obtain ⟨rfl, rfl⟩ := Prod.mk.inj (Except.ok.inj h)
  refine collectOnto_covered hp.sound.network (reset_plain hp hs hb) ?_
  rw [reset_frontier, (hs.sound hp).network, sums_singleton]
  exact hk

end Solver

/-- **Shaving never takes more decisions.**  If a fresh solver that only propagates comes to a
list of all solutions, then a fresh solver that shaves as well takes no more decisions than it;
neither does one under the same consistency, with any capacity and seed, and even if it needs
too many choice points and stops. -/
theorem findAll_choices_le {o o' : Options} {log log' : Log} {t u : Solver Unit}
    {r : Except SearchError (List (List Int))} (hp : Built p) (ho : o.consistency = .bounds)
    (h : (Solver.ofProblem p o log).findAll = .ok (.ok solutions, t))
    (h' : (Solver.ofProblem p o' log').findAll = .ok (r, u)) :
    u.state.statistics.choices ≤ t.state.statistics.choices := by
  have hb : (Strategy.default p.current).brancher.LeastFirst := default_leastFirst p.current
  obtain ⟨k, hk, hcount⟩ := Solver.findAll_takes hp (.fresh p o log) hb ho h
  have hle := Solver.findAll_covered hp (.fresh p o' log') hb hk.covered h'
  have hzero : (Solver.ofProblem p o log).state.statistics.choices = 0 := rfl
  have hzero' : (Solver.ofProblem p o' log').state.statistics.choices = 0 := rfl
  omega

/-- In `Problem.either` a search that shaves removes two values of the cost at the root, and takes
one decision where a search that only propagates takes three. -/
theorem findAll_choices_le_either : ∃ t u,
    (Solver.ofProblem .either .default .off).findAll = .ok (.ok [[2, 0, 1], [2, 1, 0]], t) ∧
    (Solver.ofProblem .either { Options.default with consistency := .shaving } .off).findAll =
      .ok (.ok [[2, 0, 1], [2, 1, 0]], u) ∧
    u.state.statistics.shavedValues = 2 ∧ 0 < u.state.statistics.choices ∧
    u.state.statistics.choices ≤ t.state.statistics.choices ∧ t.state.statistics.choices = 3 := by
  have hshaving : ∃ u,
      (Solver.ofProblem .either { Options.default with consistency := .shaving } .off).findAll =
        .ok (.ok [[2, 0, 1], [2, 1, 0]], u) ∧ u.state.statistics.shavedValues = 2 ∧
          0 < u.state.statistics.choices := by
    decide +kernel
  obtain ⟨t, ht, hthree⟩ := findAll_either
  obtain ⟨u, hu, hshaved, hpos⟩ := hshaving
  exact ⟨t, u, ht, hu, hshaved, hpos, findAll_choices_le .either rfl ht hu, hthree⟩

end BoundsSolver
