/-
# What is still to be searched

The frontier of a search is the box of the current node, unless that has been left, and
the boxes in the other branches of the choice points.  A solution in one of these boxes
is pending; the boxes are apart from one another, so that it is pending only once.

The two branches of a decision have the assignments of the box between them
(`mem_branches_iff`, `branches_apart`), a box that is skipped has none
(`leave_frontier`), and at the end of a branch a single one is left
(`leaf_point`).
-/

import BoundsSolver.Proofs.Search.Moves

namespace BoundsSolver

/-- No assignment lies within both boxes. -/
def Box.Apart (b c : Box) : Prop := ∀ as : List Int, Mem as b.toList → ¬ Mem as c.toList

namespace Solver

/-- The boxes in the branches that the choice points left, the oldest first. -/
def behind {σ : Type} (s : Solver σ) : List Box := s.choicePoints.live.map ChoicePoint.otherBox

/-- The boxes that are still to be searched, the current one last. -/
def frontier {σ : Type} (s : Solver σ) : List Box :=
  match s.phase with
  | .ready | .filtering => s.behind ++ [s.state.box]
  | .solved | .backtrack => s.behind
  | .exhausted => []

/-- The assignment is a solution that the search has still to come to. -/
def Pending {σ : Type} (n : Network) (s : Solver σ) (as : List Int) : Prop :=
  n.Satisfies as ∧ ∃ b ∈ s.frontier, Mem as b.toList

/-- There is nothing behind the root, and the boxes still to be searched are apart. -/
structure Orderly {σ : Type} (s : Solver σ) : Prop where
  fresh : s.phase = .ready → s.choicePoints.live = []
  apart : s.frontier.Pairwise Box.Apart

end Solver

variable {σ : Type} {n : Network} {s t : Solver σ} {b c b' c' : Box} {as bs : List Int}
  {d : Decision} {i : Interval} {other : Branch}

/-! ### Boxes -/

theorem Box.Apart.of_inside (h : b.Apart c) (hb : b'.Inside b) (hc : c'.Inside c) :
    b'.Apart c' := by
  intro as hm hm'
  exact h as (mem_of_inside hm hb) (mem_of_inside hm' hc)

/-- A box without a value for some shared domain is apart from everything. -/
theorem Box.not_mem_of_not_alive (h : ¬ b.Alive) : ¬ Mem as b.toList := by
  intro hm
  exact h (alive_of_mem hm)

theorem Box.firstUnfixed?_eq_none (h : b.firstUnfixed? = none) :
    ∀ i ∈ b.toList, i.min = i.max := by
  intro i hi
  unfold firstUnfixed? at h
  cases hfind : b.entries.findIdx? fun i => !i.isFixed with
  | none =>
    have hall := Array.findIdx?_eq_none_iff.1 hfind i (Array.mem_toList_iff.1 hi)
    exact Interval.isFixed_iff.1 (by simpa using hall)
  | some k =>
    obtain ⟨hk, -⟩ := Array.findIdx?_eq_some_iff_getElem.1 hfind
    simp [hfind, Array.getElem?_eq_getElem hk] at h

/-- A box of fixed shared domains holds one assignment. -/
theorem Box.eq_point (h : ∀ i ∈ b.toList, i.min = i.max) :
    b = .point (b.toList.map Interval.min) := by
  refine Keyed.ext_get? fun d => ?_
  rw [Keyed.get?_eq_getElem?, Keyed.get?_eq_getElem?, toList_point, List.map_map,
    List.getElem?_map]
  cases hd : b.toList[d.index]? with
  | none => rfl
  | some i =>
    have hfix := h i (List.mem_of_getElem? hd)
    exact congrArg some (Interval.ext rfl hfix.symm)

theorem Box.mem_point_iff : Mem bs (Box.point as).toList ↔ bs = as := by
  rw [toList_point]
  exact mem_singletons_iff

/-! ### The branches of a decision -/

theorem lt_size_of_get (hi : b.get d.domain = .ok i) : d.domain.index < b.size :=
  Keyed.lt_size_of_get? (Keyed.get_eq_ok.1 hi)

/-- **The two branches of a decision have all the assignments between them.** -/
theorem mem_branches_iff (hi : b.get d.domain = .ok i) (ho : d.alternative = .ok other) :
    Mem as b.toList ↔
      Mem as (Box.tighten b other).toList ∨ Mem as (Box.tighten b d.commitment).toList := by
  have hlt := lt_size_of_get hi
  cases d with
  | atMost d v =>
    obtain ⟨w, hw, ho⟩ := bind_eq_ok.1 ho
    obtain ⟨-, rfl⟩ := Width.add_eq_ok.1 hw
    obtain rfl := Except.ok.inj ho
    rw [Box.mem_tighten_iff hlt, Box.mem_tighten_iff hlt, ← and_or_left]
    simp only [Branch.Allows, Decision.commitment]
    constructor
    · intro hm
      refine ⟨hm, ?_⟩
      omega
    · exact And.left
  | atLeast d v =>
    obtain ⟨w, hw, ho⟩ := bind_eq_ok.1 ho
    obtain ⟨-, rfl⟩ := Width.sub_eq_ok.1 hw
    obtain rfl := Except.ok.inj ho
    rw [Box.mem_tighten_iff hlt, Box.mem_tighten_iff hlt, ← and_or_left]
    simp only [Branch.Allows, Decision.commitment]
    constructor
    · intro hm
      refine ⟨hm, ?_⟩
      omega
    · exact And.left

/-- **No assignment is in both branches of a decision.** -/
theorem branches_apart (hi : b.get d.domain = .ok i) (ho : d.alternative = .ok other) :
    Box.Apart (Box.tighten b other) (Box.tighten b d.commitment) := by
  have hlt := lt_size_of_get hi
  intro as hm hm'
  cases d with
  | atMost d v =>
    obtain ⟨w, hw, ho⟩ := bind_eq_ok.1 ho
    obtain ⟨-, rfl⟩ := Width.add_eq_ok.1 hw
    obtain rfl := Except.ok.inj ho
    have hlo := ((Box.mem_tighten_iff hlt).1 hm).2
    have hhi := ((Box.mem_tighten_iff hlt).1 hm').2
    simp only [Branch.Allows, Decision.commitment] at hlo hhi
    omega
  | atLeast d v =>
    obtain ⟨w, hw, ho⟩ := bind_eq_ok.1 ho
    obtain ⟨-, rfl⟩ := Width.sub_eq_ok.1 hw
    obtain rfl := Except.ok.inj ho
    have hhi := ((Box.mem_tighten_iff hlt).1 hm).2
    have hlo := ((Box.mem_tighten_iff hlt).1 hm').2
    simp only [Branch.Allows, Decision.commitment] at hlo hhi
    omega

/-! ### Leaves -/

/-- The values of the lower bounds. -/
theorem lowest_eq_ok {values : List Int} (h : n.lowest b = .ok values) :
    values = n.views.toList.map fun v => (b.entry v.domain).min + v.offset := by
  unfold Network.lowest at h
  generalize n.views.toList = views at h ⊢
  induction views generalizing values with
  | nil => exact (Except.ok.inj h).symm
  | cons v vs ih =>
    rw [List.mapM_cons] at h
    obtain ⟨x, hx, h⟩ := bind_eq_ok.1 h
    obtain ⟨xs, hxs, h⟩ := bind_eq_ok.1 h
    obtain ⟨-, rfl⟩ := Width.add_eq_ok.1 hx
    obtain rfl := Except.ok.inj h
    rw [ih hxs, List.map_cons]

/-- **A stable box of fixed shared domains holds one solution and no other assignment.** -/
theorem leaf_point {values : List Int} (hn : n.WellFormed) (hb : b.Inside n.initial)
    (ha : b.Alive) (hst : n.StableOn b) (hfix : b.firstUnfixed? = none)
    (h : n.lowest b = .ok values) :
    ∃ as, n.Satisfies as ∧ values = n.valuesOf as ∧ ∀ {bs}, Mem bs b.toList ↔ bs = as := by
  have hpoint := Box.eq_point (Box.firstUnfixed?_eq_none hfix)
  generalize hmins : b.toList.map Interval.min = as at hpoint
  subst hpoint
  refine ⟨as, fun q hq => ?_, ?_, Box.mem_point_iff⟩
  · exact (hn.posted q hq).holds_of_stableOn_point (Box.point_inside_iff.1 hb) (hst q hq)
  · rw [lowest_eq_ok h]
    refine List.map_congr_left fun v _ => ?_
    rw [Box.point_entry]
    rfl

namespace Solver

/-! ### Frontiers -/

theorem frontier_of_left (h : s.Left) : s.frontier = s.behind := by
  unfold frontier
  rcases h with h | h <;> rw [h]

theorem frontier_of_ready (h : s.phase = .ready) : s.frontier = s.behind ++ [s.state.box] := by
  unfold frontier
  rw [h]

theorem frontier_of_filtering (h : s.phase = .filtering) :
    s.frontier = s.behind ++ [s.state.box] := by
  unfold frontier
  rw [h]

theorem frontier_of_exhausted (h : s.phase = .exhausted) : s.frontier = [] := by
  unfold frontier
  rw [h]

/-- Taking a decision leaves one branch behind and enters the other. -/
theorem commit_frontier {cs : ChoicePoints} (hph : s.phase = .filtering)
    (hcs : s.choicePoints.push ⟨s.state.box, s.state.entailed, other⟩ = .ok cs) :
    (s.commit d cs).frontier =
      s.behind ++ [Box.tighten s.state.box other] ++ [Box.tighten s.state.box d.commitment] := by
  have hph' : (s.commit d cs).phase = .filtering := hph
  rw [frontier_of_filtering hph']
  refine congrArg (· ++ _) ?_
  show cs.live.map _ = _
  rw [ChoicePoints.live_push hcs, List.map_append]
  rfl

/-- What taking choice points back skips has no value left for some shared domain. -/
theorem backtrack_behind {found : Bool} (h : s.backtrack = (found, t)) :
    ∃ skipped, s.behind = t.behind ++ (if found then [t.state.box] else []) ++ skipped ∧
      ∀ b ∈ skipped, ¬ b.Alive := by
  fun_induction backtrack s with
  | case1 s hp =>
    obtain ⟨rfl, rfl⟩ := Prod.mk.inj h
    refine ⟨[], by simp, ?_⟩
    simp
  | case2 s c cs hp hempty ih =>
    obtain ⟨skipped, hbehind, hdead⟩ := ih h
    have hdead' : ¬ c.otherBox.Alive := by
      intro ha
      rw [Box.anyEmpty_eq_false_iff.2 ha] at hempty
      cases hempty
    refine ⟨skipped ++ [c.otherBox], ?_, ?_⟩
    · rw [behind, ChoicePoints.live_pop? hp, List.map_append, ← List.append_assoc, ← hbehind]
      rfl
    · intro b hb
      rcases List.mem_append.1 hb with hb | hb
      · exact hdead b hb
      · rw [List.mem_singleton.1 hb]
        exact hdead'
  | case3 s c cs hp hempty =>
    obtain ⟨rfl, rfl⟩ := Prod.mk.inj h
    refine ⟨[], ?_, by simp⟩
    rw [behind, ChoicePoints.live_pop? hp, List.map_append, behind, resume_choicePoints,
      resume_box]
    simp [restore]

/-- **Leaving a node skips nothing but dead boxes.** -/
theorem leave_frontier (hn : n.WellFormed) (hs : s.Sound n) (hl : s.Left) :
    ∃ skipped, s.frontier = s.leave.frontier ++ skipped ∧ ∀ b ∈ skipped, ¬ b.Alive := by
  rw [frontier_of_left hl]
  unfold leave
  split
  · rename_i t ht
    obtain ⟨skipped, hbehind, hdead⟩ := backtrack_behind ht
    exact ⟨skipped, hbehind, hdead⟩
  · rename_i t ht
    obtain ⟨skipped, hbehind, hdead⟩ := backtrack_behind ht
    obtain ⟨-, -, -, -, hnone⟩ := backtrack_sound hn hs hl.ne_filtering ht
    have hbehind' : t.behind = [] := by
      rw [behind, hnone rfl]
      rfl
    refine ⟨skipped, ?_, hdead⟩
    rw [hbehind, hbehind', frontier_of_exhausted rfl]
    rfl

end Solver
end BoundsSolver
