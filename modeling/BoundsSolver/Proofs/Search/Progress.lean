/-
# Starting again makes progress

An optimisation that starts again after each solution confines the shared domain of the
objective to better values.  The bound is computed by two subtractions that stop at the ends of
the range of values, so that it may not move past the solution: exactly if the objective or the
shared domain behind it takes the last value of the range (`mem_values_improve_iff`).  Such a
solution is a best one, since nothing lies beyond.

If there is no such solution then each solution is better than the one before, only better values
are left after it, and the turns end after as many as the shared domain has values, and one more
(`restartOn_endsWithin`).  If there is one then it is never excluded: the search finds nothing to
be exhausted with, however many turns it takes (`restartTurn_unanswered`).
-/

import BoundsSolver.Proofs.Network.Narrowing
import BoundsSolver.Proofs.Search.Loops
import BoundsSolver.Proofs.Search.Optimum

namespace BoundsSolver

/-- The bound of the shared domain that better values move. -/
def Direction.bound : Direction → Bound
  | .minimise => .max
  | .maximise => .min

/-- The bound for better values does not move past the value, since the objective or the shared
domain behind it is at the last value of the range. -/
def Direction.Stalls (dir : Direction) (v : View) (value : Int) : Prop :=
  value = dir.bound.last ∨ value = v.limit dir.bound

namespace Solver

/-- Turns that go on lead from one point of the loop to the other. -/
def Restarts {σ : Type} (dir : Direction) (y : VariableId) (v : View) :
    Option (List Int) × Solver σ → Option (List Int) × Solver σ → Prop :=
  Relation.ReflTransGen fun a b => restartTurn dir y v a = .ok (.again b)

/-- A turn has come to a solution that is better than the one before, and the objective is left
with values that are better still. -/
structure Progresses {σ : Type} (n : Network) (dir : Direction) (y : VariableId) (v : View)
    (a b : Option (List Int) × Solver σ) (as : List Int) : Prop where
  solves : n.Solves as
  found : b.1 = some (n.valuesOf as)
  objective : y.valueIn (n.valuesOf as) = .ok (v.value as)
  improves : ∀ old ∈ a.1, ∃ worse, y.valueIn old = .ok worse ∧ dir.Better (v.value as) worse
  confined : ∀ z ∈ v.values b.2.state.box, dir.Better z (v.value as)

/-- The search starts from the initial box, confined by the bound for what is better than the
best solution so far. -/
structure Starts {σ : Type} (n : Network) (dir : Direction) (v : View)
    (best : Option (List Int)) (s : Solver σ) : Prop where
  sound : s.Sound n
  orderly : s.Orderly
  solves : ∀ as ∈ best, n.Solves as
  pending_iff : ∀ bs, s.Pending n bs ↔
    n.Solves bs ∧ ∀ as ∈ best, (dir.improve v (v.value as)).Allows bs
  box : s.state.box =
    best.elim n.initial fun as => Box.tighten n.initial (dir.improve v (v.value as))

end Solver

variable {σ : Type} {p : Problem} {n : Network} {s t : Solver σ} {v : View} {y : VariableId}
  {dir : Direction} {best : Option (List Int)} {as bs values : List Int} {z : Int} {k : Nat}
  {a b : Option (List Int) × Solver σ} {o : Option (List Int)} {i j : Interval}

/-! ### The bound -/

theorem improve_minimise (v : View) (value : Int) : Direction.minimise.improve v value =
    ⟨v.domain, .max, Width.value.clamp (Width.value.clamp (value - 1) - v.offset)⟩ := rfl

theorem improve_maximise (v : View) (value : Int) : Direction.maximise.improve v value =
    ⟨v.domain, .min, Width.value.clamp (Width.value.clamp (value + 1) - v.offset)⟩ := rfl

theorem improve_has (hv : n.Carries v) (dir : Direction) (value : Int) :
    (dir.improve v value).domain.index < n.initial.size := by
  rw [improve_domain]
  exact hv.has

/-- What the bound leaves to the shared domain of the objective. -/
theorem entry_improve (hv : n.Carries v) (dir : Direction) (value : Int) :
    Keyed.entry (Box.tighten n.initial (dir.improve v value)) v.domain =
      (n.initial.entry v.domain).tighten (dir.improve v value).bound
        (dir.improve v value).value :=
  Box.entry_tighten.trans (if_pos ⟨improve_domain .., improve_has hv dir value⟩)

theorem value_mem_values {c : Box} (hm : Mem as c.toList) : v.value as ∈ v.values c := by
  rw [View.mem_values_iff, View.value, Int.add_sub_cancel]
  exact Interval.contains_iff.2 (Box.mem_bounds hm v.domain)

/-- The values of a variable in the initial box are values of variables, and so are those of the
shared domain behind it. -/
theorem fits_of_mem_values (hn : n.WellFormed) (hv : n.Carries v)
    (hz : z ∈ v.values n.initial) : Width.value.Fits z ∧ Width.value.Fits (z - v.offset) := by
  refine ⟨?_, hn.fits_of_contains (.refl _) hv.has hz⟩
  obtain ⟨i, hi, hlo, hhi⟩ := hv
  obtain ⟨hmin, hmax⟩ := Interval.contains_iff.1 (View.mem_values_iff.1 hz)
  rw [Keyed.entry_of_get? hi] at hmin hmax
  exact ⟨by have := hlo.1; omega, by have := hhi.2; omega⟩

/-- **The bound keeps the better values**, and the value itself if it does not move past it. -/
theorem mem_values_improve_iff (hn : n.WellFormed) (hv : n.Carries v)
    (ha : Mem as n.initial.toList) :
    z ∈ v.values (Box.tighten n.initial (dir.improve v (v.value as))) ↔ z ∈ v.values n.initial ∧
      (dir.Better z (v.value as) ∨ z = v.value as ∧ dir.Stalls v z) := by
  have hvalue : v.value as ∈ v.values n.initial := value_mem_values ha
  obtain ⟨hafits, hadomain⟩ := fits_of_mem_values hn hv hvalue
  -- Whatever lies at the limit of the shared domain is no better than what lies within.
  cases dir with
  | minimise =>
    rw [improve_minimise, View.mem_values_tighten_iff hn hv (.refl _)]
    refine and_congr_right fun hz => ?_
    obtain ⟨hzfits, hzdomain⟩ := fits_of_mem_values hn hv hz
    simp only [Width.Fits, Width.value] at hafits hadomain hzfits hzdomain
    simp only [View.Passes, Bound.Admits, View.limit, Bound.last, Direction.Better,
      Direction.Stalls, Direction.bound, Width.clamp, Width.value]
    omega
  | maximise =>
    rw [improve_maximise, View.mem_values_tighten_iff hn hv (.refl _)]
    refine and_congr_right fun hz => ?_
    obtain ⟨hzfits, hzdomain⟩ := fits_of_mem_values hn hv hz
    simp only [Width.Fits, Width.value] at hafits hadomain hzfits hzdomain
    simp only [View.Passes, Bound.Admits, View.limit, Bound.last, Direction.Better,
      Direction.Stalls, Direction.bound, Width.clamp, Width.value]
    omega

/-- So it does with assignments. -/
theorem improve_allows_iff (hn : n.WellFormed) (hv : n.Carries v) (ha : Mem as n.initial.toList)
    (hb : Mem bs n.initial.toList) : (dir.improve v (v.value as)).Allows bs ↔
      dir.Better (v.value bs) (v.value as) ∨
        v.value bs = v.value as ∧ dir.Stalls v (v.value bs) := by
  have hmem : v.value bs ∈ v.values (Box.tighten n.initial (dir.improve v (v.value as))) ↔ _ :=
    mem_values_improve_iff hn hv ha
  rw [and_iff_right (value_mem_values hb)] at hmem
  have hback : v.value bs - v.offset = v.domain.valueIn bs := Int.add_sub_cancel ..
  rw [← hmem, View.mem_values_iff, entry_improve hv, Interval.contains_tighten_iff, hback,
    and_iff_right (Interval.contains_iff.2 (Box.mem_bounds hb v.domain))]
  cases dir <;> exact Iff.rfl

/-- Nothing lies beyond a value that stalls. -/
theorem not_better_of_stalls (hn : n.WellFormed) (hv : n.Carries v)
    (hz : z ∈ v.values n.initial) {w : Int} (hw : dir.Stalls v w) : ¬ dir.Better z w := by
  obtain ⟨hfits, hdomain⟩ := fits_of_mem_values hn hv hz
  simp only [Width.Fits, Width.value] at hfits hdomain
  cases dir with
  | minimise =>
    simp only [Direction.Stalls, Direction.bound, View.limit, Bound.last, Width.value] at hw
    simp only [Direction.Better]
    omega
  | maximise =>
    simp only [Direction.Stalls, Direction.bound, View.limit, Bound.last, Width.value] at hw
    simp only [Direction.Better]
    omega

theorem Direction.Better.lt_trans {x y z : Int} (h : dir.Better x y) (h' : dir.Better y z) :
    dir.Better x z := by
  cases dir with
  | minimise => exact Int.lt_trans h h'
  | maximise => exact Int.lt_trans h' h

theorem Direction.better_or_eq_or_better (dir : Direction) (x y : Int) :
    dir.Better x y ∨ x = y ∨ dir.Better y x := by
  cases dir with
  | minimise => exact Int.lt_trichotomy x y
  | maximise =>
    rcases Int.lt_trichotomy x y with h | h | h
    · exact .inr (.inr h)
    · exact .inr (.inl h)
    · exact .inl h

/-- An interval without a value of another one that has all of its values has fewer of them. -/
theorem Interval.size_lt_of_contains (h : ∀ x, i.contains x → j.contains x) (hz : j.contains z)
    (hi : ¬ i.contains z) : i.size < j.size := by
  simp only [contains_iff] at h hz hi
  simp only [size]
  by_cases hempty : i.max < i.min
  · omega
  · have hmin := h i.min ⟨Int.le_refl _, Int.not_lt.1 hempty⟩
    have hmax := h i.max ⟨Int.not_lt.1 hempty, Int.le_refl _⟩
    omega

namespace Solver

/-! ### A turn -/

theorem reset_starts (hs : s.Sound n) : s.reset.Starts n dir v none where
  sound := reset_sound hs
  orderly := s.reset_orderly
  solves _ h := nomatch h
  pending_iff bs := by
    rw [reset_pending_iff hs.network]
    exact (and_iff_left fun _ h => nomatch h).symm
  box := congrArg Network.initial hs.network

theorem restart_starts (hv : n.Carries v) (hs : s.Sound n) (ha : n.Solves as) :
    (s.restart (dir.improve v (v.value as))).Starts n dir v (some as) where
  sound := restart_sound hs _
  orderly := restart_orderly _ _
  solves := by
    rintro _ ⟨⟩
    exact ha
  pending_iff bs := by
    rw [restart_pending_iff hs.network (improve_has hv dir _)]
    refine and_congr_right fun _ => ⟨?_, fun h => h as rfl⟩
    rintro h _ ⟨⟩
    exact h
  box := congrArg (fun m : Network => Box.tighten m.initial _) hs.network

/-- A turn that goes on has come to a pending solution, and starts the search for better ones. -/
theorem Starts.solution (hn : n.WellFormed) (hv : n.Carries v) (hy : n.views.get y = .ok v)
    (h : s.Starts n dir v best) (hu : s.solveOne = .ok (.solution values, t)) :
    ∃ as, values = n.valuesOf as ∧ values.getD y.index 0 = v.value as ∧ s.Pending n as ∧
      ((t.tellObjective (v.value as)).restart (dir.improve v (v.value as))).Starts n dir v
        (some as) := by
  obtain ⟨ht, -⟩ := solveOne_accounts hn h.sound h.orderly hu
  obtain ⟨as, hvalues, hvalue, has, -⟩ := solveOne_found hn hy h.sound h.orderly hu
  refine ⟨as, hvalues, hvalue, has, ?_⟩
  exact restart_starts hv (tellObjective_sound ht _) ((h.pending_iff as).1 has).1

theorem Starts.again (hn : n.WellFormed) (hv : n.Carries v) (hy : n.views.get y = .ok v)
    (h : a.2.Starts n dir v best) (hturn : restartTurn dir y v a = .ok (.again b)) :
    ∃ as, b.1 = some (n.valuesOf as) ∧ a.2.Pending n as ∧ b.2.Starts n dir v (some as) := by
  obtain ⟨values, t, ht, rfl⟩ := restartTurn_eq_again hturn
  obtain ⟨as, hvalues, hvalue, has, hstarts⟩ := h.solution hn hv hy ht
  refine ⟨as, congrArg some hvalues, has, ?_⟩
  rw [hvalue]
  exact hstarts

/-- Every point of the loop is the start of a search for what is better than the best solution
so far. -/
theorem Restarts.starts (hn : n.WellFormed) (hv : n.Carries v) (hy : n.views.get y = .ok v)
    (hs : s.Sound n) (h : Restarts dir y v (none, s.reset) a) :
    ∃ best, a.1 = best.map n.valuesOf ∧ a.2.Starts n dir v best := by
  induction h with
  | refl => exact ⟨none, rfl, reset_starts hs⟩
  | tail _ hturn ih =>
    obtain ⟨best, -, hstarts⟩ := ih
    obtain ⟨as, hfound, -, hstarts'⟩ := hstarts.again hn hv hy hturn
    exact ⟨some as, hfound, hstarts'⟩

/-! ### Without stalling -/

/-- The bound moves past every solution. -/
def Moving (n : Network) (dir : Direction) (v : View) : Prop :=
  ∀ as, n.Solves as → ¬ dir.Stalls v (v.value as)

/-- What the objective is left with is better than the best solution so far. -/
theorem Starts.confined (hn : n.WellFormed) (hv : n.Carries v) (hmoves : Moving n dir v)
    (h : s.Starts n dir v (some as)) (hz : z ∈ v.values s.state.box) :
    dir.Better z (v.value as) := by
  have ha := h.solves as rfl
  rw [h.box] at hz
  rcases ((mem_values_improve_iff hn hv ha.within).1 hz).2 with hbetter | ⟨rfl, hstalls⟩
  · exact hbetter
  · exact absurd hstalls (hmoves as ha)

/-- A pending solution is better than the best one so far. -/
theorem Starts.improves (hn : n.WellFormed) (hv : n.Carries v) (hmoves : Moving n dir v)
    (h : s.Starts n dir v best) (hp : s.Pending n bs) :
    ∀ as ∈ best, dir.Better (v.value bs) (v.value as) := by
  intro as has
  obtain ⟨hb, hallows⟩ := (h.pending_iff bs).1 hp
  have ha := h.solves as has
  rcases (improve_allows_iff hn hv ha.within hb.within).1 (hallows as has) with
    hbetter | ⟨-, hstalls⟩
  · exact hbetter
  · exact absurd hstalls (hmoves bs hb)

/-- **A turn that goes on makes progress.** -/
theorem Starts.progresses (hn : n.WellFormed) (hv : n.Carries v) (hy : n.views.get y = .ok v)
    (hmoves : Moving n dir v) (h : a.2.Starts n dir v best) (hfound : a.1 = best.map n.valuesOf)
    (hturn : restartTurn dir y v a = .ok (.again b)) :
    ∃ as, Progresses n dir y v a b as := by
  have hvalueIn (cs : List Int) : y.valueIn (n.valuesOf cs) = .ok (v.value cs) := by
    unfold VariableId.valueIn
    rw [valuesOf_getElem? hy]
  obtain ⟨as, hb, has, hstarts⟩ := h.again hn hv hy hturn
  refine ⟨as, hstarts.solves as rfl, hb, hvalueIn as, ?_, ?_⟩
  · intro old hold
    rw [hfound] at hold
    obtain ⟨bs, hbs, rfl⟩ := Option.map_eq_some_iff.1 hold
    exact ⟨v.value bs, hvalueIn bs, h.improves hn hv hmoves has bs hbs⟩
  · intro z hz
    exact hstarts.confined hn hv hmoves hz

/-- After a turn that goes on the objective has fewer values. -/
theorem Starts.size_lt (hn : n.WellFormed) (hv : n.Carries v) (hmoves : Moving n dir v)
    (h : s.Starts n dir v best) (hp : s.Pending n as) (ht : t.Starts n dir v (some as)) :
    (t.state.box.entry v.domain).size < (s.state.box.entry v.domain).size := by
  have ha := ht.solves as rfl
  have hrange (z : Int) (hz : dir.Better z (v.value as) ∨ z = v.value as)
      (hinitial : z ∈ v.values n.initial) : z ∈ v.values s.state.box := by
    rw [h.box]
    cases best with
    | none => exact hinitial
    | some old =>
      have hbetter := h.improves hn hv hmoves hp old rfl
      refine (mem_values_improve_iff hn hv (h.solves old rfl).within).2 ⟨hinitial, .inl ?_⟩
      rcases hz with hz | rfl
      · exact hz.lt_trans hbetter
      · exact hbetter
  have hvalue : v.value as ∈ v.values s.state.box :=
    hrange _ (.inr rfl) (value_mem_values ha.within)
  have hgone : v.value as ∉ v.values t.state.box := fun hz =>
    dir.not_better_self _ (ht.confined hn hv hmoves hz)
  refine Interval.size_lt_of_contains ?_ hvalue hgone
  intro x hx
  have hx : x + v.offset ∈ v.values t.state.box := by
    rw [View.mem_values_iff, Int.add_sub_cancel]
    exact hx
  have hbetter := ht.confined hn hv hmoves hx
  rw [ht.box] at hx
  have hinitial := ((mem_values_improve_iff hn hv ha.within).1 hx).1
  have hmem := hrange _ (.inl hbetter) hinitial
  rw [View.mem_values_iff, Int.add_sub_cancel] at hmem
  exact hmem

/-- **The loop ends** after as many turns as the objective has values, and one more. -/
theorem restartOn_endsWithin (hn : n.WellFormed) (hv : n.Carries v) (hy : n.views.get y = .ok v)
    (hmoves : Moving n dir v) (h : s.Starts n dir v best) (o : Option (List Int)) :
    EndsWithin (restartTurn dir y v) ((s.state.box.entry v.domain).size + 1) (o, s)
      (s.restartOn dir y v o) := by
  refine Turn.iterate_endsWithin (a := (o, s))
    (P := fun a : Option (List Int) × Solver σ => ∃ best, a.2.Starts n dir v best)
    (fun a => (a.2.state.box.entry v.domain).size) ?_ ⟨best, h⟩
  rintro a b ⟨best, h⟩ hturn
  obtain ⟨as, -, has, hstarts⟩ := h.again hn hv hy hturn
  exact ⟨⟨some as, hstarts⟩, h.size_lt hn hv hmoves has hstarts⟩

/-! ### With stalling -/

/-- A solution with a value that stalls is never excluded. -/
theorem Starts.pending_of_stalls (hn : n.WellFormed) (hv : n.Carries v)
    (h : s.Starts n dir v best) (ha : n.Solves as) (hstalls : dir.Stalls v (v.value as)) :
    s.Pending n as := by
  refine (h.pending_iff as).2 ⟨ha, ?_⟩
  intro bs hbs
  have hb := h.solves bs hbs
  refine (improve_allows_iff hn hv hb.within ha.within).2 ?_
  rcases dir.better_or_eq_or_better (v.value as) (v.value bs) with hbetter | heq | hworse
  · exact .inl hbetter
  · exact .inr ⟨heq, hstalls⟩
  · exact absurd hworse (not_better_of_stalls hn hv (value_mem_values hb.within) hstalls)

/-- **If a solution stalls then the loop does not come to an answer.** -/
theorem restartTurn_unanswered {r : Checked (Optimum × Solver σ)} (hn : n.WellFormed)
    (hv : n.Carries v) (hy : n.views.get y = .ok v) (ha : n.Solves as)
    (hstalls : dir.Stalls v (v.value as)) (h : a.2.Starts n dir v best)
    (hloop : Loop (restartTurn dir y v) k a r) (o : Option (List Int)) (t : Solver σ) :
    r ≠ .ok (.ok o, t) := by
  induction hloop generalizing best with
  | fault =>
    intro heq
    cases heq
  | done hturn =>
    obtain ⟨⟨answer, u⟩, hu, hturn⟩ := bind_eq_ok.1 hturn
    cases answer with
    | solution => cases hturn
    | overflow =>
      obtain rfl := Turn.done.inj (Except.ok.inj hturn)
      intro heq
      cases heq
    | exhausted =>
      -- The search is not exhausted while the solution is pending.
      obtain ⟨-, -, hnone⟩ := solveOne_accounts hn h.sound h.orderly hu
      exact absurd (h.pending_of_stalls hn hv ha hstalls) (hnone as)
  | again hturn _ ih =>
    obtain ⟨bs, -, -, hstarts⟩ := h.again hn hv hy hturn
    exact ih hstarts

end Solver

/-- **Starting again makes progress unless a solution stalls.**  The bound after a solution leaves
the value of the solution to the objective if and only if it does not move past it.  If no
solution has such a value then every turn of the loop that comes to a solution comes to a better
one and leaves only values that are better still, and the loop ends.  If some solution has such a
value then the loop does not come to an answer, nor does the optimisation. -/
theorem restarts_progress_iff (hp : Built p) (hs : Reached p s)
    (hy : p.network.views.get y = .ok v) :
    (∀ as, p.network.Solves as →
      (v.value as ∈ v.values (Box.tighten p.network.initial (dir.improve v (v.value as))) ↔
        dir.Stalls v (v.value as))) ∧
    ((∀ as, p.network.Solves as → ¬ dir.Stalls v (v.value as)) →
      (∀ a b, Solver.Restarts dir y v (none, s.reset) a →
        Solver.restartTurn dir y v a = .ok (.again b) →
          ∃ as, Solver.Progresses p.network dir y v a b as) ∧
      EndsWithin (Solver.restartTurn dir y v) ((p.network.initial.entry v.domain).size + 1)
        (none, s.reset) (s.optimise y .reset dir)) ∧
    ((∃ as, p.network.Solves as ∧ dir.Stalls v (v.value as)) → ∀ o t,
      (∀ k, ¬ Loop (Solver.restartTurn dir y v) k (none, s.reset) (.ok (.ok o, t))) ∧
        s.optimise y .reset dir ≠ .ok (.ok o, t)) := by
  have hn := hp.sound.network
  have hsound := hs.sound hp
  have hv : p.network.Carries v := hn.carried v (Keyed.mem_of_get? (Keyed.get_eq_ok.1 hy))
  have hroot : s.reset.Starts p.network dir v none := Solver.reset_starts hsound
  have hnetwork : s.reset.network = p.network := hsound.network
  have hoptimise : s.optimise y .reset dir = s.reset.restartOn dir y v none := by
    refine bind_of_ok (a := v) ?_
    rw [hnetwork]
    exact hy
  refine ⟨?_, ?_, ?_⟩
  · intro as ha
    rw [mem_values_improve_iff hn hv ha.within, and_iff_right (value_mem_values ha.within),
      or_iff_right (dir.not_better_self _), and_iff_right rfl]
  · intro hmoves
    refine ⟨?_, ?_⟩
    · intro a b ha hturn
      obtain ⟨best, hfound, hstarts⟩ := Solver.Restarts.starts hn hv hy hsound ha
      exact hstarts.progresses hn hv hy hmoves hfound hturn
    · have hends := Solver.restartOn_endsWithin hn hv hy hmoves hroot none
      rw [hroot.box] at hends
      rw [hoptimise]
      exact hends
  · rintro ⟨as, ha, hstalls⟩ o t
    have hunanswered (k : Nat) :
        ¬ Loop (Solver.restartTurn dir y v) k (none, s.reset) (.ok (.ok o, t)) := fun hloop =>
      Solver.restartTurn_unanswered hn hv hy ha hstalls hroot hloop o t rfl
    refine ⟨hunanswered, ?_⟩
    intro h
    rw [hoptimise, Solver.restartOn, Turn.iterate_eq_ok_iff] at h
    obtain ⟨k, hk⟩ := h
    exact hunanswered k hk

/-- In `Problem.either` the third variable does not reach the end of the range.  The search for its
least value comes to a solution with one, then to a better one with zero, and ends. -/
theorem restarts_progress_iff_either :
    let s := Solver.ofProblem .either .default .off
    let v : View := ⟨⟨2⟩, 0⟩
    let turn := Solver.restartTurn .minimise ⟨2⟩ v
    (∃ t u as bs, turn (none, s.reset) = .ok (.again (some [2, 0, 1], t)) ∧
      turn (some [2, 0, 1], t) = .ok (.again (some [2, 1, 0], u)) ∧
      Solver.Progresses Problem.either.network .minimise ⟨2⟩ v (none, s.reset)
        (some [2, 0, 1], t) as ∧
      Solver.Progresses Problem.either.network .minimise ⟨2⟩ v (some [2, 0, 1], t)
        (some [2, 1, 0], u) bs) ∧
    EndsWithin turn 4 (none, s.reset) (s.optimise ⟨2⟩ .reset .minimise) := by
  intro s v turn
  have hy : Problem.either.network.views.get ⟨2⟩ = .ok v := rfl
  have hmoves (as : List Int) (ha : Problem.either.network.Solves as) :
      ¬ Direction.minimise.Stalls v (v.value as) := by
    intro hstalls
    have hmin := (Box.mem_bounds ha.within ⟨2⟩).1
    have hmin : -1 ≤ DomainId.valueIn ⟨2⟩ as := hmin
    have hlow : DomainId.valueIn ⟨2⟩ as + 0 = -2147483648 := hstalls.elim id id
    omega
  obtain ⟨-, hprogress, -⟩ := restarts_progress_iff .either (.fresh .either .default .off) hy
  obtain ⟨hturns, hends⟩ := hprogress hmoves
  let again (t : Solver Unit) := (t.tellObjective 1).restart (Direction.minimise.improve v 1)
  have hfound : ∃ t, s.reset.solveOne = .ok (.solution [2, 0, 1], t) ∧
      ∃ u, (again t).solveOne = .ok (.solution [2, 1, 0], u) := by
    decide +kernel
  obtain ⟨t, ht, u, hu⟩ := hfound
  have hfirst : turn (none, s.reset) = .ok (.again (some [2, 0, 1], again t)) := bind_of_ok ht
  have hsecond : turn (some [2, 0, 1], again t) = .ok (.again (some [2, 1, 0], _)) :=
    bind_of_ok hu
  obtain ⟨as, has⟩ := hturns _ _ .refl hfirst
  obtain ⟨bs, hbs⟩ := hturns _ _ (.single hfirst) hsecond
  exact ⟨⟨again t, _, as, bs, hfirst, hsecond, has, hbs⟩, hends⟩

/-- A shared domain at the least value, and a variable one above it. -/
def Problem.cornered : Problem :=
  let p := ofIntervals [⟨-2147483648, -2147483648⟩]
  match p.addOffsetVariable ⟨0⟩ 1 with
  | .ok (_, q) => q
  | .error _ => p

theorem Built.cornered : Built .cornered := by
  have hadd : (Problem.ofIntervals [⟨-2147483648, -2147483648⟩]).addOffsetVariable ⟨0⟩ 1 =
      .ok (⟨1⟩, .cornered) := rfl
  exact .addOffsetVariable (.addVariable .empty (by decide)) hadd

/-- A search in `Problem.cornered` is at its start. -/
structure Solver.Cornered (s : Solver Unit) : Prop where
  network : s.network = Problem.cornered.network
  consistency : s.options.consistency = .bounds
  phase : s.phase = .ready
  box : s.state.box = Problem.cornered.network.initial
  idle : s.state.triggered.pop? = none

/-- A turn comes to the only solution and back to the start. -/
theorem restartTurn_cornered {s : Solver Unit} (h : s.Cornered) (o : Option (List Int)) :
    ∃ t : Solver Unit, t.Cornered ∧ Solver.restartTurn .minimise ⟨1⟩ ⟨⟨0⟩, 1⟩ (o, s) =
      .ok (.again (some [-2147483648, -2147483647], t)) := by
  obtain ⟨hnetwork, hconsistency, hphase, hbox, hidle⟩ := h
  have halive : s.state.box.anyEmpty = false := by
    rw [hbox]
    decide +kernel
  have hkeys : s.network.propagators.keys = [] := by
    rw [hnetwork]
    rfl
  have hfix : s.state.box.firstUnfixed? = none := by
    rw [hbox]
    decide +kernel
  have hvalues : s.network.lowest s.state.box = .ok [-2147483648, -2147483647] := by
    rw [hnetwork, hbox]
    decide +kernel
  obtain ⟨t, ht⟩ := Solver.solveOne_of_fixed hphase halive hkeys hidle hconsistency hfix hvalues
  obtain ⟨hnetwork', hconsistency', -⟩ := Solver.solveOne_keeps ht
  refine ⟨_, ⟨?_, ?_, rfl, ?_, rfl⟩, bind_of_ok ht⟩
  · exact hnetwork'.trans hnetwork
  · exact (congrArg Options.consistency hconsistency').trans hconsistency
  · have hinitial : t.network.initial = Problem.cornered.network.initial := by
      rw [hnetwork', hnetwork]
    show Box.tighten t.network.initial _ = _
    rw [hinitial]
    rfl

/-- No solution of `Problem.cornered` has the least value of the range for the second variable.
The bound after the only solution lets it through all the same, and the loop that minimises the
variable does not end. -/
theorem restarts_cornered :
    let v : View := ⟨⟨0⟩, 1⟩
    let n := Problem.cornered.network
    Built .cornered ∧ n.views.get ⟨1⟩ = .ok v ∧
      (∀ as, n.Solves as → v.value as ≠ -2147483648) ∧
      (∃ as, n.Solves as ∧
        v.value as ∈ v.values (Box.tighten n.initial (Direction.minimise.improve v (v.value as)))) ∧
      ∀ k r, ¬ Loop (Solver.restartTurn .minimise ⟨1⟩ v) k
        (none, (Solver.ofProblem .cornered .default .off).reset) r := by
  refine ⟨.cornered, rfl, ?_, ⟨[-2147483648], ⟨?_, List.forall_mem_nil _⟩, by decide⟩, ?_⟩
  · intro as ha heq
    have hmin := (Box.mem_bounds ha.within ⟨0⟩).1
    have hmin : -2147483648 ≤ DomainId.valueIn ⟨0⟩ as := hmin
    have heq : DomainId.valueIn ⟨0⟩ as + 1 = -2147483648 := heq
    omega
  · exact mem_singleton_iff.2 ⟨_, rfl, by decide⟩
  · have hendless (k : Nat) : ∀ (o : Option (List Int)) (s : Solver Unit) (r), s.Cornered →
        ¬ Loop (Solver.restartTurn .minimise ⟨1⟩ ⟨⟨0⟩, 1⟩) k (o, s) r := by
      induction k with
      | zero => exact fun o s r _ hloop => nomatch hloop
      | succ k ih =>
        intro o s r hs hloop
        obtain ⟨t, ht, hturn⟩ := restartTurn_cornered hs o
        cases hloop with
        | fault h => cases hturn.symm.trans h
        | done h => cases hturn.symm.trans h
        | again h hrest =>
          obtain rfl := Turn.again.inj (Except.ok.inj (hturn.symm.trans h))
          exact ih _ t r ht hrest
    exact fun k r => hendless k none _ r ⟨rfl, rfl, rfl, rfl, rfl⟩

end BoundsSolver
