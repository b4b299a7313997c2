/-
# Well-formed networks

What building a problem guarantees about its network, and what that makes of the
contracts of the propagators: here they are stated for boxes instead of intervals
of variables.

Within the initial box an offset moves an interval without cutting it short
(`Carries.read_eq`), which is what ties the intervals that a propagator sees to the
shared domains behind them.
-/

import BoundsSolver.Proofs.Constraint.Contract
import BoundsSolver.Proofs.Network.Box

namespace BoundsSolver

/-- The value of a variable in an assignment. -/
def View.value (v : View) (as : List Int) : Int := v.domain.valueIn as + v.offset

namespace Propagator

/-- The intervals of the variables in a box. -/
def reads (q : Propagator) (b : Box) : List Interval := q.views.map (·.read b)

/-- The assignment satisfies the constraint. -/
def Holds (q : Propagator) (as : List Int) : Prop :=
  q.constraint.Holds (q.views.map (·.value as)) q.parameters

/-- A run accepts the box and changes nothing. -/
def StableOn (q : Propagator) (b : Box) : Prop :=
  Stable (q.constraint.propagate · q.parameters) (q.reads b)

instance (q : Propagator) (b : Box) : Decidable (q.StableOn b) :=
  inferInstanceAs (Decidable (Stable ..))

/-- No run will ever change the box or one within it. -/
def SettledOn (q : Propagator) (b : Box) : Prop := ∀ c : Box, c.Inside b → c.Alive → q.StableOn c

end Propagator

namespace Network

/-- Every propagator accepts the box and changes nothing. -/
def StableOn (n : Network) (b : Box) : Prop := ∀ q ∈ n.propagators.toList, q.StableOn b

instance (n : Network) (b : Box) : Decidable (n.StableOn b) :=
  inferInstanceAs (Decidable (∀ q ∈ n.propagators.toList, q.StableOn b))

/-- The assignment satisfies every constraint. -/
def Satisfies (n : Network) (as : List Int) : Prop := ∀ q ∈ n.propagators.toList, q.Holds as

/-- The assignment is a solution: it takes initial values and satisfies every constraint. -/
structure Solves (n : Network) (as : List Int) : Prop where
  within : Mem as n.initial.toList
  holds : n.Satisfies as

/-- The values of all variables in an assignment. -/
def valuesOf (n : Network) (as : List Int) : List Int := n.views.toList.map (·.value as)

/-- The variable has a shared domain, and its offset keeps the initial values in range. -/
def Carries (n : Network) (v : View) : Prop :=
  ∃ i, n.initial.get? v.domain = some i ∧
    Width.value.Fits (i.min + v.offset) ∧ Width.value.Fits (i.max + v.offset)

/-- The propagator was posted in the network. -/
structure Posts (n : Network) (q : Propagator) : Prop where
  eq_post : q = .post q.constraint q.views q.parameters
  carried : ∀ v ∈ q.views, n.Carries v
  valid : q.constraint.validate (q.reads n.initial) q.parameters = .ok ()

/-- What building a network guarantees. -/
structure WellFormed (n : Network) : Prop where
  fits : ∀ i ∈ n.initial.toList, i.Fits
  carried : ∀ v ∈ n.views.toList, n.Carries v
  /-- Every shared domain is a variable of its own. -/
  own : ∀ d : DomainId, d.index < n.initial.size → ⟨d, 0⟩ ∈ n.views.toList
  posted : ∀ q ∈ n.propagators.toList, n.Posts q
  numbered : n.subscribers.size = n.initial.size
  /-- A bound that triggers a propagator has it among its subscribers. -/
  subscribed : ∀ {id : PropagatorId} {q : Propagator} {v : View} {t : Triggers} {b : Bound},
    n.propagators.get? id = some q → (v, t) ∈ q.views.zip q.triggers → t.on b = true →
      id ∈ n.subscribersOf v.domain b

end Network

variable {n : Network} {q : Propagator} {v : View} {b c : Box} {as : List Int}

/-! ### Reading a box -/

theorem Width.clamp_fits (x : Int) : Width.value.Fits (Width.value.clamp x) := by
  simp only [Width.Fits, Width.clamp, Width.value]
  omega

theorem Width.clamp_le_clamp {x y : Int} (h : x ≤ y) :
    Width.value.clamp x ≤ Width.value.clamp y := by
  simp only [Width.clamp, Width.value]
  omega

theorem View.read_bounds (h : c.Inside b) (v : View) :
    (v.read b).min ≤ (v.read c).min ∧ (v.read c).max ≤ (v.read b).max := by
  obtain ⟨hmin, hmax⟩ := h.bounds v.domain
  exact ⟨Width.clamp_le_clamp (by omega), Width.clamp_le_clamp (by omega)⟩

theorem View.read_fits (v : View) (b : Box) : (v.read b).Fits :=
  ⟨Width.clamp_fits _, Width.clamp_fits _⟩

theorem View.read_filled (h : b.Alive) (v : View) : (v.read b).min ≤ (v.read b).max :=
  Width.clamp_le_clamp (Int.add_le_add_right (h.bounds v.domain) _)

theorem Network.Carries.has (h : n.Carries v) : v.domain.index < n.initial.size := by
  obtain ⟨i, hi, -⟩ := h
  exact Keyed.lt_size_of_get? hi

/-- Initially the offset cuts nothing short, whether there are values or not. -/
theorem Network.Carries.read_initial (h : n.Carries v) :
    v.read n.initial = ⟨(n.initial.entry v.domain).min + v.offset,
      (n.initial.entry v.domain).max + v.offset⟩ := by
  obtain ⟨i, hi, hlo, hhi⟩ := h
  rw [View.read, Keyed.entry_of_get? hi]
  exact Interval.shifted_eq hlo hhi

/-- **The offset cuts nothing short.** -/
theorem Network.Carries.read_eq (h : n.Carries v) (hb : b.Inside n.initial) (ha : b.Alive) :
    v.read b = ⟨(b.entry v.domain).min + v.offset, (b.entry v.domain).max + v.offset⟩ := by
  obtain ⟨i, hi, ⟨hlo, -⟩, -, hhi⟩ := h
  obtain ⟨hmin, hmax⟩ := hb.bounds v.domain
  have hle := ha.bounds v.domain
  rw [Keyed.entry_of_get? hi] at hmin hmax
  exact Interval.shifted_eq ⟨by omega, by omega⟩ ⟨by omega, by omega⟩

theorem Network.Carries.read_get (h : n.Carries v) (hb : b.Inside n.initial) (ha : b.Alive)
    (x : Bound) : (v.read b).get x = (b.entry v.domain).get x + v.offset := by
  rw [h.read_eq hb ha]
  cases x <;> rfl

namespace Propagator

theorem reads_getElem? {k : Nat} (h : q.views[k]? = some v) (b : Box) :
    (q.reads b)[k]? = some (v.read b) := by
  rw [reads, List.getElem?_map, h]
  rfl

theorem exists_of_reads {k : Nat} {i : Interval} (h : (q.reads b)[k]? = some i) :
    ∃ v, q.views[k]? = some v ∧ v.read b = i := by
  rwa [reads, List.getElem?_map, Option.map_eq_some_iff] at h

theorem reads_within (h : c.Inside b) (q : Propagator) : Within (q.reads c) (q.reads b) := by
  refine within_iff_getElem?.2 ⟨by simp only [reads, List.length_map], fun {k j i} hj hi => ?_⟩
  obtain ⟨v, hv, rfl⟩ := exists_of_reads hj
  obtain ⟨w, hw, rfl⟩ := exists_of_reads hi
  obtain rfl := Option.some.inj (hv.symm.trans hw)
  exact View.read_bounds h v

theorem reads_filled (h : b.Alive) (q : Propagator) : Filled (q.reads b) := by
  intro i hi
  obtain ⟨v, -, rfl⟩ := List.mem_map.1 hi
  exact View.read_filled h v

end Propagator

namespace Network.Posts

variable (h : n.Posts q)
include h

/-- The intervals of the variables in a box are such that the constraint can be run. -/
theorem posed (hb : b.Inside n.initial) (ha : b.Alive) :
    q.constraint.Posed q.parameters (q.reads b) where
  valid := Constraint.validate_of_within h.valid (Propagator.reads_within hb q)
  filled := Propagator.reads_filled ha q
  fits i hi := by
    obtain ⟨v, -, rfl⟩ := List.mem_map.1 hi
    exact View.read_fits v b

theorem mem_reads (hb : b.Inside n.initial) (hm : Mem as b.toList) :
    Mem (q.views.map (·.value as)) (q.reads b) := by
  refine mem_iff_getElem?.2 ⟨by simp only [Propagator.reads, List.length_map],
    fun {k x i} hx hi => ?_⟩
  rw [List.getElem?_map, Option.map_eq_some_iff] at hx
  obtain ⟨v, hv, rfl⟩ := hx
  obtain ⟨w, hw, rfl⟩ := Propagator.exists_of_reads hi
  obtain rfl := Option.some.inj (hv.symm.trans hw)
  rw [(h.carried v (List.mem_of_getElem? hv)).read_eq hb (Box.alive_of_mem hm)]
  obtain ⟨hmin, hmax⟩ := Box.mem_bounds hm v.domain
  exact ⟨by dsimp only [View.value]; omega, by dsimp only [View.value]; omega⟩

theorem reads_point (hm : Mem as n.initial.toList) :
    q.reads (.point as) = (q.views.map (·.value as)).map Interval.singleton := by
  rw [Propagator.reads, List.map_map]
  refine List.map_congr_left fun v hv => ?_
  rw [(h.carried v hv).read_eq (Box.point_inside_iff.2 hm) (Box.point_alive as),
    Box.point_entry]
  rfl

/-- An assignment on which a run changes nothing satisfies the constraint. -/
theorem holds_of_stableOn_point (hm : Mem as n.initial.toList) (hs : q.StableOn (.point as)) :
    q.Holds as := by
  have hp := h.posed (Box.point_inside_iff.2 hm) (Box.point_alive as)
  rw [Propagator.StableOn] at hs
  rw [h.reads_point hm] at hp hs
  exact (q.constraint.contract q.parameters).holds hp hs

/-- Every assignment within a box on which the propagator is settled satisfies the
constraint. -/
theorem holds_of_settledOn (hb : b.Inside n.initial) (hs : q.SettledOn b)
    (hm : Mem as b.toList) : q.Holds as :=
  h.holds_of_stableOn_point (Box.mem_of_inside hm hb)
    (hs _ (Box.point_inside_iff.2 hm) (Box.point_alive as))

/-- **The triggers are enough**: on a smaller box a propagator is still stable unless one
of the bounds that trigger it moved. -/
theorem stableOn_of_quiet (hb : b.Inside n.initial) (ha : b.Alive) (hs : q.StableOn b)
    (hc : c.Inside b) (hca : c.Alive)
    (hq : ∀ {v : View} {t : Triggers} {x : Bound}, (v, t) ∈ q.views.zip q.triggers →
      t.on x = true → (c.entry v.domain).get x = (b.entry v.domain).get x) :
    q.StableOn c := by
  refine Constraint.stable_of_quiet (h.posed hb ha) hs (Propagator.reads_within hc q)
    (Propagator.reads_filled hca q) fun {k t i j x} ht hi hj hx => ?_
  obtain ⟨v, hv, rfl⟩ := Propagator.exists_of_reads hi
  obtain ⟨w, hw, rfl⟩ := Propagator.exists_of_reads hj
  obtain rfl := Option.some.inj (hv.symm.trans hw)
  have hcar := h.carried v (List.mem_of_getElem? hv)
  have htr : q.triggers[k]? = some t := by
    rw [h.eq_post]
    rwa [Propagator.reads, List.length_map] at ht
  have hmem : (v, t) ∈ q.views.zip q.triggers :=
    List.mem_of_getElem? (List.getElem?_zip_eq_some.2 ⟨hv, htr⟩)
  rw [hcar.read_get (hc.trans hb) hca, hcar.read_get hb ha, hq hmem hx]

end Network.Posts

theorem Propagator.SettledOn.stableOn (h : q.SettledOn b) (ha : b.Alive) : q.StableOn b :=
  h b (.refl b) ha

theorem Propagator.SettledOn.of_inside (h : q.SettledOn b) (hc : c.Inside b) : q.SettledOn c :=
  fun _ he ha => h _ (he.trans hc) ha

end BoundsSolver
