/-
# Narrowing a variable through its offset

A bound on a variable becomes a bound on its shared domain when the offset is taken away.  The
difference stops at the ends of the value range, and a bound that was cut back lets the last value
through (`Bound.admits_clamp_iff`).  For the variable that value is its `View.limit`: narrowing
keeps what the bound admits and, beyond it, the limit (`mem_values_tighten_iff`,
`mem_values_tightenTo_iff`).

Hence a bound is exact unless it overshoots, which takes an offset and a shared domain that
reaches to the end of the value range, and an initial restriction is unless one of its bounds
overshoots and the other one admits the limit (`narrowing_exact_iff`).
-/

import BoundsSolver.Proofs.Network.Built
import Mathlib.Data.Set.Basic

namespace BoundsSolver

namespace Bound

/-- The value lies within the bound. -/
def Admits (b : Bound) (value y : Int) : Prop :=
  match b with
  | .min => value ≤ y
  | .max => y ≤ value

/-- The last value in the direction in which the bound moves. -/
def last : Bound → Int
  | .min => Width.value.hi
  | .max => Width.value.lo

/-- **A bound that is cut back to the value range lets the last value through.** -/
theorem admits_clamp_iff {b : Bound} {value y : Int} (hy : Width.value.Fits y) :
    b.Admits (Width.value.clamp value) y ↔ b.Admits value y ∨ y = b.last := by
  obtain ⟨hlo, hhi⟩ := hy
  cases b with
  | min =>
    simp only [Admits, last, Width.clamp]
    omega
  | max =>
    simp only [Admits, last, Width.clamp]
    omega

theorem admits_sub_iff {b : Bound} {value y o : Int} :
    b.Admits (value - o) (y - o) ↔ b.Admits value y := by
  cases b with
  | min => exact Int.sub_le_sub_right_iff
  | max => exact Int.sub_le_sub_right_iff

end Bound

namespace View

/-- The values of a variable in a box. -/
def values (v : View) (b : Box) : Set Int :=
  {y | (b.entry v.domain).contains (y - v.offset)}

instance (v : View) (b : Box) (y : Int) : Decidable (y ∈ v.values b) :=
  inferInstanceAs (Decidable ((b.entry v.domain).contains (y - v.offset) = true))

/-- The value of a variable whose shared domain is at its last value. -/
def limit (v : View) (b : Bound) : Int := b.last + v.offset

/-- Narrowing to the bound keeps the value if the variable has it. -/
def Passes (v : View) (b : Bound) (value y : Int) : Prop := b.Admits value y ∨ y = v.limit b

/-- The limit is a value of the variable, and the bound lies beyond it. -/
def Overshoots (v : View) (c : Box) (b : Bound) (value : Int) : Prop :=
  v.limit b ∈ v.values c ∧ ¬ b.Admits value (v.limit b)

/-- The range of a variable, taken to its shared domain. -/
def own (v : View) (r : Interval) : Interval :=
  ⟨Width.value.clamp (r.min - v.offset), Width.value.clamp (r.max - v.offset)⟩

/-- What the range leaves of the initial interval of the shared domain. -/
def restricted (v : View) (n : Network) (r : Interval) : Interval :=
  (n.initial.entry v.domain).tightenTo (v.own r)

/-- One bound of the range overshoots, and the other one admits the limit. -/
def Escapes (v : View) (c : Box) (r : Interval) : Prop :=
  ∃ b : Bound, v.Overshoots c b (r.get b) ∧ b.opposite.Admits (r.get b.opposite) (v.limit b)

end View

variable {p q : Problem} {n : Network} {x : VariableId} {v : View} {c e : Box} {b : Bound}
  {i j k r : Interval} {d : DomainId} {value y : Int}

/-! ### Intervals -/

namespace Interval

theorem contains_iff_forall : i.contains y ↔ ∀ b : Bound, b.Admits (i.get b) y := by
  rw [contains_iff]
  constructor
  · rintro ⟨hmin, hmax⟩ (_ | _)
    · exact hmin
    · exact hmax
  · intro h
    exact ⟨h .min, h .max⟩

theorem contains_tighten_iff :
    (i.tighten b value).contains y ↔ i.contains y ∧ b.Admits value y := by
  cases b with
  | min =>
    simp only [tighten, contains_iff, tightenMin_min, tightenMin_max, Bound.Admits]
    omega
  | max =>
    simp only [tighten, contains_iff, tightenMax_min, tightenMax_max, Bound.Admits]
    omega

theorem contains_tightenTo_iff : (i.tightenTo j).contains y ↔ i.contains y ∧ j.contains y := by
  simp only [contains_iff, tightenTo_min, tightenTo_max]
  omega

theorem isEmpty_iff_forall : i.isEmpty = true ↔ ∀ y, ¬ i.contains y = true := by
  rw [isEmpty_iff]
  constructor
  · intro h y hy
    rw [contains_iff] at hy
    omega
  · intro h
    by_contra hle
    exact h i.min (contains_iff.2 ⟨Int.le_refl _, Int.not_lt.1 hle⟩)

end Interval

/-! ### What narrowing keeps -/

theorem Network.WellFormed.fits_of_contains (h : n.WellFormed) (hc : c.Inside n.initial)
    (hd : d.index < n.initial.size) (hy : (c.entry d).contains y) : Width.value.Fits y := by
  obtain ⟨hlo, hhi⟩ := h.fits _ (Keyed.mem_of_get? (Box.get?_eq_of_lt hd))
  obtain ⟨hmin, hmax⟩ := hc.bounds d
  rw [Interval.contains_iff] at hy
  exact ⟨by have := hlo.1; omega, by have := hhi.2; omega⟩

namespace View

theorem mem_values_iff : y ∈ v.values c ↔ (c.entry v.domain).contains (y - v.offset) := Iff.rfl

theorem values_subset (hc : c.Inside e) : v.values c ⊆ v.values e := fun y hy => by
  rw [mem_values_iff, Interval.contains_iff] at hy ⊢
  obtain ⟨hmin, hmax⟩ := hc.bounds v.domain
  omega

variable (h : n.WellFormed) (hv : n.Carries v) (hc : c.Inside n.initial)

/-- The bound of a variable, taken to its shared domain, admits what passes. -/
theorem admits_clamp_sub_iff (hy : Width.value.Fits (y - v.offset)) :
    b.Admits (Width.value.clamp (value - v.offset)) (y - v.offset) ↔ v.Passes b value y := by
  rw [Bound.admits_clamp_iff hy, Bound.admits_sub_iff, Passes, limit, Int.sub_eq_iff_eq_add]

theorem own_contains_iff (hy : Width.value.Fits (y - v.offset)) :
    (v.own r).contains (y - v.offset) ↔ ∀ b, v.Passes b (r.get b) y := by
  rw [Interval.contains_iff_forall]
  refine forall_congr' fun b => ?_
  rw [← admits_clamp_sub_iff hy]
  cases b <;> rfl

include h hv hc

theorem mem_values_tighten_iff :
    y ∈ v.values (c.tighten ⟨v.domain, b, Width.value.clamp (value - v.offset)⟩) ↔
      y ∈ v.values c ∧ v.Passes b value y := by
  have hd : v.domain.index < c.size := by
    rw [hc.size_eq]
    exact hv.has
  rw [mem_values_iff, Box.entry_tighten, if_pos ⟨rfl, hd⟩,
    Interval.contains_tighten_iff]
  exact and_congr_right fun hy => admits_clamp_sub_iff (h.fits_of_contains hc hv.has hy)

theorem mem_values_tightenTo_iff :
    y ∈ v.values (c.modify v.domain (·.tightenTo (v.restricted n r))) ↔
      y ∈ v.values c ∧ ∀ b, v.Passes b (r.get b) y := by
  have hd : v.domain.index < c.size := by
    rw [hc.size_eq]
    exact hv.has
  rw [mem_values_iff, Box.entry_modify, if_pos ⟨rfl, hd⟩, restricted,
    Interval.contains_tightenTo_iff, Interval.contains_tightenTo_iff]
  refine and_congr_right fun hy => ?_
  rw [and_iff_right (mem_values_iff.1 (values_subset hc hy)),
    own_contains_iff (h.fits_of_contains hc hv.has hy)]

omit hc in
theorem restricted_isEmpty_iff : (v.restricted n r).isEmpty = true ↔
    ¬ ∃ y ∈ v.values n.initial, ∀ b, v.Passes b (r.get b) y := by
  rw [Interval.isEmpty_iff_forall, ← not_exists, not_iff_not]
  constructor
  · rintro ⟨d, hd⟩
    have hback : d + v.offset - v.offset = d := Int.add_sub_cancel ..
    obtain ⟨hinitial, hown⟩ := Interval.contains_tightenTo_iff.1 hd
    rw [← hback] at hinitial hown
    exact ⟨d + v.offset, hinitial,
      (own_contains_iff (h.fits_of_contains (.refl _) hv.has hinitial)).1 hown⟩
  · rintro ⟨y, hy, hpass⟩
    exact ⟨y - v.offset, Interval.contains_tightenTo_iff.2
      ⟨hy, (own_contains_iff (h.fits_of_contains (.refl _) hv.has hy)).2 hpass⟩⟩

/-- No value of a variable lies beyond its limit. -/
theorem not_admits_of_overshoots (ho : v.Overshoots c b value) (hy : y ∈ v.values c) :
    ¬ b.Admits value y := by
  obtain ⟨hlo, hhi⟩ := h.fits_of_contains hc hv.has hy
  have hlimit := ho.2
  cases b with
  | min =>
    simp only [Bound.Admits, limit, Bound.last] at hlimit ⊢
    omega
  | max =>
    simp only [Bound.Admits, limit, Bound.last] at hlimit ⊢
    omega

end View

/-! ### When that is exact -/

theorem View.limit_opposite_ne : v.limit b.opposite ≠ v.limit b := by
  intro h
  have hlast : b.opposite.last = b.last := (Int.add_left_inj _).1 h
  cases b <;> exact absurd hlast (by decide)

/-- A range escapes if it lets something through that it does not contain. -/
theorem View.escapes_iff : v.Escapes c r ↔
    ∃ y ∈ v.values c, (∀ b, v.Passes b (r.get b) y) ∧ ¬ r.contains y := by
  constructor
  · rintro ⟨b, ⟨hlimit, hbeyond⟩, hother⟩
    refine ⟨v.limit b, hlimit, fun b' => ?_, fun hr => hbeyond ?_⟩
    · by_cases hb : b' = b
      · exact .inr (by rw [hb])
      · have : b' = b.opposite := by cases b <;> cases b' <;> first | rfl | exact absurd rfl hb
        exact .inl (this ▸ hother)
    · exact Interval.contains_iff_forall.1 hr b
  · rintro ⟨y, hy, hpass, hr⟩
    rw [Interval.contains_iff_forall] at hr
    push Not at hr
    obtain ⟨b, hb⟩ := hr
    obtain rfl : y = v.limit b := (hpass b).resolve_left hb
    exact ⟨b, ⟨hy, hb⟩, (hpass b.opposite).resolve_right fun h => limit_opposite_ne h.symm⟩

/-- Narrowing by a bound is exact unless it overshoots. -/
theorem View.sep_passes_eq_iff : {y ∈ v.values c | v.Passes b value y} =
    {y ∈ v.values c | b.Admits value y} ↔ ¬ v.Overshoots c b value := by
  constructor
  · rintro heq ⟨hlimit, hbeyond⟩
    have hmem : v.limit b ∈ {y ∈ v.values c | v.Passes b value y} := ⟨hlimit, .inr rfl⟩
    rw [heq] at hmem
    exact hbeyond hmem.2
  · intro hover
    refine Set.ext fun y => and_congr_right fun hy => ⟨fun hpass => ?_, .inl⟩
    by_contra hbeyond
    obtain rfl := hpass.resolve_left hbeyond
    exact hover ⟨hy, hbeyond⟩

/-- Narrowing to a range that does not escape is exact, from any box on. -/
theorem View.sep_passes_eq (he : ¬ v.Escapes e r) (hc : c.Inside e) :
    {y ∈ v.values c | ∀ b, v.Passes b (r.get b) y} = {y ∈ v.values c | r.contains y} := by
  refine Set.ext fun y => and_congr_right fun hy => ⟨fun hpass => ?_, fun hr b => ?_⟩
  · by_contra hr
    exact he (escapes_iff.2 ⟨y, values_subset hc hy, hpass, hr⟩)
  · exact .inl (Interval.contains_iff_forall.1 hr b)

/-- A restriction finds a value where there is one, unless the range escapes. -/
theorem View.exists_passes_iff (h : n.WellFormed) (hv : n.Carries v) :
    ((∃ y ∈ v.values n.initial, ∀ b, v.Passes b (r.get b) y) ↔
      ∃ y ∈ v.values n.initial, r.contains y) ↔ ¬ v.Escapes n.initial r := by
  constructor
  · intro hiff he
    obtain ⟨y, hy, hpass, -⟩ := escapes_iff.1 he
    obtain ⟨z, hz, hr⟩ := hiff.1 ⟨y, hy, hpass⟩
    obtain ⟨b, hover, -⟩ := he
    exact not_admits_of_overshoots h hv (.refl _) hover hz (Interval.contains_iff_forall.1 hr b)
  · intro he
    exact exists_congr (Set.ext_iff.1 (sep_passes_eq he (.refl _)))

/-! ### The calls -/

theorem setBound_spec (hp : p.Sound) (hx : p.network.views.get? x = some v) (b : Bound)
    (value : Int) : ∃ changed q, p.setBound x b value = .ok (changed, q) ∧
      q.network = p.network ∧ (∀ d ≠ v.domain, q.current.entry d = p.current.entry d) ∧
      (changed = true ↔ q.current.entry v.domain ≠ p.current.entry v.domain) ∧
      v.values q.current = {y ∈ v.values p.current | v.Passes b value y} := by
  have hv := hp.network.carried v (Keyed.mem_of_get? hx)
  let current := p.current.tighten ⟨v.domain, b, Width.value.clamp (value - v.offset)⟩
  have hother : ∀ d ≠ v.domain, current.entry d = p.current.entry d := fun d hd => by
    rw [Box.entry_tighten, if_neg fun h => hd h.1.symm]
  refine ⟨decide (current ≠ p.current), { p with current },
    bind_eq_ok.2 ⟨v, Keyed.get_eq_ok.2 hx, rfl⟩, rfl, hother, ?_, ?_⟩
  · rw [decide_eq_true_iff, not_iff_not]
    constructor
    · intro heq
      exact congrArg (Keyed.entry · v.domain) heq
    · intro heq
      refine Box.ext_entry (Box.size_tighten _) fun d => ?_
      by_cases hd : d = v.domain
      · exact hd ▸ heq
      · exact hother d hd
  · exact Set.ext fun y => View.mem_values_tighten_iff hp.network hv hp.inside

theorem restrictInitial_eq (hx : p.network.views.get? x = some v) (r : Interval) :
    p.restrictInitial x r.min r.max =
      if (v.restricted p.network r).isEmpty then
        .error ⟨.emptyRestriction (v.read p.network.initial), p⟩
      else .ok
        ⟨{ p.network with
            initial := p.network.initial.modify v.domain (·.tightenTo (v.restricted p.network r)) },
          p.current.modify v.domain (·.tightenTo (v.restricted p.network r))⟩ := by
  rw [Problem.restrictInitial, hx]
  rfl

theorem restrictInitial_spec (hp : p.Sound) (hx : p.network.views.get? x = some v) (r : Interval) :
    ((∃ e, p.restrictInitial x r.min r.max = .error e) ↔
        ¬ ∃ y ∈ v.values p.network.initial, ∀ b, v.Passes b (r.get b) y) ∧
      (∀ e, p.restrictInitial x r.min r.max = .error e →
        e = ⟨.emptyRestriction (v.read p.network.initial), p⟩) ∧
      ∀ q, p.restrictInitial x r.min r.max = .ok q →
        (∀ d ≠ v.domain, q.network.initial.entry d = p.network.initial.entry d ∧
          q.current.entry d = p.current.entry d) ∧
        v.values q.network.initial =
          {y ∈ v.values p.network.initial | ∀ b, v.Passes b (r.get b) y} ∧
        v.values q.current = {y ∈ v.values p.current | ∀ b, v.Passes b (r.get b) y} := by
  have hv := hp.network.carried v (Keyed.mem_of_get? hx)
  have hkeeps {c : Box} (hc : c.Inside p.network.initial) :
      v.values (c.modify v.domain (·.tightenTo (v.restricted p.network r))) =
        {y ∈ v.values c | ∀ b, v.Passes b (r.get b) y} :=
    Set.ext fun y => View.mem_values_tightenTo_iff hp.network hv hc
  rw [restrictInitial_eq hx, ← View.restricted_isEmpty_iff hp.network hv]
  split
  · rename_i he
    refine ⟨⟨fun _ => he, fun _ => ⟨_, rfl⟩⟩, fun e h => (Except.error.inj h).symm, fun q h => ?_⟩
    cases h
  · rename_i he
    refine ⟨⟨?_, fun h => absurd h he⟩, ?_, ?_⟩
    · rintro ⟨e, ⟨⟩⟩
    · rintro e ⟨⟩
    · rintro q ⟨⟩
      refine ⟨fun d hd => ?_, hkeeps (.refl _), hkeeps hp.inside⟩
      rw [Box.entry_modify, Box.entry_modify, if_neg fun h => hd h.1.symm,
        if_neg fun h => hd h.1.symm]
      exact ⟨rfl, rfl⟩

/-- **Narrowing a variable is exact unless the bound overshoots.**  A bound leaves the values
within it, says whether the shared domain changed, and changes nothing else; a restriction is
refused if it leaves nothing, and holds for the initial and the current values. -/
theorem narrowing_exact_iff (hp : Built p) (hx : p.network.views.get? x = some v) :
    (∀ (b : Bound) (value : Int), ∃ changed q, p.setBound x b value = .ok (changed, q) ∧
        q.network = p.network ∧ (∀ d ≠ v.domain, q.current.entry d = p.current.entry d) ∧
        (changed = true ↔ q.current.entry v.domain ≠ p.current.entry v.domain) ∧
        (v.values q.current = {y ∈ v.values p.current | b.Admits value y} ↔
          ¬ v.Overshoots p.current b value)) ∧
      ∀ r : Interval,
        (((∃ e, p.restrictInitial x r.min r.max = .error e) ↔
            ¬ ∃ y ∈ v.values p.network.initial, r.contains y) ↔
          ¬ v.Escapes p.network.initial r) ∧
        (∀ e, p.restrictInitial x r.min r.max = .error e → e = ⟨.emptyRestriction
          ⟨(p.network.initial.entry v.domain).min + v.offset,
            (p.network.initial.entry v.domain).max + v.offset⟩, p⟩) ∧
        ∀ q, p.restrictInitial x r.min r.max = .ok q → ¬ v.Escapes p.network.initial r →
          (∀ d ≠ v.domain, q.network.initial.entry d = p.network.initial.entry d ∧
            q.current.entry d = p.current.entry d) ∧
          v.values q.network.initial = {y ∈ v.values p.network.initial | r.contains y} ∧
          v.values q.reset.current = {y ∈ v.values p.network.initial | r.contains y} ∧
          v.values q.current = {y ∈ v.values p.current | r.contains y} := by
  have hsound := hp.sound
  have hv := hsound.network.carried v (Keyed.mem_of_get? hx)
  refine ⟨fun b value => ?_, fun r => ?_⟩
  · obtain ⟨changed, q, hq, hnetwork, hother, hchanged, hvalues⟩ := setBound_spec hsound hx b value
    exact ⟨changed, q, hq, hnetwork, hother, hchanged, hvalues ▸ View.sep_passes_eq_iff⟩
  · obtain ⟨herror, hbounds, hok⟩ := restrictInitial_spec hsound hx r
    refine ⟨?_, fun e he => hv.read_initial ▸ hbounds e he, fun q hq he => ?_⟩
    · rw [herror, not_iff_not]
      exact View.exists_passes_iff hsound.network hv
    · obtain ⟨hother, hinitial, hcurrent⟩ := hok q hq
      rw [View.sep_passes_eq he (.refl _)] at hinitial
      rw [View.sep_passes_eq he hsound.inside] at hcurrent
      exact ⟨hother, hinitial, hinitial, hcurrent⟩

/-- A shared domain that reaches to the greatest value, and a variable one below it. -/
def Problem.reaching : Problem :=
  let p := ofIntervals [⟨0, 2147483647⟩]
  match p.addOffsetVariable ⟨0⟩ (-1) with
  | .ok (_, q) => q
  | .error _ => p

theorem Built.reaching : Built .reaching := by
  have hadd : (Problem.ofIntervals [⟨0, 2147483647⟩]).addOffsetVariable ⟨0⟩ (-1) =
      .ok (⟨1⟩, .reaching) := rfl
  exact .addOffsetVariable (.addVariable .empty (by decide)) hadd

/-- Up to the limit a bound is exact, and so is a range that begins there. -/
theorem narrowing_exact_iff_reaching :
    Built .reaching ∧ Problem.reaching.network.views.get? ⟨1⟩ = some ⟨⟨0⟩, -1⟩ ∧
      (∃ changed q, Problem.reaching.setBound ⟨1⟩ .min 2147483646 = .ok (changed, q) ∧
        View.values ⟨⟨0⟩, -1⟩ q.current =
          {y ∈ View.values ⟨⟨0⟩, -1⟩ Problem.reaching.current | 2147483646 ≤ y}) ∧
      ((∃ e, Problem.reaching.restrictInitial ⟨1⟩ 2147483646 2147483647 = .error e) ↔
        ¬ ∃ y ∈ View.values ⟨⟨0⟩, -1⟩ Problem.reaching.network.initial,
          Interval.contains ⟨2147483646, 2147483647⟩ y) := by
  have hx : Problem.reaching.network.views.get? ⟨1⟩ = some ⟨⟨0⟩, -1⟩ := rfl
  obtain ⟨hbound, hrange⟩ := narrowing_exact_iff .reaching hx
  refine ⟨.reaching, hx, ?_, ?_⟩
  · obtain ⟨changed, q, hq, -, -, -, hvalues⟩ := hbound .min 2147483646
    exact ⟨changed, q, hq, hvalues.2 fun ho => ho.2 (Int.le_refl _)⟩
  · obtain ⟨hrefused, -⟩ := hrange ⟨2147483646, 2147483647⟩
    refine hrefused.2 ?_
    rintro ⟨_ | _, ho, -⟩
    · exact ho.2 (Int.le_refl _)
    · exact absurd ho.1 (by decide)

/-- Beyond the limit neither is: the least value asked for lies above every value of the variable,
yet one is left, and a restriction to it is accepted. -/
theorem narrowing_beyond_limit :
    Built .reaching ∧ Problem.reaching.current.Alive ∧
      Problem.reaching.network.views.get? ⟨1⟩ = some ⟨⟨0⟩, -1⟩ ∧
      (∀ y ∈ View.values ⟨⟨0⟩, -1⟩ Problem.reaching.current, ¬ 2147483647 ≤ y) ∧
      (∃ q, Problem.reaching.setMinValue ⟨1⟩ 2147483647 = .ok (true, q) ∧
        2147483646 ∈ View.values ⟨⟨0⟩, -1⟩ q.current) ∧
      (∃ q, Problem.reaching.restrictInitial ⟨1⟩ 2147483647 2147483647 = .ok q ∧
        2147483646 ∈ View.values ⟨⟨0⟩, -1⟩ q.reset.current) := by
  refine ⟨.reaching, Box.anyEmpty_eq_false_iff.1 (by decide +kernel), rfl, ?_, ⟨_, rfl, by decide⟩,
    ⟨_, rfl, by decide⟩⟩
  intro y hy hle
  have hmax := (Interval.contains_iff.1 hy).2
  have hentry : (Problem.reaching.current.entry ⟨0⟩).max = 2147483647 := rfl
  dsimp only at hmax
  omega

end BoundsSolver
