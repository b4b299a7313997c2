/-
# The ranges of the workers

Two accounts of a division meet here.  An interval of values is cut into as many ranges as
asked for, or as it has values, which tile it and whose sizes are those of a division with
remainder.  Taken through the offset of the split variable, the ranges become the initial
intervals of its shared domain in the problems of the workers, which tile the initial
interval there and differ from the whole problem in nothing else (`partition_exact`).
-/

import BoundsSolver.Proofs.Parallel.Partition

namespace BoundsSolver

variable {p : Problem} {v : View} {y : VariableId} {i r : Interval} {rs : List Interval}
  {first last : Int}

/-- Ranges of a variable tile what those of its shared domain tile. -/
theorem Tiles.back (h : Tiles first rs last) (v : View) :
    Tiles (first - v.offset) (rs.map v.back) (last - v.offset) := by
  induction h with
  | nil => exact .nil
  | @cons r rs last hr _ ih =>
    have hrest : Tiles ((v.back r).max + 1) (rs.map v.back) (last - v.offset) := by
      rw [show (v.back r).max + 1 = r.max + 1 - v.offset from by simp only [View.back]; omega]
      exact ih
    exact .cons (Int.sub_le_sub_right hr _) hrest

/-- Ranges that tile an interval of values are of values, and no longer than all of them. -/
theorem Tiles.fits (h : Tiles i.min rs (i.max + 1)) (hi : i.Fits) (hr : r ∈ rs) :
    r.Fits ∧ r.size ≤ 2 ^ 32 := by
  obtain ⟨hmin, hne, hmax⟩ := h.bounds.2 r hr
  refine ⟨hi.of_within ⟨hmin, Int.lt_add_one_iff.1 hmax⟩ hne, ?_⟩
  obtain ⟨hlo, hhi⟩ := hi
  simp only [Width.Fits, Width.value] at hlo hhi
  simp only [Interval.size]
  omega

theorem length_of_sizes {m k : Nat} (hk : 0 < k)
    (h : rs.map Interval.size = List.replicate (m % k) (m / k + 1) ++
      List.replicate (k - m % k) (m / k)) : rs.length = k := by
  have hlength := congrArg List.length h
  rw [List.length_map, List.length_append, List.length_replicate, List.length_replicate] at hlength
  rw [hlength, Nat.add_sub_cancel' (Nat.le_of_lt (Nat.mod_lt m hk))]

/-- Cutting a shared domain to an interval within its own leaves just that interval. -/
theorem Problem.entry_cutTo {e : DomainId} (he : e.index < p.network.initial.size)
    (hmin : (p.network.initial.entry e).min ≤ i.min)
    (hmax : i.max ≤ (p.network.initial.entry e).max) (e' : DomainId) :
    (p.cutTo e i).network.initial.entry e' =
      if e = e' then i else p.network.initial.entry e' := by
  show Keyed.entry (Keyed.modify p.network.initial e (·.tightenTo i)) e' = _
  rw [Box.entry_modify]
  by_cases hee : e = e'
  · subst hee
    rw [if_pos ⟨rfl, he⟩, if_pos rfl]
    refine Interval.ext ?_ ?_
    · rw [Interval.tightenTo_min]
      exact max_eq_right hmin
    · rw [Interval.tightenTo_max]
      exact min_eq_right hmax
  · rw [if_neg fun h => hee h.1, if_neg hee]

/-- The initial intervals of the part that keeps a variable within a range. -/
theorem Problem.entry_part (hp : p.Sound) (hv : p.network.views.get? y = some v)
    (hmin : (v.read p.network.initial).min ≤ r.min)
    (hmax : r.max ≤ (v.read p.network.initial).max) (e : DomainId) :
    (p.cutTo v.domain (v.back r)).network.initial.entry e =
      if v.domain = e then v.back r else p.network.initial.entry e := by
  have hcarries := hp.network.carried v (Keyed.mem_of_get? hv)
  rw [hcarries.read_initial] at hmin hmax
  exact entry_cutTo hcarries.has (Int.le_sub_right_of_add_le hmin)
    (Int.sub_right_le_of_le_add hmax) e

/-- In the parts the shared domain of the variable has the ranges less its offset. -/
theorem Problem.map_entry_parts (hp : p.Sound) (hv : p.network.views.get? y = some v)
    (hwithin : ∀ r ∈ rs, (v.read p.network.initial).min ≤ r.min ∧ r.min ≤ r.max ∧
      r.max ≤ (v.read p.network.initial).max) :
    (rs.map fun r => p.cutTo v.domain (v.back r)).map (·.network.initial.entry v.domain) =
      rs.map v.back := by
  rw [List.map_map]
  refine List.map_congr_left fun r hr => ?_
  obtain ⟨hmin, -, hmax⟩ := hwithin r hr
  exact (entry_part hp hv hmin hmax v.domain).trans (if_pos rfl)

/-- What a variable may initially be, cut and taken through its offset, tiles its shared
domain. -/
theorem Tiles.back_initial (hv : p.network.Carries v)
    (h : Tiles (v.read p.network.initial).min rs ((v.read p.network.initial).max + 1)) :
    Tiles (p.network.initial.entry v.domain).min (rs.map v.back)
      ((p.network.initial.entry v.domain).max + 1) := by
  have hback := h.back v
  rw [hv.read_initial] at hback
  simpa only [Int.add_sub_cancel, Int.add_right_comm _ _ 1] using hback

/-- **A division shares out the split variable exactly.**  An interval with values is cut into
the lesser of the number of parts and of values; the ranges are of values, follow one another
without a gap, and have the sizes of a division with remainder, the larger ones first.  For
any variable of a problem that was built, with any offset, every worker's restriction
succeeds; the initial intervals of the shared domain tile the one it had, and nothing is left
to do if that is empty.  The other shared domains stay as they are. -/
theorem partition_exact :
    (∀ {i : Interval} {parts : Nat}, i.Fits → i.min ≤ i.max → 0 < parts →
      ∃ rs, i.partition parts = .ok rs ∧ rs.length = min parts i.size ∧
        Tiles i.min rs (i.max + 1) ∧ (∀ r ∈ rs, r.Fits ∧ r.size ≤ 2 ^ 32) ∧
        rs.map Interval.size =
          List.replicate (i.size % rs.length) (i.size / rs.length + 1) ++
            List.replicate (rs.length - i.size % rs.length) (i.size / rs.length)) ∧
      ∀ {p : Problem} {y : VariableId} {v : View} {workers : Nat} {d : Division}, Built p →
        Division.of p y workers = .ok d → p.network.views.get? y = some v →
        ∃ rs ps, d.ranges = .ok rs ∧ d.parts rs = .ok ps ∧
          Interval.partition ⟨(p.network.initial.entry v.domain).min + v.offset,
            (p.network.initial.entry v.domain).max + v.offset⟩ workers = .ok rs ∧
          ps.map (·.network.initial.entry v.domain) = rs.map v.back ∧
          ((p.network.initial.entry v.domain).min ≤ (p.network.initial.entry v.domain).max →
            Tiles (p.network.initial.entry v.domain).min
              (ps.map (·.network.initial.entry v.domain))
              ((p.network.initial.entry v.domain).max + 1)) ∧
          ((p.network.initial.entry v.domain).max < (p.network.initial.entry v.domain).min →
            ps = []) ∧
          ∀ q ∈ ps, ∀ e ≠ v.domain, q.network.initial.entry e = p.network.initial.entry e := by
  refine ⟨fun {i parts} hi hne hparts => ?_, fun {p y v workers d} hp hd hv => ?_⟩
  · obtain ⟨rs, hrs, hsizes, htiles⟩ := partition_tiles hi hne hparts rfl
    have hpos : 0 < i.size := by
      simp only [Interval.size]
      omega
    have hlength := length_of_sizes (Nat.lt_min.2 ⟨hparts, hpos⟩) hsizes
    exact ⟨rs, hrs, hlength, htiles, fun r hr => htiles.fits hi hr, hlength ▸ hsizes⟩
  · obtain ⟨hworkers, -, -⟩ := Division.of_eq_ok.1 hd
    have hcarries := hp.sound.network.carried v (Keyed.mem_of_get? hv)
    have hread := hcarries.read_initial
    have hfits := View.read_fits v p.network.initial
    obtain ⟨rs, hrs, hwithin, -, -⟩ := partition_covers hfits hworkers
    obtain ⟨hps, -⟩ := Division.parts_eq hp hd hv hwithin
    have hown := Problem.map_entry_parts hp.sound hv hwithin
    refine ⟨rs, _, (Division.ranges_eq hd hv).trans hrs, hps, hread ▸ hrs, hown,
      fun hne => ?_, fun he => ?_, ?_⟩
    · have hne' : (v.read p.network.initial).min ≤ (v.read p.network.initial).max := by
        rw [hread]
        exact Int.add_le_add_right hne _
      obtain ⟨rs', hrs', -, htiles⟩ := partition_tiles hfits hne' hworkers rfl
      obtain rfl := Except.ok.inj (hrs.symm.trans hrs')
      rw [hown]
      exact htiles.back_initial hcarries
    · refine List.map_eq_nil_iff.2 (List.eq_nil_iff_forall_not_mem.2 fun r hr => ?_)
      obtain ⟨hmin, hfilled, hmax⟩ := hwithin r hr
      rw [hread] at hmin hmax
      dsimp only at hmin hmax
      omega
    · refine List.forall_mem_map.2 fun r hr e he => ?_
      obtain ⟨hmin, -, hmax⟩ := hwithin r hr
      rw [Problem.entry_part hp.sound hv hmin hmax, if_neg (Ne.symm he)]

/-- All values among three parts, of which one is larger, and a variable one below its shared
domain, which reaches to the greatest value, among two workers. -/
theorem partition_exact_reaching :
    (Interval.Fits ⟨-2147483648, 2147483647⟩ ∧
      ∃ rs, Interval.partition ⟨-2147483648, 2147483647⟩ 3 = .ok rs ∧
        Tiles (-2147483648) rs 2147483648 ∧
        rs.map Interval.size = [1431655766, 1431655765, 1431655765]) ∧
      Built .reaching ∧ Problem.reaching.network.views.get? ⟨1⟩ = some ⟨⟨0⟩, -1⟩ ∧
      ∃ d ps, Division.of .reaching ⟨1⟩ 2 = .ok d ∧
        d.parts [⟨-1, 1073741822⟩, ⟨1073741823, 2147483646⟩] = .ok ps ∧
        ps.map (·.network.initial.entry ⟨0⟩) = [⟨0, 1073741823⟩, ⟨1073741824, 2147483647⟩] ∧
        Tiles 0 (ps.map (·.network.initial.entry ⟨0⟩)) 2147483648 := by
  obtain ⟨hpartition, hparts⟩ := partition_exact
  have hi : Interval.Fits ⟨-2147483648, 2147483647⟩ := by decide
  have hv : Problem.reaching.network.views.get? ⟨1⟩ = some ⟨⟨0⟩, -1⟩ := rfl
  refine ⟨⟨hi, ?_⟩, .reaching, hv, ?_⟩
  · obtain ⟨rs, hrs, hlength, htiles, -, hsizes⟩ := hpartition hi (by decide) (by decide : 0 < 3)
    refine ⟨rs, hrs, htiles, ?_⟩
    rw [hsizes, hlength]
    decide +kernel
  · let d : Division := ⟨.reaching, ⟨1⟩, 2⟩
    have hd : Division.of .reaching ⟨1⟩ 2 = .ok d := rfl
    have hranges : d.ranges = .ok [⟨-1, 1073741822⟩, ⟨1073741823, 2147483646⟩] := by
      decide +kernel
    obtain ⟨rs, ps, hrs, hps, -, hown, htiles, -⟩ := hparts .reaching hd hv
    obtain rfl := Except.ok.inj (hranges.symm.trans hrs)
    exact ⟨d, ps, hd, hps, hown, htiles (by decide)⟩

end BoundsSolver
