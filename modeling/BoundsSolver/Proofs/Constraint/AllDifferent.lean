/-
# Pairwise distinct variables: the propagator is exact

The ranks of the merged bounds are what both passes need (`Ranked`), so the first
pass computes the least value of every variable and the second pass, on the
mirrored intervals, the greatest one (`hallBounds_spec`).  Unless there are too
few values, both exist, and every bound is taken by pairwise distinct values.

The critical bounds lie hardly beyond the values (`near_of_merged`), so that no sum or
difference of them leaves its range.
-/

import BoundsSolver.Proofs.AllDifferent.Pass
import BoundsSolver.Proofs.AllDifferent.Ranking
import BoundsSolver.Proofs.Contract

namespace BoundsSolver
namespace AllDifferent

/-- The intervals on which the constraint can be propagated. -/
def Posed (is : List Interval) : Prop := Filled is ∧ ∀ i ∈ is, i.Fits

variable {is : List Interval} {i : Interval} {v last : Nat} {critical : Array Int}
  {minRank maxRank : Array Nat}

theorem Posed.of_within {js : List Interval} (h : Posed is) (hw : Within js is) (hf : Filled js) :
    Posed js :=
  ⟨hf, fun j hj => by
    obtain ⟨i, hi, hb⟩ := hw.exists_of_mem hj
    exact (h.2 i hi).of_within hb (hf j hj)⟩

/-- The critical bounds up to one beyond the last, in order and hardly beyond the values, and
the ranks of the bounds of every variable. -/
structure Ranked (is : List Interval) (critical : Array Int) (minRank maxRank : Array Nat)
    (last : Nat) : Prop where
  size : last + 1 < critical.size
  step : ∀ k ≤ last, critical.getD k 0 < critical.getD (k + 1) 0
  bottom : critical.getD 0 0 + 2 ≤ critical.getD 1 0
  top : critical.getD last 0 + 2 ≤ critical.getD (last + 1) 0
  near : ∀ k ≤ last + 1, Width.value.lo - 2 ≤ critical.getD k 0 ∧
    critical.getD k 0 ≤ Width.value.hi + 3
  rank : ∀ {v : Nat} {i : Interval}, is[v]? = some i → ∃ x y, minRank[v]? = some x ∧
    maxRank[v]? = some y ∧ (1 ≤ x ∧ x < y ∧ y ≤ last) ∧ critical.getD x 0 = i.min ∧
    critical.getD y 0 = i.max + 1

namespace Ranked

variable (h : Ranked is critical minRank maxRank last)
include h

theorem getElem? {k : Nat} (hk : k ≤ last + 1) : critical[k]? = some (critical.getD k 0) := by
  have := h.size
  rw [Array.getElem?_eq_getElem (by omega), Array.getD_eq_getD_getElem?,
    Array.getElem?_eq_getElem (by omega), Option.getD_some]

/-- The values between two critical bounds can be counted. -/
theorem fits_sub {k n : Nat} (hk : k ≤ last + 1) (hn : n ≤ last + 1) :
    Width.sum.Fits (critical.getD k 0 - critical.getD n 0) := by
  have hk := h.near k hk
  have hn := h.near n hn
  simp only [Width.value] at hk hn
  simp only [Width.sum, Width.Fits]
  omega

/-- The values between two critical bounds, as they are computed. -/
theorem sub_eq {k n : Nat} (hk : k ≤ last + 1) (hn : n ≤ last + 1) :
    Width.sum.sub (critical.getD k 0) (critical.getD n 0) =
      .ok (critical.getD k 0 - critical.getD n 0) :=
  Width.sub_eq_ok.2 ⟨h.fits_sub hk hn, rfl⟩

/-- The critical bounds as the first pass reads them. -/
theorem critical_below : Critical (last + 1) (fun k => critical.getD k 0) where
  step k hk := h.step k (by omega)
  top k hk := by
    obtain rfl : k = last := by omega
    exact h.top
  fits _ hk _ hn := h.fits_sub hk hn

/-- The critical bounds as the second pass reads them. -/
theorem critical_above : Critical (last + 1) (fun k => 1 - critical.getD (last + 1 - k) 0) where
  step k hk := by
    have := h.step (last - k) (by omega)
    rw [show last - k + 1 = last + 1 - k by omega] at this
    rw [show last + 1 - (k + 1) = last - k by omega]
    omega
  top k hk := by
    obtain rfl : k = last := by omega
    have := h.bottom
    rw [show k + 1 - k = 1 by omega, Nat.sub_self]
    omega
  fits k _ n _ := by
    have := h.fits_sub (k := last + 1 - n) (n := last + 1 - k) (by omega) (by omega)
    rwa [show 1 - critical.getD (last + 1 - k) 0 - (1 - critical.getD (last + 1 - n) 0) =
      critical.getD (last + 1 - n) 0 - critical.getD (last + 1 - k) 0 by omega]

/-- The forests before the first pass. -/
theorem rising_tracks : ∃ f, rising critical last (.blank critical.size) = .ok f ∧
    Tracks (.below (last + 1)) (fun k => critical.getD k 0) [] (· - 1) (· - 1)
      (fun k => critical.getD k 0 - critical.getD (k - 1) 0) (fun _ => False) f := by
  have hsize := h.size
  have hmem {k : Nat} : k ∈ List.range' 1 (last + 1) ↔ 1 ≤ k ∧ k ≤ last + 1 := by
    rw [List.mem_range'_1]
    omega
  have hloop := Forest.foldlM_join (· - 1) (fun k => critical.getD k 0 - critical.getD (k - 1) 0)
    (.blank critical.size) (List.range' 1 (last + 1)) (fun f k => do
      let below ← Width.predecessor k
      let free ← Width.sum.sub (← readAt critical k) (← readAt critical below)
      f.join k below free) (fun k hk f => ?step) fun k hk => ?size
  case step =>
    obtain ⟨h1, hk⟩ := hmem.1 hk
    obtain ⟨k, rfl⟩ := Nat.exists_eq_add_of_le' h1
    have hup := readAt_eq_ok.2 (h.getElem? hk)
    have hlow := readAt_eq_ok.2 (h.getElem? (k := k) (by omega))
    simp only [Width.predecessor, hup, hlow, h.sub_eq hk (n := k) (by omega), bind, Except.bind]
    rfl
  case size =>
    obtain ⟨-, hk⟩ := hmem.1 hk
    simp only [Forest.blank, Array.size_replicate]
    omega
  obtain ⟨f, hf, -, hjoined⟩ := hloop
  have hat {k : Nat} (h1 : 1 ≤ k) (hk : k ≤ last + 1) := hjoined k (hmem.2 ⟨h1, hk⟩)
  exact ⟨f, hf, Side.tracks_start h.critical_below (by omega) (fun k h1 hk => (hat h1 hk).tree)
    (fun k h1 hk => (hat h1 hk).hall) fun k h1 hk => (hat h1 hk).room⟩

/-- The forests before the second pass. -/
theorem falling_tracks {f : Forest} (htree : last < f.tree.size) (hhall : last < f.hall.size)
    (hroom : last < f.room.size) : ∃ g, falling critical last f = .ok g ∧
      Tracks (.above (last + 1)) (fun k => 1 - critical.getD (last + 1 - k) 0) [] (· - 1) (· - 1)
        (fun k => 1 - critical.getD (last + 1 - k) 0 - (1 - critical.getD (last + 1 - (k - 1)) 0))
        (fun _ => False) g := by
  have hloop := Forest.foldlM_join (· + 1) (fun k => critical.getD (k + 1) 0 - critical.getD k 0)
    f (List.range (last + 1)) (fun f k => do
      let free ← Width.sum.sub (← readAt critical (k + 1)) (← readAt critical k)
      f.join k (k + 1) free) (fun k hk f => ?step) fun k hk => ?size
  case step =>
    have hk : k ≤ last := Nat.le_of_lt_succ (List.mem_range.1 hk)
    have hup := readAt_eq_ok.2 (h.getElem? (k := k + 1) (by omega))
    have hlow := readAt_eq_ok.2 (h.getElem? (k := k) (by omega))
    simp only [hup, hlow, h.sub_eq (k := k + 1) (n := k) (by omega) (by omega), bind, Except.bind]
  case size =>
    have := List.mem_range.1 hk
    omega
  obtain ⟨g, hg, -, hjoined⟩ := hloop
  have hat {k : Nat} (h1 : 1 ≤ k) (hk : k ≤ last + 1) :=
    hjoined (last + 1 - k) (List.mem_range.2 (by omega))
  have hlink {k : Nat} (h1 : 1 ≤ k) (hk : k ≤ last + 1) :
      last + 1 - k + 1 = last + 1 - (k - 1) := by omega
  refine ⟨g, hg, Side.tracks_start h.critical_above (by omega) (fun k h1 hk => ?_)
    (fun k h1 hk => ?_) fun k h1 hk => ?_⟩
  · exact (hat h1 hk).tree.trans (congrArg some (hlink h1 hk))
  · exact (hat h1 hk).hall.trans (congrArg some (hlink h1 hk))
  · refine (hat h1 hk).room.trans (congrArg some ?_)
    simp only [id, hlink h1 hk]
    omega

end Ranked

/-! ### The ranks -/

/-- The sorted lower bounds. -/
def lows (is : List Interval) : List (Int × Nat) := sortBounds (is.map (·.min))

/-- The sorted upper bounds plus one. -/
def highs (is : List Interval) : List (Int × Nat) := sortBounds (is.map (·.max + 1))

/-- Less than all bounds. -/
def base (is : List Interval) : Int := ((lows is).head?.map Prod.fst).getD 0 - 2

/-- The ranking before any bound has been taken in. -/
def unranked (is : List Interval) : Ranking where
  critical := (Array.replicate (2 * is.length + 2) 0).setIfInBounds 0 (base is)
  last := 0
  minRank := .replicate is.length 0
  maxRank := .replicate is.length 0

theorem mem_lows {t : Int × Nat} : t ∈ lows is ↔ ∃ i, is[t.2]? = some i ∧ i.min = t.1 := by
  rw [lows, mem_sortBounds, List.getElem?_map, Option.map_eq_some_iff]

theorem mem_highs {t : Int × Nat} :
    t ∈ highs is ↔ ∃ i, is[t.2]? = some i ∧ i.max + 1 = t.1 := by
  rw [highs, mem_sortBounds, List.getElem?_map, Option.map_eq_some_iff]

theorem length_lows (is : List Interval) : (lows is).length = is.length := by
  rw [lows, (sortBounds_perm _).length_eq, List.length_zipIdx, List.length_map]

theorem length_highs (is : List Interval) : (highs is).length = is.length := by
  rw [highs, (sortBounds_perm _).length_eq, List.length_zipIdx, List.length_map]

/-- The base lies two below some lower bound. -/
theorem exists_base (hne : is ≠ []) : ∃ i ∈ is, base is = i.min - 2 := by
  rcases hl : lows is with _ | ⟨l, ls⟩
  · have hlen := length_lows is
    rw [hl] at hlen
    exact absurd (List.length_eq_zero_iff.1 hlen.symm) hne
  · obtain ⟨i, hi, hmin⟩ := mem_lows.1 (hl ▸ List.mem_cons_self)
    refine ⟨i, List.mem_of_getElem? hi, ?_⟩
    rw [base, hl, hmin]
    rfl

theorem base_le (hi : is[v]? = some i) : base is + 2 ≤ i.min := by
  have hmem : (i.min, v) ∈ lows is := mem_lows.2 ⟨i, hi, rfl⟩
  have hsorted : (lows is).Pairwise fun s t => s.1 ≤ t.1 := sortBounds_pairwise _
  unfold base
  rcases hl : lows is with _ | ⟨l, ls⟩
  · rw [hl] at hmem
    exact absurd hmem List.not_mem_nil
  · rw [hl] at hmem hsorted
    simp only [List.head?_cons, Option.map_some, Option.getD_some]
    rcases List.mem_cons.1 hmem with rfl | hmem
    · omega
    · have := (List.pairwise_cons.1 hsorted).1 _ hmem
      dsimp only at this
      omega

theorem unranked_at {k : Nat} {a : Int} : (unranked is).At k a ↔ k = 0 ∧ a = base is := by
  have hself : (unranked is).critical[0]? = some (base is) :=
    Array.getElem?_setIfInBounds_self_of_lt (by rw [Array.size_replicate]; omega)
  constructor
  · rintro ⟨hk, ha⟩
    obtain rfl : k = 0 := Nat.le_zero.1 hk
    exact ⟨rfl, (Option.some.inj (hself.symm.trans ha)).symm⟩
  · rintro ⟨rfl, rfl⟩
    exact ⟨Nat.le_refl 0, hself⟩

theorem mergeable (hf : Filled is) : Ranking.Mergeable (lows is) (highs is) (unranked is) where
  ascending {i j a b} hi hj hij := by
    have := (unranked_at.1 hj).1
    omega
  back b hb := by
    obtain rfl := (unranked_at.1 hb).2
    refine ⟨fun l hl => ?_, fun m hm => ?_⟩
    · obtain ⟨i, hi, hl⟩ := mem_lows.1 hl
      have := base_le hi
      omega
    · obtain ⟨i, hi, hm⟩ := mem_highs.1 hm
      have := base_le hi
      have := hf i (List.mem_of_getElem? hi)
      omega
  space := by
    rw [length_lows, length_highs]
    simp only [unranked, Array.size_setIfInBounds, Array.size_replicate]
    omega
  sortedLows := sortBounds_pairwise _
  sortedHighs := sortBounds_pairwise _
  nodupLows := sortBounds_snd_nodup _
  nodupHighs := sortBounds_snd_nodup _
  covered l hl := by
    obtain ⟨i, hi, hl⟩ := mem_lows.1 hl
    have := hf i (List.mem_of_getElem? hi)
    exact ⟨(i.max + 1, l.2), mem_highs.2 ⟨i, hi, rfl⟩, by dsimp only; omega⟩
  sizeMin l hl := by
    obtain ⟨i, hi, -⟩ := mem_lows.1 hl
    rw [unranked, Array.size_replicate]
    exact (List.getElem?_eq_some_iff.1 hi).1
  sizeMax m hm := by
    obtain ⟨i, hi, -⟩ := mem_highs.1 hm
    rw [unranked, Array.size_replicate]
    exact (List.getElem?_eq_some_iff.1 hi).1

/-- The base is the critical bound before all others. -/
theorem base_of_merged {r : Ranking} (hm : Ranking.Merged (lows is) (highs is) (unranked is) r) :
    r.At 0 (base is) := hm.keeps (unranked_at.2 ⟨rfl, rfl⟩)

/-- The other critical bounds are bounds of variables. -/
theorem bound_of_merged {r : Ranking} {k : Nat} {a : Int}
    (hm : Ranking.Merged (lows is) (highs is) (unranked is) r) (hk : r.At k a) (h1 : 1 ≤ k) :
    ∃ (v : Nat) (i : Interval), is[v]? = some i ∧ (a = i.min ∨ a = i.max + 1) := by
  rcases hm.only hk with hbase | ⟨l, hl, rfl⟩ | ⟨l, hl, rfl⟩
  · have := (unranked_at.1 hbase).1
    omega
  · obtain ⟨i, hi, hl⟩ := mem_lows.1 hl
    exact ⟨_, i, hi, .inl hl.symm⟩
  · obtain ⟨i, hi, hl⟩ := mem_highs.1 hl
    exact ⟨_, i, hi, .inr hl.symm⟩

/-- The two ranks of a variable. -/
theorem ranks_of_merged {r : Ranking} (hf : Filled is)
    (hm : Ranking.Merged (lows is) (highs is) (unranked is) r) (hi : is[v]? = some i) :
    ∃ x y, r.minRank[v]? = some x ∧ r.maxRank[v]? = some y ∧ (1 ≤ x ∧ x < y) ∧ r.At x i.min ∧
      r.At y (i.max + 1) := by
  obtain ⟨x, hx, hcx⟩ := hm.minRank (i.min, v) (mem_lows.2 ⟨i, hi, rfl⟩)
  obtain ⟨y, hy, hcy⟩ := hm.maxRank (i.max + 1, v) (mem_highs.2 ⟨i, hi, rfl⟩)
  have hmax := hf i (List.mem_of_getElem? hi)
  have hbase := base_le hi
  have hx0 : x ≠ 0 := by
    rintro rfl
    have : base is = i.min := Option.some.inj ((base_of_merged hm).2.symm.trans hcx.2)
    omega
  have hle : x ≤ y := Ranking.Ascending.le hm.ascending hcx hcy (by omega)
  have hne : x ≠ y := by
    rintro rfl
    have : i.min = i.max + 1 := Option.some.inj (hcx.2.symm.trans hcy.2)
    omega
  exact ⟨x, y, hx, hy, by omega, hcx, hcy⟩

/-- The merged bounds lie hardly beyond the values. -/
theorem near_of_merged {r : Ranking} {k : Nat} {a : Int} (hp : Posed is) (hne : is ≠ [])
    (hm : Ranking.Merged (lows is) (highs is) (unranked is) r) (hk : r.At k a) :
    Width.value.lo - 2 ≤ a ∧ a ≤ Width.value.hi + 1 := by
  rcases Nat.eq_zero_or_pos k with rfl | h1
  · obtain ⟨i, hi, hbase⟩ := exists_base hne
    obtain ⟨⟨hlo, hhi⟩, -⟩ := hp.2 i hi
    have : base is = a := Option.some.inj ((base_of_merged hm).2.symm.trans hk.2)
    omega
  · obtain ⟨v, i, hi, ha⟩ := bound_of_merged hm hk h1
    obtain ⟨⟨hlo, hhi⟩, hlo', hhi'⟩ := hp.2 i (List.mem_of_getElem? hi)
    omega

/-- Sums of numbers hardly beyond the values fit. -/
theorem sum_fits_of_near {a : Int} (h : Width.value.lo - 2 ≤ a ∧ a ≤ Width.value.hi + 3) :
    Width.sum.Fits a := by
  simp only [Width.value] at h
  simp only [Width.sum, Width.Fits]
  omega

/-- The bounds are merged without a fault. -/
theorem ofSorted_merged (hp : Posed is) (hne : is ≠ []) : ∃ r a,
    Ranking.Merged (lows is) (highs is) (unranked is) r ∧ r.At r.last a ∧
      r.last + 1 < r.critical.size ∧ Ranking.ofSorted is.length (lows is) (highs is) =
        .ok { r with critical := r.critical.setIfInBounds (r.last + 1) (a + 2) } := by
  obtain ⟨r, hr, hm⟩ := Ranking.merge_spec (mergeable hp.1)
  have hlast := hm.last
  have hsize := hm.size
  rw [length_lows, length_highs] at hlast
  simp only [unranked, Array.size_setIfInBounds, Array.size_replicate] at hlast hsize
  have hget : r.critical[r.last]? = some r.critical[r.last] := Array.getElem?_eq_getElem (by omega)
  have hat : r.At r.last r.critical[r.last] := ⟨Nat.le_refl _, hget⟩
  have hnear := near_of_merged hp hne hm hat
  have hbase := near_of_merged hp hne hm (base_of_merged hm)
  have hfirst : Width.sum.sub (((lows is).head?.map Prod.fst).getD 0) 2 = .ok (base is) :=
    Width.sub_eq_ok.2 ⟨sum_fits_of_near (by rw [base] at hbase; omega), rfl⟩
  have hzero : 0 < (Array.replicate (2 * is.length + 2) (0 : Int)).size := by
    rw [Array.size_replicate]
    omega
  refine ⟨r, _, hm, hat, by omega, ?_⟩
  unfold Ranking.ofSorted
  unfold unranked at hr
  rw [bind_of_ok hfirst, bind_of_ok (writeAt_eq_ok.2 ⟨hzero, rfl⟩), bind_of_ok hr,
    bind_of_ok (readAt_eq_ok.2 hget),
    bind_of_ok (Width.add_eq_ok.2 ⟨sum_fits_of_near (by omega), rfl⟩),
    bind_of_ok (writeAt_eq_ok.2 ⟨by omega, rfl⟩)]
  rfl

/-- **The ranks of the merged bounds.** -/
theorem ranked (hp : Posed is) (hne : is ≠ []) :
    ∃ r, Ranking.ofSorted is.length (lows is) (highs is) = .ok r ∧
      Ranked is r.critical r.minRank r.maxRank r.last := by
  obtain ⟨r, a, hm, hat, hsize, hr⟩ := ofSorted_merged hp hne
  refine ⟨_, hr, ?_⟩
  show Ranked is (r.critical.setIfInBounds (r.last + 1) (a + 2)) r.minRank r.maxRank r.last
  generalize hcritical : r.critical.setIfInBounds (r.last + 1) (a + 2) = critical
  have hself : critical.getD (r.last + 1) 0 = a + 2 := by
    rw [← hcritical, Array.getD_eq_getD_getElem?,
      Array.getElem?_setIfInBounds_self_of_lt hsize, Option.getD_some]
  have hget {k : Nat} (hk : k ≤ r.last) : r.At k (critical.getD k 0) := by
    refine ⟨hk, ?_⟩
    rw [← hcritical, Array.getD_eq_getD_getElem?, Array.getElem?_setIfInBounds_ne (by omega),
      Array.getElem?_eq_getElem (by omega), Option.getD_some]
  have heq {k : Nat} {b : Int} (hk : r.At k b) : critical.getD k 0 = b :=
    Option.some.inj ((hget hk.1).2.symm.trans hk.2)
  have htop : critical.getD r.last 0 = a := heq hat
  refine ⟨?_, fun k hk => ?_, ?_, ?_, fun k hk => ?_, fun {v i} hi => ?_⟩
  · rw [← hcritical, Array.size_setIfInBounds]
    exact hsize
  · rcases Nat.lt_or_eq_of_le hk with hlt | rfl
    · exact hm.ascending (hget hk) (hget hlt) (Nat.lt_succ_self k)
    · rw [htop, hself]
      omega
  · -- the second critical bound is a bound of some variable
    obtain ⟨i, is', rfl⟩ := List.exists_cons_of_ne_nil hne
    obtain ⟨x, y, -, -, hxy, hx, -⟩ := ranks_of_merged (v := 0) hp.1 hm rfl
    have hone := hget (k := 1) (by have := hx.1; omega)
    obtain ⟨w, j, hj, hbound⟩ := bound_of_merged hm hone (Nat.le_refl 1)
    have := base_le hj
    have := hp.1 j (List.mem_of_getElem? hj)
    rw [heq (base_of_merged hm)]
    omega
  · rw [htop, hself]
  · rcases Nat.lt_or_eq_of_le hk with hlt | rfl
    · have := near_of_merged hp hne hm (hget (Nat.le_of_lt_succ hlt))
      omega
    · have := near_of_merged hp hne hm hat
      omega
  · obtain ⟨x, y, hx, hy, ⟨h1, hxy⟩, hcx, hcy⟩ := ranks_of_merged hp.1 hm hi
    exact ⟨x, y, hx, hy, ⟨h1, hxy, hcy.1⟩, heq hcx, heq hcy⟩

/-! ### The passes -/

/-- The first pass computes the least values. -/
theorem rising_spec (hf : Filled is) (h : Ranked is critical minRank maxRank last) :
    ∃ f, rising critical last (.blank critical.size) = .ok f ∧
      ((takeAll (raise critical minRank maxRank) ((highs is).map Prod.snd)
          ⟨(is.map (·.min)).toArray, f⟩ = .ok none ∧ ¬ Balanced is) ∨
        ∃ q, takeAll (raise critical minRank maxRank) ((highs is).map Prod.snd)
            ⟨(is.map (·.min)).toArray, f⟩ = .ok (some q) ∧ Balanced is ∧
          q.bounds.size = is.length ∧ (∀ {v : Nat} {i : Interval}, is[v]? = some i →
            ∃ a, q.bounds[v]? = some a ∧ LeastValue is v a) ∧
          last < q.forest.tree.size ∧ last < q.forest.hall.size ∧ last < q.forest.room.size) := by
  obtain ⟨f, hforest, htracks⟩ := h.rising_tracks
  refine ⟨f, hforest, ?_⟩
  rw [Side.raise_eq_take (last + 1)]
  have hspec := Side.pass_spec critical minRank maxRank ((highs is).map Prod.snd)
    (p := ⟨(is.map (·.min)).toArray, f⟩) h.critical_below
    (fun k _ hk => h.getElem? hk) htracks hf (fun hi => ?_) (fun hi => ?_) ?_ ?_
  · rcases hspec with hnone | ⟨q, hq, hb, hsize, hleast, _, _, _, _, _, ht⟩
    · exact .inl hnone
    · have hlt {α β : Type} {read : β → α} {as : Array α} {f : Nat → β}
          (hs : (Side.below (last + 1)).Shows read as f) : last < as.size := by
        have := (Array.getElem?_eq_some_iff.1 (hs (last + 1) (by omega) (Nat.le_refl _))).1
        have : last + 1 < as.size := this
        omega
      refine .inr ⟨q, hq, hb, ?_, hleast, hlt ht.showsTree, hlt ht.showsHall, hlt ht.showsRoom⟩
      rw [hsize, List.size_toArray, List.length_map]
  · obtain ⟨x, y, hx, hy, hb, hmin, hmax⟩ := h.rank hi
    exact ⟨x, y, hx, hy, by omega, Interval.ext hmin.symm (by dsimp only; omega)⟩
  · rw [List.getElem?_toArray, List.getElem?_map, hi]
    rfl
  · have := sortBounds_snd_perm (is.map (·.max + 1))
    rwa [List.length_map] at this
  · refine List.pairwise_map.2 ((sortBounds_pairwise _).imp_of_mem fun {s t} hs ht hle => ?_)
    intro i j hi hj
    obtain ⟨i', hi', hs⟩ := mem_highs.1 hs
    obtain ⟨j', hj', ht⟩ := mem_highs.1 ht
    obtain rfl := Option.some.inj (hi.symm.trans hi')
    obtain rfl := Option.some.inj (hj.symm.trans hj')
    omega

/-- The second pass computes the least values of the mirrored intervals. -/
theorem falling_spec (hf : Filled is) (h : Ranked is critical minRank maxRank last) {f : Forest}
    (htree : last < f.tree.size) (hhall : last < f.hall.size) (hroom : last < f.room.size) :
    ∃ g, falling critical last f = .ok g ∧
      ((takeAll (lower critical minRank maxRank) ((lows is).map Prod.snd).reverse
          ⟨(is.map (·.max + 1)).toArray, g⟩ = .ok none ∧ ¬ Balanced is) ∨
        ∃ q, takeAll (lower critical minRank maxRank) ((lows is).map Prod.snd).reverse
            ⟨(is.map (·.max + 1)).toArray, g⟩ = .ok (some q) ∧
          q.bounds.size = is.length ∧ ∀ {v : Nat} {i : Interval}, is[v]? = some i →
            ∃ a, q.bounds[v]? = some (1 - a) ∧ LeastValue (is.map mirror) v a) := by
  obtain ⟨g, hforest, htracks⟩ := h.falling_tracks htree hhall hroom
  refine ⟨g, hforest, ?_⟩
  have hlower : lower critical minRank maxRank =
      (Side.above (last + 1)).take critical maxRank minRank :=
    funext fun v => funext fun p => Side.lower_eq_take (last + 1) critical minRank maxRank v p
  have hmirror {v : Nat} {i : Interval} (hi : (is.map mirror)[v]? = some i) :
      ∃ j, is[v]? = some j ∧ mirror j = i := by
    rwa [List.getElem?_map, Option.map_eq_some_iff] at hi
  rw [hlower]
  have hspec := Side.pass_spec critical maxRank minRank ((lows is).map Prod.snd).reverse
    (p := ⟨(is.map (·.max + 1)).toArray, g⟩) h.critical_above
    (fun k h1 hk => ?_) htracks
    (filled_map_mirror hf) (fun hi => ?_) (fun hi => ?_) ?_ ?_
  · rcases hspec with ⟨hnone, hover⟩ | ⟨q, hq, hb, hsize, hleast, -⟩
    · exact .inl ⟨hnone, fun hb => hover (balanced_map_mirror hf hb)⟩
    · refine .inr ⟨q, hq, ?_, fun {v i} hi => ?_⟩
      · rw [hsize, List.size_toArray, List.length_map]
      · exact hleast (v := v) (by rw [List.getElem?_map, hi]; rfl)
  · rw [show (Side.above (last + 1)).pos k = last + 1 - k from rfl, h.getElem? (by omega)]
    exact congrArg some (by simp only [Side.above]; omega)
  · obtain ⟨j, hj, rfl⟩ := hmirror hi
    obtain ⟨x, y, hx, hy, hb, hmin, hmax⟩ := h.rank hj
    have hback {k : Nat} (hk : k ≤ last + 1) : last + 1 - (last + 1 - k) = k := by omega
    refine ⟨last + 1 - y, last + 1 - x, ?_, ?_, by omega, ?_⟩
    · rw [hy]
      exact congrArg some (hback (by omega)).symm
    · rw [hx]
      exact congrArg some (hback (by omega)).symm
    · rw [hback (by omega), hback (by omega), hmin, hmax]
      exact Interval.ext (by simp only [mirror]; omega) (by simp only [mirror]; omega)
  · obtain ⟨j, hj, rfl⟩ := hmirror hi
    rw [List.getElem?_toArray, List.getElem?_map, hj]
    exact congrArg some (by simp only [mirror, Side.above]; omega)
  · have := sortBounds_snd_perm (is.map (·.min))
    rw [List.length_map] at this ⊢
    exact (List.reverse_perm _).trans this
  · refine List.pairwise_reverse.2 (List.pairwise_map.2
      ((sortBounds_pairwise _).imp_of_mem fun {s t} hs ht hle => ?_))
    intro i j hi hj
    obtain ⟨i', hi', hs⟩ := mem_lows.1 hs
    obtain ⟨j', hj', ht⟩ := mem_lows.1 ht
    obtain ⟨k, hk, rfl⟩ := hmirror hj
    obtain ⟨l, hl, rfl⟩ := hmirror hi
    obtain rfl := Option.some.inj (hk.symm.trans hi')
    obtain rfl := Option.some.inj (hl.symm.trans hj')
    simp only [mirror]
    omega

/-- **Both passes compute the bounds of pairwise distinct values**, unless there are too few
values. -/
theorem hallBounds_spec (hp : Posed is) (hne : is ≠ []) :
    (hallBounds (is.map (·.min)) (is.map (·.max + 1)) = .ok none ∧ ¬ Balanced is) ∨
    ∃ as bs, hallBounds (is.map (·.min)) (is.map (·.max + 1)) = .ok (some (as, bs)) ∧
      Balanced is ∧ as.size = is.length ∧ bs.size = is.length ∧
      ∀ {v : Nat} {i : Interval}, is[v]? = some i → ∃ a b, as[v]? = some a ∧
        bs[v]? = some (1 - b) ∧ LeastValue is v a ∧ LeastValue (is.map mirror) v b := by
  obtain ⟨r, hr, h⟩ := ranked hp hne
  rw [← List.length_map (·.min)] at hr
  obtain ⟨f, hf, hrise⟩ := rising_spec hp.1 h
  rcases hrise with ⟨hnone, hover⟩ | ⟨p, hsome, hb, hsize, hleast, ht, hh, hroom⟩
  · exact .inl ⟨(bind_of_ok hr).trans ((bind_of_ok hf).trans (bind_of_ok hnone)), hover⟩
  · obtain ⟨g, hg, hfall⟩ := falling_spec hp.1 h ht hh hroom
    rcases hfall with ⟨hnone, hover⟩ | ⟨q, hq, hsize', hleast'⟩
    · exact absurd hb hover
    · refine .inr ⟨p.bounds, q.bounds, ?_, hb, hsize, hsize', fun {v i} hi => ?_⟩
      · calc hallBounds (is.map (·.min)) (is.map (·.max + 1))
          _ = _ := bind_of_ok hr
          _ = _ := bind_of_ok hf
          _ = _ := bind_of_ok hsome
          _ = _ := bind_of_ok hg
          _ = _ := bind_of_ok hq
      · obtain ⟨a, ha, hla⟩ := hleast hi
        obtain ⟨b, hb, hlb⟩ := hleast' hi
        exact ⟨a, b, ha, hb, hla, hlb⟩

/-! ### The propagator -/

/-- The upper bounds plus one can be computed. -/
theorem mapM_max_eq (hfits : ∀ i ∈ is, i.Fits) :
    (is.mapM fun i => Width.sum.add i.max 1) = .ok (is.map (·.max + 1)) := by
  induction is with
  | nil => rfl
  | cons i is ih =>
    obtain ⟨⟨-, hlo, hhi⟩, hfits⟩ := List.forall_mem_cons.1 hfits
    have hadd : Width.sum.add i.max 1 = .ok (i.max + 1) :=
      Width.add_eq_ok.2 ⟨sum_fits_of_near (by omega), rfl⟩
    rw [List.mapM_cons, bind_of_ok hadd, bind_of_ok (ih hfits)]
    rfl

/-- Bounds in order within the intervals are taken over as they are. -/
theorem within_eq (as bs : Array Int) (n : Nat) (hfits : ∀ i ∈ is, i.Fits)
    (hin : ∀ {k : Nat} {i : Interval}, is[k]? = some i → ∃ a b, as[n + k]? = some a ∧
      bs[n + k]? = some b ∧ i.min ≤ a ∧ a ≤ b - 1 ∧ b - 1 ≤ i.max) :
    ∃ js, within as bs n is = .ok js ∧ js.length = is.length ∧
      ∀ {k : Nat} {j : Interval}, js[k]? = some j →
        as[n + k]? = some j.min ∧ bs[n + k]? = some (j.max + 1) := by
  induction is generalizing n with
  | nil => exact ⟨[], rfl, rfl, fun h => by cases h⟩
  | cons i is ih =>
    obtain ⟨⟨⟨hlo, -⟩, -, hhi⟩, hfits⟩ := List.forall_mem_cons.1 hfits
    obtain ⟨a, b, ha, hb, h₁, h₂, h₃⟩ := hin (k := 0) rfl
    rw [Nat.add_zero] at ha hb
    obtain ⟨js, hjs, hlen, hat⟩ := ih (n + 1) hfits fun {k i} hi => by
      rw [Nat.add_right_comm]
      exact hin (k := k + 1) hi
    have hsub : Width.sum.sub b 1 = .ok (b - 1) :=
      Width.sub_eq_ok.2 ⟨sum_fits_of_near (by omega), rfl⟩
    have hmin : Width.value.wrap a = a := Width.wrap_eq_self ⟨by omega, by omega⟩
    have hmax : Width.value.wrap (b - 1) = b - 1 := Width.wrap_eq_self ⟨by omega, by omega⟩
    have hi : (i.tightenMin a).tightenMax (b - 1) = ⟨a, b - 1⟩ := Interval.ext
      (by rw [Interval.tightenMax_min, Interval.tightenMin_min]; dsimp only; omega)
      (by rw [Interval.tightenMax_max, Interval.tightenMin_max]; dsimp only; omega)
    refine ⟨⟨a, b - 1⟩ :: js, ?_, congrArg Nat.succ hlen, fun {k j} hj => ?_⟩
    · simp only [within, readAt_eq_ok.2 ha, readAt_eq_ok.2 hb, hsub, hmin, hmax, bind, Except.bind]
      rw [if_neg (Int.not_lt.2 h₂), hjs, hi]
      rfl
    · cases k with
      | zero =>
        obtain rfl := Option.some.inj hj
        exact ⟨ha, hb.trans (congrArg some (by dsimp only; omega))⟩
      | succ k =>
        have := hat (k := k) hj
        rwa [Nat.add_right_comm] at this

/-- Every interval reaches from the least value of its variable to the greatest one. -/
structure Smallest (is js : List Interval) : Prop where
  length : js.length = is.length
  least : ∀ {v : Nat} {j : Interval}, js[v]? = some j → LeastValue is v j.min
  greatest : ∀ {v : Nat} {j : Interval}, js[v]? = some j → LeastValue (is.map mirror) v (-j.max)

/-- What a run answers. -/
theorem propagate_cases (hp : Posed is) :
    is.length ≤ 1 ∧ propagate is = .ok ⟨.entailed, is⟩ ∨
      propagate is = .ok ⟨.inconsistent, is⟩ ∧ ¬ Balanced is ∨
      ∃ js, propagate is = .ok ⟨if allFixed js then .entailed else .consistent, js⟩ ∧
        Balanced is ∧ Smallest is js := by
  by_cases hlen : is.length ≤ 1
  · refine .inl ⟨hlen, ?_⟩
    unfold propagate
    exact if_pos hlen
  · have hne : is ≠ [] := by
      rintro rfl
      exact hlen (Nat.zero_le 1)
    right
    unfold propagate
    rw [if_neg hlen, bind_of_ok (mapM_max_eq hp.2)]
    rcases hallBounds_spec hp hne with ⟨hnone, hover⟩ | ⟨as, bs, hsome, hbal, has, hbs, hleast⟩
    · refine .inl ⟨?_, hover⟩
      rw [hnone]
      rfl
    · obtain ⟨js, hjs, hlen, hat⟩ := within_eq as bs 0 hp.2
        fun {k i} hi => by
          obtain ⟨a, b, ha, hb, hla, hlb⟩ := hleast hi
          have hin := hla.bounds hlb hi
          rw [Nat.zero_add]
          exact ⟨a, 1 - b, ha, hb, by omega, by omega, by omega⟩
      refine .inr ⟨js, ?_, hbal, hlen, fun {v j} hj => ?_, fun {v j} hj => ?_⟩
      · rw [hsome]
        exact bind_of_ok hjs
      all_goals
        obtain ⟨hmin, hmax⟩ := hat hj
        rw [Nat.zero_add] at hmin hmax
        have hlt := (List.getElem?_eq_some_iff.1 hj).1
        rw [hlen] at hlt
        obtain ⟨a, b, ha, hb, hla, hlb⟩ := hleast (List.getElem?_eq_getElem hlt)
        obtain rfl := Option.some.inj (ha.symm.trans hmin)
        have hb := Option.some.inj (hb.symm.trans hmax)
      · exact hla
      · rwa [show -j.max = b by omega]

/-- A run answers. -/
theorem exists_propagate_eq (hp : Posed is) : ∃ r, propagate is = .ok r := by
  rcases propagate_cases hp with ⟨-, h⟩ | ⟨h, -⟩ | ⟨js, h, -⟩
  · exact ⟨_, h⟩
  · exact ⟨_, h⟩
  · exact ⟨_, h⟩

namespace Smallest

variable {js : List Interval} {vs : List Int} (h : Smallest is js)
include h

theorem keeps (hm : Mem vs is) (hd : vs.Nodup) : Mem vs js := by
  refine mem_iff_getElem?.2 ⟨hm.length_eq.trans h.length.symm, fun {k v j} hv hj => ?_⟩
  exact ⟨(h.least hj).le hm hd hv, by
    have := (h.greatest hj).greatest.2 hm hd hv
    omega⟩

theorem tight (hb : Balanced is) (hf : Filled is) : Tight List.Nodup js where
  solvable := by
    obtain ⟨vs, hm, hd⟩ := (exists_nodup_iff hf).2 hb
    exact ⟨vs, h.keeps hm hd, hd⟩
  least hj := by
    obtain ⟨vs, hm, hd, hk⟩ := (h.least hj).taken
    exact ⟨vs, h.keeps hm hd, hd, hk⟩
  greatest hj := by
    obtain ⟨⟨vs, hm, hd, hk⟩, -⟩ := (h.greatest hj).greatest
    rw [Int.neg_neg] at hk
    exact ⟨vs, h.keeps hm hd, hd, hk⟩

theorem within : Within js is := by
  refine within_iff_getElem?.2 ⟨h.length, fun {k j i} hj hi => ?_⟩
  have hin := (h.least hj).bounds (h.greatest hj) hi
  omega

end Smallest

/-- A run never widens. -/
theorem propagate_within {r : Narrowing} (hp : Posed is) (hr : propagate is = .ok r)
    (hs : r.status ≠ .inconsistent) : Within r.bounds is := by
  rcases propagate_cases hp with ⟨-, h⟩ | ⟨h, -⟩ | ⟨js, h, -, hsm⟩ <;>
    obtain rfl := Except.ok.inj (h.symm.trans hr)
  · exact .refl _
  · exact absurd rfl hs
  · exact hsm.within

/-- At most one value is pairwise distinct. -/
theorem nodup_of_length_le_one {vs : List Int} (h : vs.length ≤ 1) : vs.Nodup := by
  rcases vs with _ | ⟨v, _ | ⟨w, vs⟩⟩
  · exact List.nodup_nil
  · exact List.nodup_singleton v
  · simp at h

/-- **The passes leave the smallest box around the pairwise distinct assignments.** -/
theorem exact (parameters : List Int) :
    Exact propagate (Constraint.allDifferent.Holds · parameters) Posed where
  closed hp hw hf := hp.of_within hw hf
  within hp hr hs := propagate_within hp hr hs
  keeps hp hr hm hd := by
    rcases propagate_cases hp with ⟨-, h⟩ | ⟨h, hover⟩ | ⟨js, h, -, hsm⟩ <;>
      obtain rfl := Except.ok.inj (h.symm.trans hr)
    · exact ⟨Status.noConfusion, hm⟩
    · exact absurd (balanced_of_nodup hm hd) hover
    · refine ⟨?_, hsm.keeps hm hd⟩
      dsimp only
      split <;> exact Status.noConfusion
  tight hp hr hs := by
    rcases propagate_cases hp with ⟨hlen, h⟩ | ⟨h, hover⟩ | ⟨js, h, hb, hsm⟩ <;>
      obtain rfl := Except.ok.inj (h.symm.trans hr)
    · exact .of_forall hp.1 fun vs hm => nodup_of_length_le_one (by rw [hm.length_eq]; exact hlen)
    · exact absurd rfl hs
    · exact hsm.tight hb hp.1
  entailed hp hr he hm := by
    rcases propagate_cases hp with ⟨hlen, h⟩ | ⟨h, hover⟩ | ⟨js, h, hb, hsm⟩ <;>
      obtain rfl := Except.ok.inj (h.symm.trans hr)
    · exact nodup_of_length_le_one (by rw [hm.length_eq]; exact hlen)
    · cases he
    · dsimp only at he
      split at he
      · rename_i hfix
        exact (hsm.tight hb hp.1).holds_of_fixed hfix hm
      · cases he
  again {is js r} hp hr hs hw ht := by
    exact exists_propagate_eq (hp.of_within (hw.trans (propagate_within hp hr hs)) ht.filled)

end AllDifferent
end BoundsSolver
