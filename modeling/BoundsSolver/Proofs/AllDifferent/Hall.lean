/-
# Crowds and Hall intervals

Intervals have pairwise distinct values if and only if no stretch of integers
holds more of them than it has integers (`exists_nodup_iff`): they are
`Balanced`.  For an interval among others that means that its least possible
value is the first one that lies in no stretch filled by the others, and the
others that matter are those that end before it does (`Cleared.least`).

A stretch that the others fill leads to another one further down as long as the
values below it are filled too, since filled stretches that meet join into one;
this is what rules out that such a stretch ends beyond the interval
(`not_fills_of_covered`).
-/

import BoundsSolver.Proofs.Within
import Mathlib.Combinatorics.Hall.Basic
import Mathlib.Order.Interval.Finset.Basic
import Mathlib.Data.Int.ConditionallyCompleteOrder
import Mathlib.Data.Int.Interval
import Mathlib.Data.Fintype.Card

namespace BoundsSolver
namespace AllDifferent

/-- How many intervals lie between `p` and `q`. -/
def crowd (p q : Int) (is : List Interval) : Nat :=
  is.countP fun i => i.isWithin ⟨p, q⟩

/-- No stretch of integers holds more intervals than integers. -/
def Balanced (is : List Interval) : Prop :=
  ∀ p q : Int, p ≤ q + 1 → (crowd p q is : Int) ≤ q - p + 1

variable {is js ks : List Interval} {d i : Interval} {p q r a t : Int} {vs : List Int}

theorem crowd_cons (d : Interval) (is : List Interval) (p q : Int) :
    crowd p q (d :: is) = crowd p q is + if p ≤ d.min ∧ d.max ≤ q then 1 else 0 := by
  simp only [crowd, List.countP_cons, Interval.isWithin_iff]

theorem crowd_append (is js : List Interval) (p q : Int) :
    crowd p q (is ++ js) = crowd p q is + crowd p q js := List.countP_append

theorem crowd_perm (h : is.Perm js) (p q : Int) : crowd p q is = crowd p q js := h.countP_eq _

theorem Balanced.perm (hb : Balanced is) (h : is.Perm js) : Balanced js := fun p q hpq => by
  rw [← crowd_perm h]
  exact hb p q hpq

theorem Balanced.of_cons (h : Balanced (d :: is)) : Balanced is := fun p q hpq => by
  have := h p q hpq
  rw [crowd_cons] at this
  omega

theorem Balanced.of_append (h : Balanced (is ++ js)) : Balanced js := fun p q hpq => by
  have := h p q hpq
  rw [crowd_append] at this
  omega

/-- Two stretches and their overlap: what lies in both lies in the overlap. -/
theorem crowd_join (is : List Interval) {p p' q q' : Int} (hp : p' ≤ p) (hq : q' ≤ q) :
    crowd p' q' is + crowd p q is ≤ crowd p' q is + crowd p q' is := by
  induction is with
  | nil => exact Nat.le_refl _
  | cons d is ih =>
    simp only [crowd_cons]
    split <;> split <;> split <;> split <;> omega

/-! ### Distinct values -/

/-- Distinct integers between two bounds are no more than the integers there. -/
theorem length_le_of_nodup (hd : vs.Nodup) (hpq : p ≤ q + 1) (h : ∀ v ∈ vs, p ≤ v ∧ v ≤ q) :
    (vs.length : Int) ≤ q - p + 1 := by
  have hsub : vs.toFinset ⊆ Finset.Icc p q := fun v hv => by
    rw [List.mem_toFinset] at hv
    exact Finset.mem_Icc.2 (h v hv)
  have hcard := Finset.card_le_card hsub
  rw [List.toFinset_card_of_nodup hd, Int.card_Icc] at hcard
  omega

/-- Intervals with distinct values are balanced. -/
theorem balanced_of_nodup (hm : Mem vs is) (hd : vs.Nodup) : Balanced is := by
  intro p q hpq
  suffices h : ∃ ws : List Int, ws.Sublist vs ∧ (∀ w ∈ ws, p ≤ w ∧ w ≤ q) ∧
      ws.length = crowd p q is by
    obtain ⟨ws, hsub, hin, hlen⟩ := h
    rw [← hlen]
    exact length_le_of_nodup (hd.sublist hsub) hpq hin
  clear hd
  induction hm with
  | nil => exact ⟨[], .refl _, fun w hw => absurd hw List.not_mem_nil, rfl⟩
  | @cons v i vs is hmin hmax _ ih =>
    obtain ⟨ws, hsub, hin, hlen⟩ := ih
    rw [crowd_cons]
    split
    · refine ⟨v :: ws, hsub.cons_cons v, fun w hw => ?_, by rw [List.length_cons, hlen]⟩
      rcases List.mem_cons.1 hw with rfl | hw
      · omega
      · exact hin w hw
    · exact ⟨ws, hsub.cons v, hin, by omega⟩

theorem card_filter_eq_countP (is : List Interval) (f : Interval → Bool) :
    (Finset.univ.filter fun k : Fin is.length => f is[k] = true).card = is.countP f := by
  rw [← List.toFinset_finRange, (List.nodup_finRange _).card_eq_countP]
  have hmap : (List.finRange is.length).map (fun k => is[k]) = is := List.map_getElem_finRange is
  conv_rhs => rw [← hmap, List.countP_map]
  exact List.countP_congr fun k _ => by simp

/-- A finite set of integers starts with a stretch that has a gap after it. -/
theorem exists_stretch {S : Finset Int} (hne : S.Nonempty) :
    ∃ p q, p ≤ q ∧ (∀ t ∈ S, p ≤ t) ∧ Finset.Icc p q ⊆ S ∧ q + 1 ∉ S := by
  have hp := S.min'_mem hne
  have hself : Finset.Icc (S.min' hne) (S.min' hne) ⊆ S := by
    rw [Finset.Icc_self, Finset.singleton_subset_iff]
    exact hp
  obtain ⟨q, hq, hmax⟩ := (S.filter fun q => Finset.Icc (S.min' hne) q ⊆ S).exists_max_image id
    ⟨_, Finset.mem_filter.2 ⟨hp, hself⟩⟩
  obtain ⟨hqS, hsub⟩ := Finset.mem_filter.1 hq
  refine ⟨S.min' hne, q, S.min'_le q hqS, fun t ht => S.min'_le t ht, hsub, fun hmem => ?_⟩
  have hin : Finset.Icc (S.min' hne) (q + 1) ⊆ S := fun t ht => by
    obtain ⟨h₁, h₂⟩ := Finset.mem_Icc.1 ht
    rcases Int.lt_or_eq_of_le h₂ with h₂ | rfl
    · exact hsub (Finset.mem_Icc.2 ⟨h₁, by omega⟩)
    · exact hmem
  have : q + 1 ≤ q := hmax (q + 1) (Finset.mem_filter.2 ⟨hmem, hin⟩)
  omega

/-- The values of intervals within a finite set are at least as many as the intervals. -/
theorem card_le_of_balanced (hf : Filled is) (hb : Balanced is) (S : Finset Int)
    (s : Finset (Fin is.length)) (hs : ∀ k ∈ s, Finset.Icc is[k].min is[k].max ⊆ S) :
    s.card ≤ S.card := by
  have hfill (k : Fin is.length) : is[k].min ≤ is[k].max := hf _ (List.getElem_mem k.2)
  induction S using Finset.strongInduction generalizing s with
  | H S ih =>
    rcases s.eq_empty_or_nonempty with rfl | ⟨k, hk⟩
    · exact Nat.zero_le _
    · obtain ⟨p, q, hpq, hmin, hsub, hgap⟩ :=
        exists_stretch ⟨_, hs k hk (Finset.left_mem_Icc.2 (hfill k))⟩
      -- every interval ends within the first stretch or starts beyond it
      have hfirst : (s.filter fun k => is[k].max ≤ q).card ≤ (Finset.Icc p q).card := by
        have hle : (s.filter fun k => is[k].max ≤ q).card ≤ crowd p q is := by
          rw [crowd, ← card_filter_eq_countP]
          refine Finset.card_le_card fun k hk => ?_
          obtain ⟨hk, hmax⟩ := Finset.mem_filter.1 hk
          have := hmin _ (hs k hk (Finset.left_mem_Icc.2 (hfill k)))
          exact Finset.mem_filter.2 ⟨Finset.mem_univ k, Interval.isWithin_iff.2 ⟨this, hmax⟩⟩
        have hcrowd := hb p q (by omega)
        rw [Int.card_Icc]
        omega
      have hrest : (s.filter fun k => ¬ is[k].max ≤ q).card ≤ (S \ Finset.Icc p q).card := by
        refine ih _ ?_ _ fun k hk t ht => ?_
        · refine Finset.sdiff_ssubset hsub ⟨p, Finset.left_mem_Icc.2 hpq⟩
        · obtain ⟨hk, hmax⟩ := Finset.mem_filter.1 hk
          have hstart : ¬ is[k].min ≤ q + 1 := fun hle =>
            hgap (hs k hk (Finset.mem_Icc.2 ⟨hle, by omega⟩))
          refine Finset.mem_sdiff.2 ⟨hs k hk ht, fun hin => ?_⟩
          have h₁ := (Finset.mem_Icc.1 ht).1
          have h₂ := (Finset.mem_Icc.1 hin).2
          omega
      have hsplit := Finset.card_filter_add_card_filter_not (s := s) fun k => is[k].max ≤ q
      have hunion := Finset.card_sdiff_add_card_eq_card hsub
      omega

/-- **Balanced intervals are those with pairwise distinct values.** -/
theorem exists_nodup_iff (hf : Filled is) : (∃ vs, Mem vs is ∧ vs.Nodup) ↔ Balanced is := by
  constructor
  · rintro ⟨vs, hm, hd⟩
    exact balanced_of_nodup hm hd
  · intro hb
    have hall : ∀ s : Finset (Fin is.length),
        s.card ≤ (s.biUnion fun k => Finset.Icc is[k].min is[k].max).card := fun s =>
      card_le_of_balanced hf hb _ s fun k hk => Finset.subset_biUnion_of_mem
        (fun k : Fin is.length => Finset.Icc is[k].min is[k].max) hk
    obtain ⟨f, hinj, hmem⟩ := (Finset.all_card_le_biUnion_card_iff_exists_injective _).1 hall
    refine ⟨List.ofFn f, mem_iff_getElem?.2 ⟨List.length_ofFn, fun {k v i} hv hi => ?_⟩,
      List.nodup_ofFn.2 hinj⟩
    obtain ⟨hk, rfl⟩ := List.getElem?_eq_some_iff.1 hi
    rw [List.getElem?_ofFn, dif_pos hk] at hv
    obtain rfl := Option.some.inj hv
    exact Finset.mem_Icc.1 (hmem ⟨k, hk⟩)

/-! ### Filled stretches -/

/-- As many intervals lie between `p` and `q` as there are integers. -/
def Fills (is : List Interval) (p q : Int) : Prop :=
  p ≤ q ∧ (crowd p q is : Int) = q - p + 1

/-- A value can be taken beside balanced intervals unless it lies in a stretch they fill. -/
theorem balanced_singleton_cons_iff :
    Balanced (.singleton t :: is) ↔ Balanced is ∧ ∀ p q, p ≤ t → t ≤ q → ¬ Fills is p q := by
  constructor
  · intro hb
    refine ⟨hb.of_cons, fun p q hp hq hfull => ?_⟩
    have hle := hb p q (by omega)
    rw [crowd_cons, if_pos ⟨hp, hq⟩] at hle
    have := hfull.2
    omega
  · rintro ⟨hb, hfree⟩ p q hpq
    have hle := hb p q hpq
    rw [crowd_cons]
    split
    · rename_i ht
      have ht : p ≤ t ∧ t ≤ q := ht
      have hne : ¬ (crowd p q is : Int) = q - p + 1 := fun h =>
        hfree p q ht.1 ht.2 ⟨by omega, h⟩
      omega
    · omega

/-- More intervals do not undo a filled stretch, as long as they stay balanced. -/
theorem Fills.append (h : Fills is p q) (hb : Balanced (is ++ js)) : Fills (is ++ js) p q := by
  obtain ⟨hpq, heq⟩ := h
  have hle := hb p q (by omega)
  refine ⟨hpq, ?_⟩
  rw [crowd_append] at hle ⊢
  omega

theorem Fills.cons (h : Fills is p q) (hb : Balanced (d :: is)) : Fills (d :: is) p q := by
  obtain ⟨hpq, heq⟩ := h
  have hle := hb p q (by omega)
  refine ⟨hpq, ?_⟩
  rw [crowd_cons] at hle ⊢
  omega

/-- Filled stretches that meet join into one. -/
theorem Fills.join {p' q' : Int} (h : Fills is p q) (h' : Fills is p' q') (hb : Balanced is)
    (hp : p' ≤ p) (hmeet : p ≤ q' + 1) (hq : q' ≤ q) : Fills is p' q := by
  obtain ⟨hpq, heq⟩ := h
  obtain ⟨hpq', heq'⟩ := h'
  have hjoin := crowd_join is hp hq
  have hover := hb p q' hmeet
  have hle := hb p' q (by omega)
  exact ⟨by omega, by omega⟩

/-- The others do not fill a stretch that ends beyond an interval, if they fill stretches
around all of its values below: these join to one around the interval itself. -/
theorem not_fills_of_covered (hb : Balanced (d :: is)) (hfull : Fills is p q) (hmax : d.max ≤ q)
    (hcov : ∀ t, d.min ≤ t → t < p → ∃ p' q', (p' ≤ t ∧ t ≤ q') ∧ Fills is p' q') : False := by
  induction hn : (p - d.min).toNat using Nat.strong_induction_on generalizing p q with
  | _ n ih =>
    by_cases hp : p ≤ d.min
    · have hle := hb p q (by have := hfull.1; omega)
      rw [crowd_cons, if_pos ⟨hp, hmax⟩] at hle
      have := hfull.2
      omega
    · obtain ⟨p', q', ht, hfull'⟩ := hcov (p - 1) (by omega) (by omega)
      have hcov' : ∀ t, d.min ≤ t → t < p' → ∃ p' q', (p' ≤ t ∧ t ≤ q') ∧ Fills is p' q' :=
        fun t h₁ h₂ => hcov t h₁ (by omega)
      by_cases hq : q' ≤ q
      · exact ih _ (by omega) (hfull.join hfull' hb.of_cons (by omega) (by omega) hq) hmax hcov' rfl
      · exact ih _ (by omega) hfull' (by omega) hcov' rfl

/-- The least value of a variable among pairwise distinct ones. -/
structure LeastValue (is : List Interval) (k : Nat) (a : Int) : Prop where
  taken : ∃ vs, Mem vs is ∧ vs.Nodup ∧ vs[k]? = some a
  le : ∀ {vs : List Int} {v : Int}, Mem vs is → vs.Nodup → vs[k]? = some v → a ≤ v

/-- The lower bound `a` of an interval is past the stretches that the intervals before it
fill, and lies in none of them. -/
structure Cleared (d : Interval) (before : List Interval) (a : Int) : Prop where
  le : d.min ≤ a
  covered : ∀ t, d.min ≤ t → t < a → ∃ p q, (p ≤ t ∧ t ≤ q) ∧ Fills before p q
  free : ∀ p q, p ≤ a → a ≤ q → ¬ Fills before p q

namespace Cleared

variable {before after : List Interval}

theorem covered_append (h : Cleared d before a) (hb : Balanced (before ++ after)) :
    ∀ t, d.min ≤ t → t < a → ∃ p q, (p ≤ t ∧ t ≤ q) ∧ Fills (before ++ after) p q := by
  intro t h₁ h₂
  obtain ⟨p, q, ht, hfull⟩ := h.covered t h₁ h₂
  exact ⟨p, q, ht, hfull.append hb⟩

/-- The intervals after it, which end no earlier, fill no stretch around the bound either. -/
theorem free_append (h : Cleared d before a) (hb : Balanced (d :: (before ++ after)))
    (hafter : ∀ i ∈ after, d.max ≤ i.max) (hp : p ≤ a) (hq : a ≤ q) :
    ¬ Fills (before ++ after) p q := by
  intro hfull
  by_cases hmax : d.max ≤ q
  · exact not_fills_of_covered hb hfull hmax fun t h₁ h₂ =>
      h.covered_append hb.of_cons t h₁ (by omega)
  · have hnone : crowd p q after = 0 := List.countP_eq_zero.2 fun i hi hw => by
      have := hafter i hi
      have := (Interval.isWithin_iff.1 hw).2
      dsimp only at this
      omega
    refine h.free p q hp hq ⟨hfull.1, ?_⟩
    have := hfull.2
    rw [crowd_append, hnone] at this
    exact this

theorem le_max (h : Cleared d before a) (hd : d.min ≤ d.max)
    (hb : Balanced (d :: (before ++ after))) : a ≤ d.max := by
  by_contra hlt
  obtain ⟨p, q, hp, hfull⟩ := h.covered_append hb.of_cons d.max hd (by omega)
  exact not_fills_of_covered hb hfull hp.2 fun t h₁ h₂ =>
    h.covered_append hb.of_cons t h₁ (by omega)

/-- **The bound is the least value of the interval.** -/
theorem least (after : List Interval) {k : Nat} (h : Cleared d before a) (hf : Filled is)
    (hk : is[k]? = some d)
    (hperm : (is.eraseIdx k).Perm (before ++ after)) (hafter : ∀ i ∈ after, d.max ≤ i.max)
    (hb : Balanced is) : LeastValue is k a := by
  obtain ⟨hlt, rfl⟩ := List.getElem?_eq_some_iff.1 hk
  have hd := hf _ (List.getElem_mem hlt)
  have hset (t : Int) : (is.set k (.singleton t)).Perm (.singleton t :: (before ++ after)) :=
    (List.set_perm_cons_eraseIdx hlt _).trans (hperm.cons _)
  have hb' : Balanced (is[k] :: (before ++ after)) :=
    hb.perm ((List.getElem_cons_eraseIdx_perm hlt).symm.trans (hperm.cons _))
  have hmax := h.le_max hd hb'
  constructor
  · have hone := (balanced_singleton_cons_iff (t := a)).2
      ⟨hb'.of_cons, fun p q hp hq => h.free_append hb' hafter hp hq⟩
    have hf' : Filled (is.set k (.singleton a)) := hf.set (Int.le_refl a) k
    obtain ⟨vs, hm, hd⟩ := (exists_nodup_iff hf').2 (hone.perm (hset a).symm)
    obtain ⟨hm, hv⟩ := hm.of_set_singleton hk ⟨h.le, hmax⟩
    exact ⟨vs, hm, hd, hv⟩
  · intro vs v hm hd hv
    by_contra hva
    have hvb := hm.bounds hv hk
    obtain ⟨p, q, ht, hfull⟩ := h.covered_append hb'.of_cons v hvb.1 (by omega)
    have hone := balanced_of_nodup (hm.narrow hv (j := .singleton v) ⟨Int.le_refl v, Int.le_refl v⟩)
      hd
    exact (balanced_singleton_cons_iff.1 (hone.perm (hset v))).2 p q ht.1 ht.2 hfull

end Cleared

/-! ### Reflection -/

/-- The interval of the opposite values. -/
def mirror (i : Interval) : Interval := ⟨-i.max, -i.min⟩

theorem mem_map_mirror (h : Mem vs is) : Mem (vs.map Neg.neg) (is.map mirror) := by
  induction h with
  | nil => exact .nil
  | cons hmin hmax _ ih => exact .cons (Int.neg_le_neg hmax) (Int.neg_le_neg hmin) ih

theorem mirror_mirror (is : List Interval) : (is.map mirror).map mirror = is := by
  rw [List.map_map]
  refine (List.map_congr_left fun i _ => ?_).trans (List.map_id is)
  exact Interval.ext (Int.neg_neg _) (Int.neg_neg _)

theorem nodup_map_neg (h : vs.Nodup) : (vs.map Neg.neg).Nodup :=
  h.map fun _ _ he => Int.neg_inj.1 he

theorem filled_map_mirror (h : Filled is) : Filled (is.map mirror) := fun i hi => by
  obtain ⟨j, hj, rfl⟩ := List.mem_map.1 hi
  exact Int.neg_le_neg (h j hj)

theorem balanced_map_mirror (hf : Filled is) (hb : Balanced is) : Balanced (is.map mirror) := by
  obtain ⟨vs, hm, hd⟩ := (exists_nodup_iff hf).2 hb
  exact balanced_of_nodup (mem_map_mirror hm) (nodup_map_neg hd)

/-- The least opposite value is the opposite of the greatest value. -/
theorem LeastValue.greatest {k : Nat} (h : LeastValue (is.map mirror) k a) :
    (∃ vs, Mem vs is ∧ vs.Nodup ∧ vs[k]? = some (-a)) ∧
      ∀ {vs : List Int} {v : Int}, Mem vs is → vs.Nodup → vs[k]? = some v → v ≤ -a := by
  constructor
  · obtain ⟨vs, hm, hd, hk⟩ := h.taken
    have hm' := mem_map_mirror hm
    rw [mirror_mirror] at hm'
    exact ⟨_, hm', nodup_map_neg hd, by rw [List.getElem?_map, hk]; rfl⟩
  · intro vs v hm hd hk
    have hle := h.le (mem_map_mirror hm) (nodup_map_neg hd) (v := -v)
      (by rw [List.getElem?_map, hk]; rfl)
    omega

/-- The least and the greatest value of a variable lie within its interval, in order. -/
theorem LeastValue.bounds {i : Interval} {b : Int} {k : Nat} (h : LeastValue is k a)
    (h' : LeastValue (is.map mirror) k b) (hi : is[k]? = some i) :
    i.min ≤ a ∧ a ≤ -b ∧ -b ≤ i.max := by
  obtain ⟨vs, hm, hd, hk⟩ := h.taken
  obtain ⟨⟨ws, hm', -, hk'⟩, hle⟩ := h'.greatest
  exact ⟨(hm.bounds hk hi).1, hle hm hd hk, (hm'.bounds hk' hi).2⟩

end AllDifferent
end BoundsSolver
