/-
# The critical bounds

Merging the sorted lower and upper bounds leaves each of them once, in ascending
order, and gives every variable the places of its own two (`Ranking.merge_spec`).
The merge never runs out of upper bounds early, since every lower bound lies
below some upper bound that is still to come, and never out of places, since each
bound needs one at most.
-/

import BoundsSolver.Constraint.AllDifferent
import Mathlib.Data.List.Perm.Basic

namespace BoundsSolver
namespace AllDifferent

namespace Ranking

/-- The critical bound of a rank. -/
def At (r : Ranking) (k : Nat) (a : Int) : Prop := k ≤ r.last ∧ r.critical[k]? = some a

/-- Every critical bound is less than those of higher ranks. -/
def Ascending (r : Ranking) : Prop :=
  ∀ {i j : Nat} {a b : Int}, r.At i a → r.At j b → i < j → a < b

variable {r s : Ranking} {a b : Int} {k v w : Nat} {lows highs : List (Int × Nat)}

theorem Ascending.le (h : r.Ascending) {i j : Nat} (hi : r.At i a) (hj : r.At j b)
    (hab : a ≤ b) : i ≤ j := by
  by_contra hlt
  have := h hj hi (by omega)
  omega

/-- A bound that is less than no critical bound is entered, and is the last one then. -/
structure Enters (r : Ranking) (b : Int) (s : Ranking) : Prop where
  ascending : r.Ascending → (∀ a, r.At r.last a → a ≤ b) → s.Ascending
  final : s.At s.last b
  keeps : ∀ {k : Nat} {a : Int}, r.At k a → s.At k a
  only : ∀ {k : Nat} {a : Int}, s.At k a → r.At k a ∨ a = b
  minRank : s.minRank = r.minRank
  maxRank : s.maxRank = r.maxRank
  size : s.critical.size = r.critical.size
  last : s.last ≤ r.last + 1

/-- **There is a place for one more critical bound**, so it is entered. -/
theorem reach_enters (h : r.last + 1 < r.critical.size) (b : Int) :
    ∃ s, r.reach b = .ok s ∧ Enters r b s := by
  unfold reach
  by_cases heq : r.critical[r.last]? = some b
  · rw [if_pos heq]
    exact ⟨r, rfl, fun hr _ => hr, ⟨Nat.le_refl _, heq⟩, id, .inl, rfl, rfl, rfl, Nat.le_succ _⟩
  · have hself : (r.critical.setIfInBounds (r.last + 1) b)[r.last + 1]? = some b :=
      Array.getElem?_setIfInBounds_self_of_lt h
    have hother {k : Nat} (hk : k ≤ r.last) :
        (r.critical.setIfInBounds (r.last + 1) b)[k]? = r.critical[k]? :=
      Array.getElem?_setIfInBounds_ne (by omega)
    have hold {k : Nat} {a : Int} (hk : k ≤ r.last)
        (ha : (r.critical.setIfInBounds (r.last + 1) b)[k]? = some a) : r.At k a :=
      ⟨hk, (hother hk).symm.trans ha⟩
    rw [if_neg heq, writeAt_eq_ok.2 ⟨h, rfl⟩]
    refine ⟨_, rfl, fun hr hb i j a d hi hj hij => ?_, ⟨Nat.le_refl _, hself⟩, fun hk =>
      ⟨Nat.le_succ_of_le hk.1, (hother hk.1).trans hk.2⟩, fun hk => ?_, rfl, rfl,
      Array.size_setIfInBounds, Nat.le_refl _⟩
    · obtain ⟨hjle, hj⟩ := hj
      have hi := hold (k := i) (by dsimp only at hjle; omega) hi.2
      rcases Nat.lt_or_eq_of_le hjle with hlt | rfl
      · exact hr hi (hold (Nat.le_of_lt_succ hlt) hj) hij
      · -- the new bound is greater than the one before it, hence than all others
        obtain rfl := Option.some.inj (hself.symm.trans hj)
        obtain ⟨c, hc⟩ : ∃ c, r.critical[r.last]? = some c :=
          ⟨_, Array.getElem?_eq_getElem (by omega)⟩
        have hcb := hb c ⟨Nat.le_refl _, hc⟩
        have hne : c ≠ b := by
          rintro rfl
          exact heq hc
        rcases Nat.lt_or_eq_of_le hi.1 with hlt | rfl
        · have := hr hi ⟨Nat.le_refl _, hc⟩ hlt
          omega
        · obtain rfl := Option.some.inj (hc.symm.trans hi.2)
          omega
    · obtain ⟨hle, hk⟩ := hk
      rcases Nat.lt_or_eq_of_le hle with hlt | rfl
      · exact .inl (hold (Nat.le_of_lt_succ hlt) hk)
      · exact .inr (Option.some.inj (hself.symm.trans hk)).symm

/-- What merging starts from. -/
structure Mergeable (lows highs : List (Int × Nat)) (r : Ranking) : Prop where
  ascending : r.Ascending
  back : ∀ b, r.At r.last b → (∀ l ∈ lows, b ≤ l.1) ∧ ∀ h ∈ highs, b ≤ h.1
  /-- There is a place for every bound. -/
  space : r.last + lows.length + highs.length < r.critical.size
  sortedLows : lows.Pairwise fun l m => l.1 ≤ m.1
  sortedHighs : highs.Pairwise fun l m => l.1 ≤ m.1
  nodupLows : (lows.map Prod.snd).Nodup
  nodupHighs : (highs.map Prod.snd).Nodup
  covered : ∀ l ∈ lows, ∃ h ∈ highs, l.1 < h.1
  sizeMin : ∀ l ∈ lows, l.2 < r.minRank.size
  sizeMax : ∀ h ∈ highs, h.2 < r.maxRank.size

/-- What merging ends with. -/
structure Merged (lows highs : List (Int × Nat)) (r s : Ranking) : Prop where
  ascending : s.Ascending
  keeps : ∀ {k : Nat} {a : Int}, r.At k a → s.At k a
  only : ∀ {k : Nat} {a : Int}, s.At k a →
    r.At k a ∨ (∃ l ∈ lows, l.1 = a) ∨ ∃ h ∈ highs, h.1 = a
  minRank : ∀ l ∈ lows, ∃ k, s.minRank[l.2]? = some k ∧ s.At k l.1
  maxRank : ∀ h ∈ highs, ∃ k, s.maxRank[h.2]? = some k ∧ s.At k h.1
  asideMin : ∀ v, v ∉ lows.map Prod.snd → s.minRank[v]? = r.minRank[v]?
  asideMax : ∀ v, v ∉ highs.map Prod.snd → s.maxRank[v]? = r.maxRank[v]?
  size : s.critical.size = r.critical.size
  last : s.last ≤ r.last + lows.length + highs.length

/-- A rank that is written before the ranks of other variables stays. -/
theorem ranks_cons {bounds : List (Int × Nat)} {ranks after : Array Nat}
    (hv : v ∉ bounds.map Prod.snd) (hsize : v < ranks.size) (hk : s.At k a)
    (hranked : ∀ l ∈ bounds, ∃ k, after[l.2]? = some k ∧ s.At k l.1)
    (haside : ∀ w, w ∉ bounds.map Prod.snd → after[w]? = (ranks.setIfInBounds v k)[w]?) :
    (∀ l ∈ (a, v) :: bounds, ∃ k, after[l.2]? = some k ∧ s.At k l.1) ∧
      ∀ w, w ∉ ((a, v) :: bounds).map Prod.snd → after[w]? = ranks[w]? := by
  refine ⟨fun l hl => ?_, fun w hw => ?_⟩
  · rcases List.mem_cons.1 hl with rfl | hl
    · refine ⟨k, ?_, hk⟩
      rw [haside v hv]
      exact Array.getElem?_setIfInBounds_self_of_lt hsize
    · exact hranked l hl
  · obtain ⟨hwv, hw⟩ := not_or.1 (mt List.mem_cons.2 hw)
    rw [haside w hw]
    exact Array.getElem?_setIfInBounds_ne fun heq => hwv heq.symm

/-- Taking in a lower bound: what merges afterwards, and what has been merged then. -/
theorem addMin_spec (h : Mergeable ((a, v) :: lows) highs r) (ha : ∀ m ∈ highs, a ≤ m.1) :
    ∃ t, r.addMin a v = .ok t ∧ Mergeable lows highs t ∧
      ∀ {s}, Merged lows highs t s → Merged ((a, v) :: lows) highs r s := by
  have hspace := h.space
  rw [List.length_cons] at hspace
  obtain ⟨t, ht, he⟩ := reach_enters (r := r) (by omega) a
  have hsize : v < t.minRank.size := by
    rw [he.minRank]
    exact h.sizeMin _ List.mem_cons_self
  have hlast := he.last
  refine ⟨{ t with minRank := t.minRank.setIfInBounds v t.last }, ?_, ⟨?_, fun b hb => ?_, ?_,
    (List.pairwise_cons.1 h.sortedLows).2, h.sortedHighs, (List.nodup_cons.1 h.nodupLows).2,
    h.nodupHighs, fun l hl => h.covered l (List.mem_cons_of_mem _ hl), fun l hl => ?_,
    fun m hm => ?_⟩, fun {s} hs => ?_⟩
  · unfold addMin
    rw [bind_of_ok ht, writeAt_eq_ok.2 ⟨hsize, rfl⟩]
    rfl
  · exact he.ascending h.ascending fun b hb => (h.back b hb).1 _ List.mem_cons_self
  · obtain rfl := Option.some.inj (he.final.2.symm.trans hb.2)
    exact ⟨fun l hl => (List.pairwise_cons.1 h.sortedLows).1 l hl, ha⟩
  · rw [he.size]
    dsimp only
    omega
  · rw [Array.size_setIfInBounds, he.minRank]
    exact h.sizeMin l (List.mem_cons_of_mem _ hl)
  · dsimp only
    rw [he.maxRank]
    exact h.sizeMax m hm
  · obtain ⟨hranked, haside⟩ := ranks_cons (List.nodup_cons.1 h.nodupLows).1 hsize
      (hs.keeps he.final) hs.minRank hs.asideMin
    refine ⟨hs.ascending, fun hk => hs.keeps (he.keeps hk), fun hk => ?_, hranked, hs.maxRank,
      he.minRank ▸ haside, fun w hw => ?_, hs.size.trans he.size, ?_⟩
    · rcases hs.only hk with hk | ⟨l, hl, rfl⟩ | hk
      · exact (he.only hk).imp id fun heq => .inl ⟨_, List.mem_cons_self, heq.symm⟩
      · exact .inr (.inl ⟨l, List.mem_cons_of_mem _ hl, rfl⟩)
      · exact .inr (.inr hk)
    · rw [hs.asideMax w hw, ← he.maxRank]
    · have := hs.last
      rw [List.length_cons]
      dsimp only at this
      omega

/-- Taking in an upper bound: what merges afterwards, and what has been merged then. -/
theorem addMax_spec (h : Mergeable lows ((b, w) :: highs) r) (hb : ∀ l ∈ lows, b < l.1) :
    ∃ t, r.addMax b w = .ok t ∧ Mergeable lows highs t ∧
      ∀ {s}, Merged lows highs t s → Merged lows ((b, w) :: highs) r s := by
  have hspace := h.space
  rw [List.length_cons] at hspace
  obtain ⟨t, ht, he⟩ := reach_enters (r := r) (by omega) b
  have hsize : w < t.maxRank.size := by
    rw [he.maxRank]
    exact h.sizeMax _ List.mem_cons_self
  have hlast := he.last
  refine ⟨{ t with maxRank := t.maxRank.setIfInBounds w t.last }, ?_, ⟨?_, fun a ha => ?_, ?_,
    h.sortedLows, (List.pairwise_cons.1 h.sortedHighs).2, h.nodupLows,
    (List.nodup_cons.1 h.nodupHighs).2, fun l hl => ?_, fun l hl => ?_, fun m hm => ?_⟩,
    fun {s} hs => ?_⟩
  · unfold addMax
    rw [bind_of_ok ht, writeAt_eq_ok.2 ⟨hsize, rfl⟩]
    rfl
  · exact he.ascending h.ascending fun a ha => (h.back a ha).2 _ List.mem_cons_self
  · obtain rfl := Option.some.inj (he.final.2.symm.trans ha.2)
    exact ⟨fun l hl => Int.le_of_lt (hb l hl),
      fun m hm => (List.pairwise_cons.1 h.sortedHighs).1 m hm⟩
  · rw [he.size]
    dsimp only
    omega
  · obtain ⟨m, hm, hlt⟩ := h.covered l hl
    rcases List.mem_cons.1 hm with rfl | hm
    · have := hb l hl
      dsimp only at hlt
      omega
    · exact ⟨m, hm, hlt⟩
  · dsimp only
    rw [he.minRank]
    exact h.sizeMin l hl
  · rw [Array.size_setIfInBounds, he.maxRank]
    exact h.sizeMax m (List.mem_cons_of_mem _ hm)
  · obtain ⟨hranked, haside⟩ := ranks_cons (List.nodup_cons.1 h.nodupHighs).1 hsize
      (hs.keeps he.final) hs.maxRank hs.asideMax
    refine ⟨hs.ascending, fun hk => hs.keeps (he.keeps hk), fun hk => ?_, hs.minRank, hranked,
      fun v hv => ?_, he.maxRank ▸ haside, hs.size.trans he.size, ?_⟩
    · rcases hs.only hk with hk | hk | ⟨m, hm, rfl⟩
      · exact (he.only hk).imp id fun heq => .inr ⟨_, List.mem_cons_self, heq.symm⟩
      · exact .inr (.inl hk)
      · exact .inr (.inr ⟨m, List.mem_cons_of_mem _ hm, rfl⟩)
    · rw [hs.asideMin v hv, ← he.minRank]
    · have := hs.last
      rw [List.length_cons]
      dsimp only at this
      omega

/-- **Merging ranks every bound**, and finds a place for each. -/
theorem merge_spec (h : Mergeable lows highs r) :
    ∃ s, merge lows highs r = .ok s ∧ Merged lows highs r s := by
  fun_induction merge lows highs r with
  | case1 r a v lows b w highs hab ih =>
    obtain ⟨t, ht, hm, hback⟩ := addMin_spec h fun m hm => by
      rcases List.mem_cons.1 hm with rfl | hm
      · exact hab
      · exact Int.le_trans hab ((List.pairwise_cons.1 h.sortedHighs).1 m hm)
    obtain ⟨s, hs, hmerged⟩ := ih t hm
    exact ⟨s, (bind_of_ok ht).trans hs, hback hmerged⟩
  | case2 r a v lows b w highs hab ih =>
    obtain ⟨t, ht, hm, hback⟩ := addMax_spec h fun l hl => by
      rcases List.mem_cons.1 hl with rfl | hl
      · exact Int.not_le.1 hab
      · have := (List.pairwise_cons.1 h.sortedLows).1 l hl
        dsimp only at this
        omega
    obtain ⟨s, hs, hmerged⟩ := ih t hm
    exact ⟨s, (bind_of_ok ht).trans hs, hback hmerged⟩
  | case3 r b w highs ih =>
    obtain ⟨t, ht, hm, hback⟩ := addMax_spec h fun l hl => absurd hl List.not_mem_nil
    obtain ⟨s, hs, hmerged⟩ := ih t hm
    exact ⟨s, (bind_of_ok ht).trans hs, hback hmerged⟩
  | case4 lows r =>
    cases lows with
    | nil =>
      exact ⟨r, rfl, h.ascending, id, .inl, fun l hl => absurd hl List.not_mem_nil,
        fun l hl => absurd hl List.not_mem_nil, fun _ _ => rfl, fun _ _ => rfl, rfl,
        Nat.le_refl _⟩
    | cons l lows =>
      obtain ⟨m, hm, -⟩ := h.covered l List.mem_cons_self
      exact absurd hm List.not_mem_nil

end Ranking

/-! ### Sorting -/

section Sorting

variable {bounds : List Int}

theorem sortBounds_perm (bounds : List Int) : (sortBounds bounds).Perm bounds.zipIdx :=
  List.mergeSort_perm _ _

theorem mem_sortBounds {t : Int × Nat} : t ∈ sortBounds bounds ↔ bounds[t.2]? = some t.1 := by
  rw [(sortBounds_perm bounds).mem_iff]
  exact List.mem_zipIdx_iff_getElem?

theorem sortBounds_pairwise (bounds : List Int) :
    (sortBounds bounds).Pairwise fun s t => s.1 ≤ t.1 := by
  have h := @List.pairwise_mergeSort _ (fun a b : Int × Nat => decide (a.1 ≤ b.1))
    (fun a b c hab hbc => by simp only [decide_eq_true_eq] at *; omega)
    (fun a b => by simp only [Bool.or_eq_true, decide_eq_true_eq]; omega) bounds.zipIdx
  exact h.imp of_decide_eq_true

theorem sortBounds_snd_perm (bounds : List Int) :
    ((sortBounds bounds).map Prod.snd).Perm (List.range bounds.length) := by
  have h := (sortBounds_perm bounds).map Prod.snd
  rwa [List.zipIdx_map_snd, ← List.range_eq_range'] at h

theorem sortBounds_snd_nodup (bounds : List Int) : ((sortBounds bounds).map Prod.snd).Nodup :=
  (sortBounds_snd_perm bounds).nodup_iff.2 List.nodup_range

end Sorting

end AllDifferent
end BoundsSolver
