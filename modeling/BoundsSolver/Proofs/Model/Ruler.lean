/-
# Golomb rulers

What holds of every Golomb ruler, whatever model it is a solution of.  The segments between
neighbouring marks are different and at least one long, so that `m` of them together are at
least `1 + ⋯ + m` long.  Counting the segments between two marks bounds their distance from
below (`leastLength_le_distance`), and counting the other segments bounds it from above
(`distance_add_leastLength_le`).

Reflecting a ruler makes a ruler of the same length, with first and last segment swapped.
-/

import Mathlib.Algebra.BigOperators.Intervals
import Mathlib.Algebra.Order.Group.Int.Sum
import Mathlib.Tactic.Ring
import BoundsSolver.Model.GolombRuler

namespace BoundsSolver

/-- Marks at increasing positions from zero on, of which no two pairs have the same distance. -/
structure IsGolomb {n : Nat} (a : Fin n → Int) : Prop where
  start : ∀ i, i.val = 0 → a i = 0
  increasing : ∀ ⦃i j⦄, i < j → a i < a j
  distinct : ∀ {i j k l}, i < j → k < l → a j - a i = a l - a k → i = k ∧ j = l

variable {n i j m : Nat} {a : Fin n → Int}

open GolombRuler (leastLength)

/-! ### Sums of different segments -/

theorem leastLength_succ (m : Nat) : leastLength (m + 1) = leastLength m + (m + 1) := by
  unfold leastLength
  have hsplit : (m + 1) * (m + 1 + 1) = m * (m + 1) + 2 * (m + 1) := by ring
  rw [hsplit, Nat.add_mul_div_left _ _ Nat.two_pos]

theorem sum_range_eq_leastLength (m : Nat) :
    ∑ k ∈ Finset.range m, ((1 : Int) + k) = leastLength m := by
  induction m with
  | zero => rfl
  | succ m ih =>
    rw [Finset.sum_range_succ, ih, leastLength_succ]
    push_cast
    ring

/-- **Different positive numbers** add up to at least the sum of the first of them. -/
theorem leastLength_le_sum {s : Finset Nat} {f : Nat → Int} (hinj : Set.InjOn f s)
    (hpos : ∀ k ∈ s, 1 ≤ f k) : (leastLength s.card : Int) ≤ ∑ k ∈ s, f k := by
  have hle : ∀ x ∈ s.image f, (1 : Int) ≤ x := by
    simpa using hpos
  calc (leastLength s.card : Int)
      = ∑ k ∈ Finset.range s.card, ((1 : Int) + k) := (sum_range_eq_leastLength _).symm
    _ = ∑ k ∈ Finset.range (s.image f).card, ((1 : Int) + k) := by
      rw [Finset.card_image_of_injOn hinj]
    _ ≤ ∑ x ∈ s.image f, x := Finset.sum_range_le_sum hle
    _ = ∑ k ∈ s, f k := Finset.sum_image hinj

/-! ### Segments -/

/-- The position of a mark. -/
def mark (a : Fin n → Int) (k : Nat) : Int := if h : k < n then a ⟨k, h⟩ else 0

/-- The length of the segment behind a mark. -/
def segment (a : Fin n → Int) (k : Nat) : Int := mark a (k + 1) - mark a k

theorem mark_of_lt (h : i < n) : mark a i = a ⟨i, h⟩ := dif_pos h

/-- The segments between two marks make up their distance. -/
theorem sum_segment (h : i ≤ j) : ∑ k ∈ Finset.Ico i j, segment a k = mark a j - mark a i := by
  rw [Finset.sum_Ico_eq_sum_range]
  refine (Finset.sum_range_sub (fun k => mark a (i + k)) (j - i)).trans ?_
  rw [Nat.add_sub_cancel' h]
  rfl

namespace IsGolomb

variable (h : IsGolomb a)

include h

theorem mark_lt (hij : i < j) (hj : j < n) : mark a i < mark a j := by
  rw [mark_of_lt hj, mark_of_lt (hij.trans hj)]
  exact h.increasing hij

theorem mark_distinct {k l : Nat} (hij : i < j) (hj : j < n) (hkl : k < l) (hl : l < n)
    (heq : mark a j - mark a i = mark a l - mark a k) : i = k ∧ j = l := by
  rw [mark_of_lt hj, mark_of_lt (hij.trans hj), mark_of_lt hl, mark_of_lt (hkl.trans hl)] at heq
  obtain ⟨hik, hjl⟩ := h.distinct (i := ⟨i, hij.trans hj⟩) (j := ⟨j, hj⟩)
    (k := ⟨k, hkl.trans hl⟩) (l := ⟨l, hl⟩) hij hkl heq
  exact ⟨Fin.mk.inj hik, Fin.mk.inj hjl⟩

theorem mark_zero (hn : 0 < n) : mark a 0 = 0 := by
  rw [mark_of_lt hn]
  exact h.start _ rfl

/-- A set of segments is at least as long as the shortest segments there can be. -/
theorem leastLength_le_segments {s : Finset Nat} (hs : ∀ k ∈ s, k + 1 < n) :
    (leastLength s.card : Int) ≤ ∑ k ∈ s, segment a k := by
  refine leastLength_le_sum (fun k hk l hl heq => ?_) fun k hk => ?_
  · exact (h.mark_distinct (Nat.lt_add_one k) (hs k hk) (Nat.lt_add_one l) (hs l hl) heq).1
  · have := h.mark_lt (Nat.lt_add_one k) (hs k hk)
    unfold segment
    omega

/-- **The segments between two marks** bound their distance from below. -/
theorem leastLength_le_distance (hij : i ≤ j) (hj : j < n) :
    (leastLength (j - i) : Int) ≤ mark a j - mark a i := by
  have hle := h.leastLength_le_segments (s := Finset.Ico i j) fun k hk => by
    rw [Finset.mem_Ico] at hk
    omega
  rwa [Nat.card_Ico, sum_segment hij] at hle

/-- **The segments outside two marks** leave their distance that much less than the length. -/
theorem distance_add_leastLength_le (hij : i ≤ j) (hj : j < n) :
    mark a j - mark a i + leastLength (n - 1 - (j - i)) ≤ mark a (n - 1) := by
  have hsub : Finset.Ico i j ⊆ Finset.Ico 0 (n - 1) := by
    intro k hk
    rw [Finset.mem_Ico] at hk ⊢
    omega
  have hle := h.leastLength_le_segments (s := Finset.Ico 0 (n - 1) \ Finset.Ico i j) fun k hk => by
    rw [Finset.mem_sdiff, Finset.mem_Ico] at hk
    omega
  have hsplit := Finset.sum_sdiff (f := segment a) hsub
  have hcard : (Finset.Ico 0 (n - 1) \ Finset.Ico i j).card = n - 1 - (j - i) := by
    rw [Finset.card_sdiff_of_subset hsub, Nat.card_Ico, Nat.card_Ico, Nat.sub_zero]
  rw [sum_segment hij, sum_segment (Nat.zero_le _), h.mark_zero (Nat.zero_lt_of_lt hj)] at hsplit
  rw [hcard] at hle
  omega

end IsGolomb

/-! ### Reflection -/

/-- The last mark of a ruler. -/
def lastMark (hn : 2 ≤ n) : Fin n := ⟨n - 1, by omega⟩

/-- The first segment is shorter than the last, unless there is only one. -/
def Oriented (a : Fin n → Int) : Prop := 3 ≤ n → segment a 0 < segment a (n - 2)

/-- The reflected ruler. -/
def reflection (hn : 2 ≤ n) (a : Fin n → Int) : Fin n → Int := fun i => a (lastMark hn) - a i.rev

section Reflection

variable (hn : 2 ≤ n)

theorem mark_reflection (hi : i < n) : mark (reflection hn a) i = mark a (n - 1) - mark a (n - 1 - i) := by
  have hrev : (⟨i, hi⟩ : Fin n).rev = ⟨n - 1 - i, by omega⟩ := by
    refine Fin.ext ?_
    rw [Fin.val_rev]
    show n - (i + 1) = n - 1 - i
    omega
  rw [mark_of_lt hi, reflection, hrev, mark_of_lt (Nat.sub_lt_of_pos_le Nat.one_pos (by omega)),
    mark_of_lt (by omega : n - 1 - i < n)]
  rfl

/-- **The reflection of a Golomb ruler is one.** -/
theorem IsGolomb.reflected (h : IsGolomb a) : IsGolomb (reflection hn a) where
  start i hi := by
    have hrev : i.rev = lastMark hn := by
      refine Fin.ext ?_
      rw [Fin.val_rev, hi]
      rfl
    show a (lastMark hn) - a i.rev = 0
    rw [hrev, sub_self]
  increasing i j hij := by
    have hlt := h.increasing (Fin.rev_lt_rev.2 hij)
    show a (lastMark hn) - a i.rev < a (lastMark hn) - a j.rev
    omega
  distinct {i j k l} hij hkl heq := by
    have heq : a (lastMark hn) - a j.rev - (a (lastMark hn) - a i.rev) =
        a (lastMark hn) - a l.rev - (a (lastMark hn) - a k.rev) := heq
    obtain ⟨hjl, hik⟩ := h.distinct (Fin.rev_lt_rev.2 hij) (Fin.rev_lt_rev.2 hkl) (by omega)
    exact ⟨Fin.rev_injective hik, Fin.rev_injective hjl⟩

theorem mark_reflection_last (h : IsGolomb a) : mark (reflection hn a) (n - 1) = mark a (n - 1) := by
  rw [mark_reflection hn (by omega), Nat.sub_self, h.mark_zero (by omega), sub_zero]

/-- Of a ruler and its reflection one has its shorter end segment first. -/
theorem IsGolomb.oriented_or_reflection (h : IsGolomb a) : Oriented a ∨ Oriented (reflection hn a) := by
  rcases Nat.lt_or_ge n 3 with hn3 | hn3
  · exact .inl fun h3 => absurd h3 (Nat.not_le.2 hn3)
  · have hfirst : segment (reflection hn a) 0 = segment a (n - 2) := by
      rw [segment, segment, mark_reflection hn (by omega), mark_reflection hn (by omega),
        Nat.sub_zero, show n - 1 - (0 + 1) = n - 2 by omega, show n - 2 + 1 = n - 1 by omega]
      omega
    have hlast : segment (reflection hn a) (n - 2) = segment a 0 := by
      rw [segment, segment, mark_reflection hn (by omega), mark_reflection hn (by omega),
        show n - 1 - (n - 2 + 1) = 0 by omega, show n - 1 - (n - 2) = 0 + 1 by omega]
      omega
    have hne : segment a 0 ≠ segment a (n - 2) := by
      intro heq
      obtain ⟨hzero, -⟩ := h.mark_distinct (Nat.lt_add_one 0) (by omega) (Nat.lt_add_one (n - 2))
        (by omega) heq
      omega
    rcases lt_or_gt_of_ne hne with hlt | hgt
    · exact .inl fun _ => hlt
    · refine .inr fun _ => ?_
      rw [hfirst, hlast]
      exact hgt

end Reflection

end BoundsSolver
