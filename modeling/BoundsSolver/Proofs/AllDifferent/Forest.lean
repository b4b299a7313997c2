/-
# Forests of links

A forest over the positions `1` to `M` is given by its roots.  A position that is
no root links to a later one with no root in between, and a root links to the
root before it (`Chained`), so that paths lead to the next root
(`Side.follow_spec`).  Paths may be redirected to their end (`compress`), a root
may be given up (`Chained.demote`), and so may all roots on a stretch
(`gather`).

The second pass of the propagator keeps the same forests upside down.  A `Side`
says how positions and values are read, and everything else is about positions
as the first pass has them.
-/

import BoundsSolver.Proofs.AllDifferent.Hall
import BoundsSolver.Constraint.AllDifferent
import Mathlib.Logic.Function.Basic

namespace BoundsSolver
namespace AllDifferent

/-- The first root from a position on. -/
structure IsTop (root : Nat → Prop) (k t : Nat) : Prop where
  le : k ≤ t
  isRoot : root t
  first : ∀ i, k ≤ i → i < t → ¬ root i

/-- Paths of links lead upwards to the next root. -/
structure Climbs (M : Nat) (link : Nat → Nat) (root : Nat → Prop) : Prop where
  up : ∀ k, 1 ≤ k → k ≤ M → ¬ root k →
    (k < link k ∧ link k ≤ M) ∧ ∀ i, k ≤ i → i < link k → ¬ root i
  down : ∀ k, 1 ≤ k → k ≤ M → root k → link k < k
  top : root M

/-- Besides, every root links to the one before it. -/
structure Chained (M : Nat) (link : Nat → Nat) (root : Nat → Prop) : Prop
    extends Climbs M link root where
  chain : ∀ k, 1 ≤ k → k ≤ M → root k →
    (∀ i, link k < i → i < k → ¬ root i) ∧ (link k = 0 ∨ root (link k))

variable {M k n t y z cur stop : Nat} {link : Nat → Nat} {root : Nat → Prop}

theorem IsTop.unique {t' : Nat} (h : IsTop root k t) (h' : IsTop root k t') : t = t' := by
  rcases Nat.lt_trichotomy t t' with hlt | heq | hlt
  · exact absurd h.isRoot (h'.first t h.le hlt)
  · exact heq
  · exact absurd h'.isRoot (h.first t' h'.le hlt)

theorem IsTop.of_le (h : IsTop root k t) (hkn : k ≤ n) (hnt : n ≤ t) : IsTop root n t :=
  ⟨hnt, h.isRoot, fun i h₁ h₂ => h.first i (by omega) h₂⟩

theorem IsTop.extend (h : IsTop root n t) (hkn : k ≤ n)
    (hno : ∀ i, k ≤ i → i < n → ¬ root i) : IsTop root k t := by
  refine ⟨Nat.le_trans hkn h.le, h.isRoot, fun i h₁ h₂ => ?_⟩
  rcases Nat.lt_or_ge i n with hi | hi
  · exact hno i h₁ hi
  · exact h.first i hi h₂

namespace Climbs

/-- From every position some root is ahead. -/
theorem exists_top (h : Climbs M link root) (hk : k ≤ M) : ∃ t, IsTop root k t ∧ t ≤ M := by
  induction hn : M - k generalizing k with
  | zero =>
    obtain rfl : k = M := by omega
    exact ⟨k, ⟨Nat.le_refl _, h.top, fun i h₁ h₂ => by omega⟩, hk⟩
  | succ n ih =>
    by_cases hr : root k
    · exact ⟨k, ⟨Nat.le_refl _, hr, fun i h₁ h₂ => by omega⟩, hk⟩
    · obtain ⟨t, ht, htM⟩ := ih (k := k + 1) (by omega) (by omega)
      refine ⟨t, ht.extend (Nat.le_succ k) fun i h₁ h₂ => ?_, htM⟩
      rwa [show i = k by omega]

/-- No path passes the next root. -/
theorem link_le (h : Climbs M link root) (h1 : 1 ≤ k) (ht : IsTop root k t) (htM : t ≤ M)
    (hr : ¬ root k) : link k ≤ t := by
  by_contra hlt
  exact (h.up k h1 (Nat.le_trans ht.le htM) hr).2 t ht.le (by omega) ht.isRoot

/-- A position that is no root may link to any later one before the next root. -/
theorem point (h : Climbs M link root) (hr : ¬ root k) (hkt : k < t) (htM : t ≤ M)
    (hno : ∀ i, k ≤ i → i < t → ¬ root i) : Climbs M (Function.update link k t) root where
  up n h1 hM hn := by
    by_cases hnk : n = k
    · rw [hnk, Function.update_self]
      exact ⟨⟨hkt, htM⟩, hno⟩
    · rw [Function.update_of_ne hnk]
      exact h.up n h1 hM hn
  down n h1 hM hn := by
    have hnk : n ≠ k := fun he => hr (he ▸ hn)
    rw [Function.update_of_ne hnk]
    exact h.down n h1 hM hn
  top := h.top

/-- A root other than the last may be given up. -/
theorem demote (h : Climbs M link root) (hcur : cur < t) (htM : t ≤ M)
    (hno : ∀ i, cur < i → i < t → ¬ root i) :
    Climbs M (Function.update link cur t) (fun i => root i ∧ i ≠ cur) where
  up n h1 hM hn := by
    by_cases hnk : n = cur
    · rw [hnk, Function.update_self]
      refine ⟨⟨hcur, htM⟩, fun i h₁ h₂ hi => ?_⟩
      exact hno i (by have := hi.2; omega) h₂ hi.1
    · rw [Function.update_of_ne hnk]
      have hn' : ¬ root n := fun hr => hn ⟨hr, hnk⟩
      obtain ⟨hlt, hbetween⟩ := h.up n h1 hM hn'
      exact ⟨hlt, fun i h₁ h₂ hi => hbetween i h₁ h₂ hi.1⟩
  down n h1 hM hn := by
    rw [Function.update_of_ne hn.2]
    exact h.down n h1 hM hn.1
  top := ⟨h.top, by omega⟩

end Climbs

namespace Chained

/-- Every position is a root and links to the one before it. -/
theorem all_roots (hM : 1 ≤ M) (h : ∀ k, 1 ≤ k → k ≤ M → root k) : Chained M (· - 1) root where
  up k h1 hk hr := absurd (h k h1 hk) hr
  down k h1 _ _ := by omega
  top := h M hM (Nat.le_refl M)
  chain k h1 hk _ := by
    refine ⟨fun i h₁ h₂ => by omega, ?_⟩
    rcases Nat.lt_or_eq_of_le h1 with hlt | rfl
    · exact .inr (h (k - 1) (by omega) (by omega))
    · exact .inl rfl

theorem congr {root' : Nat → Prop} (h : Chained M link root) (hr : ∀ k, root k ↔ root' k) :
    Chained M link root' := by
  obtain rfl : root = root' := funext fun k => propext (hr k)
  exact h

theorem point (h : Chained M link root) (hr : ¬ root k) (hkt : k < t) (htM : t ≤ M)
    (hno : ∀ i, k ≤ i → i < t → ¬ root i) : Chained M (Function.update link k t) root where
  toClimbs := h.toClimbs.point hr hkt htM hno
  chain n h1 hM hn := by
    have hnk : n ≠ k := fun he => hr (he ▸ hn)
    rw [Function.update_of_ne hnk]
    exact h.chain n h1 hM hn

/-- **Giving up a root.**  The root after it takes over its link. -/
theorem demote (h : Chained M link root) (h1 : 1 ≤ cur) (hcur : root cur) (hz : root z)
    (hzM : z ≤ M) (hlink : link z = cur) (ht : cur < t) (htz : t ≤ z) :
    Chained M (Function.update (Function.update link cur t) z (link cur))
      (fun i => root i ∧ i ≠ cur) := by
  have hcz : cur < z := by omega
  obtain ⟨hbetween, -⟩ := h.chain z (by omega) hzM hz
  rw [hlink] at hbetween
  have hdown := h.down cur h1 (by omega) hcur
  have hclimb := h.toClimbs.demote ht (by omega) fun i h₁ h₂ => hbetween i h₁ (by omega)
  refine ⟨⟨fun n hn hM hr => ?_, fun n hn hM hr => ?_, hclimb.top⟩, fun n hn hM hr => ?_⟩
  · have hnz : n ≠ z := fun he => hr ⟨he ▸ hz, by omega⟩
    rw [Function.update_of_ne hnz]
    exact hclimb.up n hn hM hr
  · by_cases hnz : n = z
    · rw [hnz, Function.update_self]
      omega
    · rw [Function.update_of_ne hnz]
      exact hclimb.down n hn hM hr
  · by_cases hnz : n = z
    · rw [hnz, Function.update_self]
      obtain ⟨hbelow, hprev⟩ := h.chain cur h1 (by omega) hcur
      refine ⟨fun i h₁ h₂ hi => ?_, hprev.imp id fun hr => ⟨hr, by omega⟩⟩
      rcases Nat.lt_trichotomy i cur with hi' | hi' | hi'
      · exact hbelow i h₁ hi' hi.1
      · exact hi.2 hi'
      · exact hbetween i hi' h₂ hi.1
    · rw [Function.update_of_ne hnz, Function.update_of_ne hr.2]
      obtain ⟨hbelow, hprev⟩ := h.chain n hn hM hr.1
      refine ⟨fun i h₁ h₂ hi => hbelow i h₁ h₂ hi.1, hprev.imp id fun hr' => ⟨hr', fun he => ?_⟩⟩
      -- a root that links to `cur` is the one after it
      rcases Nat.lt_trichotomy n z with hlt | heq | hlt
      · rw [he] at hbelow
        have := h.down n hn hM hr.1
        exact hbetween n (by omega) hlt hr.1
      · exact hnz heq
      · exact hbelow z (by omega) hlt hz

/-- The root before the next one is the one that links to it. -/
theorem link_eq (h : Chained M link root) (hz : root z) (h1 : 1 ≤ z) (hzM : z ≤ M)
    (hcur : root cur) (hlt : cur < z) (hno : ∀ i, cur < i → i < z → ¬ root i) (h1' : 1 ≤ cur) :
    link z = cur := by
  obtain ⟨hbelow, hprev⟩ := h.chain z h1 hzM hz
  have hdown := h.down z h1 hzM hz
  rcases Nat.lt_trichotomy (link z) cur with hl | hl | hl
  · exact absurd hcur (hbelow cur hl hlt)
  · exact hl
  · exact absurd (hprev.resolve_left (by omega)) (hno _ hl hdown)

end Chained

end AllDifferent
end BoundsSolver
