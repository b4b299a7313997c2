/-
# Drawing values at random

A value of a range is drawn by rejection.  The generator goes from state to state on its own
and has no more than `stateCount` of them, so that what it has not shown in so many words it
will never show (`exists_after_eq`).  Hence a draw comes to a value of the range, or no word
that the generator ever comes to is accepted (`valueIn_cases`).
-/

import BoundsSolver.Search.Random
import Mathlib.Data.Finset.Card

namespace BoundsSolver

namespace Generator

/-- The generator after so many words. -/
def after (g : Generator) (k : Nat) : Generator := (fun g => g.next.2)^[k] g

/-- The next word is accepted for a range of so many values. -/
def Accepts (g : Generator) (range : Nat) : Prop :=
  (g.next.1 >>> 32).toNat * range % (1 <<< 32) ≤ zone range

/-- No word is ever accepted for a range of so many values. -/
def Rejects (g : Generator) (range : Nat) : Prop := ∀ k, ¬ (g.after k).Accepts range

/-- The four words of the state in one number. -/
def code (g : Generator) : Nat :=
  ((g.s3.toNat * UInt64.size + g.s2.toNat) * UInt64.size + g.s1.toNat) * UInt64.size + g.s0.toNat

variable {g : Generator} {range : Nat} {lo hi : Int}

/-! ### The generator repeats itself -/

theorem code_lt (g : Generator) : g.code < stateCount := by
  have h0 := g.s0.toNat_lt
  have h1 := g.s1.toNat_lt
  have h2 := g.s2.toNat_lt
  have h3 := g.s3.toNat_lt
  simp only [code, stateCount, UInt64.size, Nat.one_shiftLeft]
  omega

theorem code_injective : Function.Injective code := by
  intro g h heq
  have h0 := g.s0.toNat_lt
  have h1 := g.s1.toNat_lt
  have h2 := g.s2.toNat_lt
  have h0' := h.s0.toNat_lt
  have h1' := h.s1.toNat_lt
  have h2' := h.s2.toNat_lt
  obtain ⟨s0, s1, s2, s3⟩ := g
  obtain ⟨t0, t1, t2, t3⟩ := h
  simp only [code, UInt64.size] at *
  have hs0 : s0 = t0 := UInt64.toNat_inj.1 (by omega)
  have hs1 : s1 = t1 := UInt64.toNat_inj.1 (by omega)
  have hs2 : s2 = t2 := UInt64.toNat_inj.1 (by omega)
  have hs3 : s3 = t3 := UInt64.toNat_inj.1 (by omega)
  rw [hs0, hs1, hs2, hs3]

/-- Some state comes twice among the first `stateCount + 1`. -/
theorem exists_repeat (g : Generator) :
    ∃ i j, i < j ∧ j ≤ stateCount ∧ g.after i = g.after j := by
  have hcard : (Finset.range stateCount).card < (Finset.range (stateCount + 1)).card := by
    rw [Finset.card_range, Finset.card_range]
    exact Nat.lt_succ_self _
  have hmaps (k : Nat) (_ : k ∈ Finset.range (stateCount + 1)) :
      (g.after k).code ∈ Finset.range stateCount := Finset.mem_range.2 (code_lt _)
  obtain ⟨i, hi, j, hj, hne, heq⟩ := Finset.exists_ne_map_eq_of_card_lt_of_maps_to hcard hmaps
  rw [Finset.mem_range] at hi hj
  have hsame := code_injective heq
  rcases Nat.lt_or_gt_of_ne hne with hij | hji
  · exact ⟨i, j, hij, by omega, hsame⟩
  · exact ⟨j, i, hji, by omega, hsame.symm⟩

/-- **Every state that is ever reached is among the first `stateCount`.** -/
theorem exists_after_eq (g : Generator) (k : Nat) :
    ∃ l, l < stateCount ∧ g.after k = g.after l := by
  obtain ⟨i, j, hij, hj, hrepeat⟩ := g.exists_repeat
  induction k using Nat.strong_induction_on with
  | h k ih =>
    rcases Nat.lt_or_ge k j with hk | hk
    · exact ⟨k, by omega, rfl⟩
    · -- From the repeated state on everything comes as it came before.
      obtain ⟨l, hl, heq⟩ := ih (k - j + i) (by omega)
      refine ⟨l, hl, Eq.trans ?_ heq⟩
      calc g.after k = (g.after j).after (k - j) := by
            rw [after, after, after, ← Function.iterate_add_apply, Nat.sub_add_cancel hk]
        _ = (g.after i).after (k - j) := by rw [hrepeat]
        _ = g.after (k - j + i) := (Function.iterate_add_apply _ _ _ _).symm

theorem rejects_of_first (h : ∀ k < stateCount, ¬ (g.after k).Accepts range) :
    g.Rejects range := by
  intro k
  obtain ⟨l, hl, heq⟩ := g.exists_after_eq k
  rw [heq]
  exact h l hl

/-! ### Draws -/

/-- Scaling a word of 32 bits to a range gives a number below it. -/
theorem scaled_lt (h : 0 < range) (word : UInt64) :
    ((word >>> 32).toNat * range) >>> 32 < range := by
  have hword : (word >>> 32).toNat < 2 ^ 32 := by
    have hlt := word.toNat_lt
    rw [UInt64.toNat_shiftRight, Nat.shiftRight_eq_div_pow]
    exact Nat.div_lt_of_lt_mul hlt
  rw [Nat.shiftRight_eq_div_pow]
  exact Nat.div_lt_of_lt_mul (Nat.mul_lt_mul_of_pos_right hword h)

theorem below_cases (h : 0 < range) (draws : Nat) (g : Generator) :
    (∃ n g', below range draws g = .ok (n, g') ∧ n < range) ∨
    (below range draws g = .error .endless ∧ ∀ k < draws, ¬ (g.after k).Accepts range) := by
  induction draws generalizing g with
  | zero => exact .inr ⟨rfl, fun k hk => absurd hk (Nat.not_lt_zero k)⟩
  | succ draws ih =>
    unfold below
    dsimp only
    split
    · exact .inl ⟨_, _, rfl, scaled_lt h _⟩
    · rename_i hreject
      obtain hreturns | ⟨hends, hrest⟩ := ih g.next.2
      · exact .inl hreturns
      · refine .inr ⟨hends, fun k hk => ?_⟩
        cases k with
        | zero => exact hreject
        | succ k => exact hrest k (Nat.lt_of_succ_lt_succ hk)

/-- **A draw comes to a value of the range, or the generator never shows a word that is
accepted.** -/
theorem valueIn_cases (h : lo < hi) (g : Generator) :
    (∃ x g', g.valueIn lo hi = .ok (x, g') ∧ lo ≤ x ∧ x < hi) ∨
    (g.valueIn lo hi = .error .endless ∧ g.Rejects (hi - lo).toNat) := by
  have hpos : 0 < (hi - lo).toNat := by omega
  rw [valueIn, if_pos h]
  obtain ⟨n, g', hn, hlt⟩ | ⟨hends, hreject⟩ := below_cases hpos stateCount g
  · exact .inl ⟨lo + n, g', bind_of_ok hn, by omega, by omega⟩
  · refine .inr ⟨?_, rejects_of_first hreject⟩
    rw [hends]
    rfl

end Generator
end BoundsSolver
