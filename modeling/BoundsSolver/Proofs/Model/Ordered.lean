/-
# Matrices with ordered rows and columns

The rows and columns of a matrix of truth values can be permuted in such a way that both are
in lexicographic order (`exists_ordered`).  Of all the permuted matrices take the least, read
row by row: if two of its rows or two of its columns were out of order then swapping them
would give a lesser one.

Of the columns this is so since up to the first row that tells them apart they have the same
entries, and in that row the lesser entry comes to the earlier column.
-/

import Mathlib.Data.Finite.Prod
import Mathlib.Data.Fintype.Lattice
import Mathlib.Data.Fintype.Perm
import Mathlib.Order.PiLex
import BoundsSolver.Constraint.Meaning

namespace BoundsSolver

/-- Rows are in lexicographic order, and so are columns. -/
structure Ordered {v b : Nat} (M : Fin v → Fin b → Bool) : Prop where
  rows : Monotone fun i => toLex (M i)
  columns : Monotone fun j => toLex fun i => M i j

variable {v b n : Nat}

/-! ### Swapping lines that are out of order -/

section Swap

variable {M : Fin v → Fin b → Bool}

/-- The matrix as a sequence of rows. -/
def rowMajor (M : Fin v → Fin b → Bool) : Lex (Fin v → Lex (Fin b → Bool)) :=
  toLex fun i => toLex (M i)

theorem rowMajor_swap_rows_lt {i i' : Fin v} (hi : i < i') (h : toLex (M i') < toLex (M i)) :
    rowMajor (fun k => M (Equiv.swap i i' k)) < rowMajor M := by
  refine ⟨i, fun k hk => ?_, ?_⟩
  · exact congrArg (fun k => toLex (M k)) (Equiv.swap_apply_of_ne_of_ne hk.ne (hk.trans hi).ne)
  · show toLex (M (Equiv.swap i i' i)) < toLex (M i)
    rw [Equiv.swap_apply_left]
    exact h

theorem rowMajor_swap_columns_lt {j j' : Fin b} (hj : j < j')
    (h : toLex (fun i => M i j') < toLex fun i => M i j) :
    rowMajor (fun k l => M k (Equiv.swap j j' l)) < rowMajor M := by
  obtain ⟨i, hsame, hlt⟩ := h
  refine ⟨i, fun k hk => ?_, j, fun l hl => ?_, ?_⟩
  · refine congrArg toLex (funext fun l => ?_)
    have hk : M k j' = M k j := hsame k hk
    show M k (Equiv.swap j j' l) = M k l
    rw [Equiv.swap_apply_def]
    split
    · rename_i hl
      rw [hl, hk]
    · split
      · rename_i hl
        rw [hl, hk]
      · rfl
  · exact congrArg (M i) (Equiv.swap_apply_of_ne_of_ne hl.ne (hl.trans hj).ne)
  · show M i (Equiv.swap j j' j) < M i j
    rw [Equiv.swap_apply_left]
    exact hlt

end Swap

/-- **Rows and columns can be ordered together.** -/
theorem exists_ordered (M : Fin v → Fin b → Bool) :
    ∃ (σ : Equiv.Perm (Fin v)) (τ : Equiv.Perm (Fin b)), Ordered fun i j => M (σ i) (τ j) := by
  obtain ⟨⟨σ, τ⟩, hleast⟩ := Finite.exists_min
    fun p : Equiv.Perm (Fin v) × Equiv.Perm (Fin b) => rowMajor fun i j => M (p.1 i) (p.2 j)
  refine ⟨σ, τ, fun i i' hi => ?_, fun j j' hj => ?_⟩
  · by_contra hnot
    have hlt := not_le.1 hnot
    have hi : i < i' := hi.lt_of_ne fun h => hlt.ne (by rw [h])
    have hless := rowMajor_swap_rows_lt (M := fun i j => M (σ i) (τ j)) hi hlt
    exact absurd (hleast (σ * Equiv.swap i i', τ)) (not_le.2 hless)
  · by_contra hnot
    have hlt := not_le.1 hnot
    have hj : j < j' := hj.lt_of_ne fun h => hlt.ne (by rw [h])
    have hless := rowMajor_swap_columns_lt (M := fun i j => M (σ i) (τ j)) hj hlt
    exact absurd (hleast (σ, τ * Equiv.swap j j')) (not_le.2 hless)

/-! ### The order of lists -/

theorem toLex_lt_succ_iff {f g : Fin (n + 1) → Bool} : toLex f < toLex g ↔
    f 0 < g 0 ∨ f 0 = g 0 ∧ toLex (fun i => f (Fin.succ i)) < toLex fun i => g (Fin.succ i) := by
  show (∃ i, (∀ j < i, f j = g j) ∧ f i < g i) ↔
    _ ∨ _ ∧ ∃ i, (∀ j < i, f (Fin.succ j) = g (Fin.succ j)) ∧ f (Fin.succ i) < g (Fin.succ i)
  rw [Fin.exists_fin_succ]
  simp only [Fin.forall_fin_succ, Fin.not_lt_zero, Fin.succ_pos, Fin.succ_lt_succ_iff]
  simp [and_assoc]

theorem toLex_le_succ_iff {f g : Fin (n + 1) → Bool} : toLex f ≤ toLex g ↔
    f 0 < g 0 ∨ f 0 = g 0 ∧ toLex (fun i => f (Fin.succ i)) ≤ toLex fun i => g (Fin.succ i) := by
  have hrest : toLex (fun i => f (Fin.succ i)) ≤ toLex (fun i => g (Fin.succ i)) ↔
      ¬ toLex (fun i => g (Fin.succ i)) < toLex fun i => f (Fin.succ i) := not_lt.symm
  refine not_lt.symm.trans ((not_congr toLex_lt_succ_iff).trans ?_)
  rw [hrest]
  cases f 0 <;> cases g 0 <;> simp

/-- Lists of zeros and ones are ordered as the truth values are. -/
theorem lexLe_ofFn_iff {f g : Fin n → Bool} :
    LexLe (List.ofFn fun i => (f i).toInt) (List.ofFn fun i => (g i).toInt) ↔
      toLex f ≤ toLex g := by
  induction n with
  | zero =>
    rw [Subsingleton.elim f g]
    exact ⟨fun _ => le_rfl, fun _ => trivial⟩
  | succ n ih =>
    rw [List.ofFn_succ, List.ofFn_succ, LexLe, ih, toLex_le_succ_iff]
    cases f 0 <;> cases g 0 <;> simp

end BoundsSolver
