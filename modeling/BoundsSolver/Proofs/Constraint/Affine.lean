/-
# Sums of terms over boxes

The sum of the least values of all terms and the sum of the greatest values
enclose the value of every assignment; both move inwards with the box
(`sumMin_le_of_within`, `sumMax_le_of_within`).  If neither sum leaves the range
of sums on its way over a box, no such sum does over a box within
(`total_of_within`).
-/

import Mathlib.Algebra.Ring.Int.Defs
import BoundsSolver.Proofs.Contract

namespace BoundsSolver
namespace Affine

/-- The intervals and parameters on which a linear constraint can be propagated. -/
def Posed (parameters : List Int) (is : List Interval) : Prop :=
  parameters.length = is.length + 1 ∧ Filled is ∧ ∀ i ∈ is, i.Fits

/-- The sum of `term` over the coefficients and the intervals at the same positions. -/
def sumOf (term : Int → Interval → Int) : List Int → List Interval → Int
  | a :: as, i :: is => term a i + sumOf term as is
  | _, _ => 0

variable {a x : Int} {i j : Interval} {as vs : List Int} {is js : List Interval}
  {term : Int → Interval → Int}

theorem Posed.of_within {parameters : List Int} (h : Posed parameters is) (hw : Within js is)
    (hf : Filled js) : Posed parameters js :=
  ⟨by rw [hw.length_eq]; exact h.1, hf, fun j hj => by
    obtain ⟨i, hi, hb⟩ := hw.exists_of_mem hj
    exact (h.2.2 i hi).of_within hb (hf j hj)⟩

/-! ### Terms -/

theorem termMin_le (hmin : i.min ≤ x) (hmax : x ≤ i.max) : termMin a i ≤ a * x := by
  unfold termMin
  split
  · exact Int.mul_le_mul_of_nonneg_left hmin ‹_›
  · exact Int.mul_le_mul_of_nonpos_left (by omega) hmax

theorem le_termMax (hmin : i.min ≤ x) (hmax : x ≤ i.max) : a * x ≤ termMax a i := by
  unfold termMax
  split
  · exact Int.mul_le_mul_of_nonneg_left hmax ‹_›
  · exact Int.mul_le_mul_of_nonpos_left (by omega) hmin

/-- The least value of a term is taken. -/
theorem exists_termMin (a : Int) (hi : i.min ≤ i.max) :
    ∃ x, (i.min ≤ x ∧ x ≤ i.max) ∧ a * x = termMin a i := by
  unfold termMin
  split
  · exact ⟨i.min, ⟨Int.le_refl _, hi⟩, rfl⟩
  · exact ⟨i.max, ⟨hi, Int.le_refl _⟩, rfl⟩

/-- The greatest value of a term is taken. -/
theorem exists_termMax (a : Int) (hi : i.min ≤ i.max) :
    ∃ x, (i.min ≤ x ∧ x ≤ i.max) ∧ a * x = termMax a i := by
  unfold termMax
  split
  · exact ⟨i.max, ⟨hi, Int.le_refl _⟩, rfl⟩
  · exact ⟨i.min, ⟨Int.le_refl _, hi⟩, rfl⟩

theorem termMin_le_termMax (a : Int) (hi : i.min ≤ i.max) : termMin a i ≤ termMax a i :=
  Int.le_trans (termMin_le (Int.le_refl _) hi) (le_termMax (Int.le_refl _) hi)

theorem termMin_mono (a : Int) (hw : i.min ≤ j.min ∧ j.max ≤ i.max) (hj : j.min ≤ j.max) :
    termMin a i ≤ termMin a j := by
  obtain ⟨x, hx, he⟩ := exists_termMin a hj
  rw [← he]
  exact termMin_le (by omega) (by omega)

theorem termMax_mono (a : Int) (hw : i.min ≤ j.min ∧ j.max ≤ i.max) (hj : j.min ≤ j.max) :
    termMax a j ≤ termMax a i := by
  obtain ⟨x, hx, he⟩ := exists_termMax a hj
  rw [← he]
  exact le_termMax (by omega) (by omega)

@[simp] theorem termMin_singleton (a x : Int) : termMin a (Interval.singleton x) = a * x := by
  unfold termMin Interval.singleton
  split <;> rfl

@[simp] theorem termMax_singleton (a x : Int) : termMax a (Interval.singleton x) = a * x := by
  unfold termMax Interval.singleton
  split <;> rfl

@[simp] theorem termMin_zero (i : Interval) : termMin 0 i = 0 := by
  rw [termMin, if_pos (Int.le_refl 0), Int.zero_mul]

@[simp] theorem termMax_zero (i : Interval) : termMax 0 i = 0 := by
  rw [termMax, if_pos (Int.le_refl 0), Int.zero_mul]

/-! ### Sums -/

theorem sumOf_eq_sum (term : Int → Interval → Int) (as : List Int) (is : List Interval) :
    sumOf term as is = (as.zipWith term is).sum := by
  fun_induction sumOf term as is with
  | case1 a as i is ih => rw [List.zipWith_cons_cons, List.sum_cons, ih]
  | case2 as is h =>
    rw [List.zipWith_eq_nil_iff.2 ?_, List.sum_nil]
    cases as with
    | nil => exact .inl rfl
    | cons a as =>
      cases is with
      | nil => exact .inr rfl
      | cons i is => exact absurd rfl (h a as i is rfl)

theorem sumMin_le_sumMax (as : List Int) (hf : Filled is) :
    sumOf termMin as is ≤ sumOf termMax as is := by
  fun_induction sumOf termMin as is with
  | case1 a as i is ih =>
    rw [Filled.cons_iff] at hf
    have := termMin_le_termMax a hf.1
    have := ih hf.2
    rw [sumOf]
    omega
  | case2 as is h =>
    have hzero : sumOf termMax as is = 0 := by
      rw [sumOf]
      exact h
    omega

theorem sumMin_le_of_within (as : List Int) (hw : Within js is) (hf : Filled js) :
    sumOf termMin as is ≤ sumOf termMin as js := by
  induction hw generalizing as with
  | nil => cases as <;> exact Int.le_refl _
  | cons hj _ ih =>
    rw [Filled.cons_iff] at hf
    cases as with
    | nil => exact Int.le_refl _
    | cons a as =>
      have := termMin_mono a (Interval.isWithin_iff.1 hj) hf.1
      have := ih as hf.2
      simp only [sumOf]
      omega

theorem sumMax_le_of_within (as : List Int) (hw : Within js is) (hf : Filled js) :
    sumOf termMax as js ≤ sumOf termMax as is := by
  induction hw generalizing as with
  | nil => cases as <;> exact Int.le_refl _
  | cons hj _ ih =>
    rw [Filled.cons_iff] at hf
    cases as with
    | nil => exact Int.le_refl _
    | cons a as =>
      have := termMax_mono a (Interval.isWithin_iff.1 hj) hf.1
      have := ih as hf.2
      simp only [sumOf]
      omega

/-- Over single values, a sum of terms is their value. -/
theorem sumOf_singletons (h : ∀ a x, term a (Interval.singleton x) = a * x) (as vs : List Int) :
    sumOf term as (vs.map Interval.singleton) = dot as vs := by
  induction as generalizing vs with
  | nil => rfl
  | cons a as ih =>
    cases vs with
    | nil => rfl
    | cons x vs =>
      rw [List.map_cons, sumOf, dot, ih, h]

/-! ### Sums that stay in range -/

/-- The sum that a checked addition of all terms to `acc` ends with. -/
theorem foldlM_total {acc s : Int} (h : (as.zip is).foldlM
      (fun acc t => Width.sum.add acc (term t.1 t.2)) acc = Except.ok s) :
    s = acc + sumOf term as is := by
  induction as generalizing is acc with
  | nil =>
    obtain rfl := Except.ok.inj h
    simp [sumOf]
  | cons a as ih =>
    cases is with
    | nil =>
      obtain rfl := Except.ok.inj h
      simp [sumOf]
    | cons i is =>
      rw [List.zip_cons_cons, List.foldlM_cons] at h
      obtain ⟨t, ht, h⟩ := bind_eq_ok.1 h
      obtain ⟨-, rfl⟩ := Width.add_eq_ok.1 ht
      rw [ih h, sumOf]
      dsimp only
      omega

theorem total_eq {s : Int} (h : total term as is = .ok s) : s = sumOf term as is := by
  rw [foldlM_total h, Int.zero_add]

/-- The partial sums over a box lie between those of the least and of the greatest values
over a box around it. -/
theorem foldlM_of_within (term : Int → Interval → Int) {low high l h : Int} (acc : Int)
    (hw : Within js is) (hf : Filled js)
    (hlow : (as.zip is).foldlM (fun acc t => Width.sum.add acc (termMin t.1 t.2)) low = Except.ok l)
    (hhigh : (as.zip is).foldlM (fun acc t => Width.sum.add acc (termMax t.1 t.2)) high
      = Except.ok h)
    (hle : low ≤ acc) (hge : acc ≤ high)
    (hterm : ∀ a j, j.min ≤ j.max → termMin a j ≤ term a j ∧ term a j ≤ termMax a j) :
    ∃ s, (as.zip js).foldlM (fun acc t => Width.sum.add acc (term t.1 t.2)) acc = Except.ok s := by
  induction hw generalizing as low acc high with
  | nil => exact ⟨acc, by rw [List.zip_nil_right]; rfl⟩
  | @cons j i js is hj _ ih =>
    rw [Filled.cons_iff] at hf
    cases as with
    | nil => exact ⟨acc, rfl⟩
    | cons a as =>
      rw [List.zip_cons_cons, List.foldlM_cons] at hlow hhigh
      obtain ⟨l', hl, hlow⟩ := bind_eq_ok.1 hlow
      obtain ⟨h', hh, hhigh⟩ := bind_eq_ok.1 hhigh
      obtain ⟨hlfit, rfl⟩ := Width.add_eq_ok.1 hl
      obtain ⟨hhfit, rfl⟩ := Width.add_eq_ok.1 hh
      dsimp only at hlow hhigh hlfit hhfit
      have hmin := termMin_mono a (Interval.isWithin_iff.1 hj) hf.1
      have hmax := termMax_mono a (Interval.isWithin_iff.1 hj) hf.1
      have ht := hterm a j hf.1
      have hfit : Width.sum.Fits (acc + term a j) :=
        ⟨Int.le_trans hlfit.1 (by omega), Int.le_trans (by omega) hhfit.2⟩
      obtain ⟨s, hs⟩ := ih (acc + term a j) hf.2 hlow hhigh (by omega) (by omega)
      refine ⟨s, ?_⟩
      rw [List.zip_cons_cons, List.foldlM_cons]
      exact bind_eq_ok.2 ⟨acc + term a j, Width.add_eq_ok.2 ⟨hfit, rfl⟩, hs⟩

/-- **Sums over a smaller box stay in range.** -/
theorem total_of_within {l h : Int} (hw : Within js is) (hf : Filled js)
    (hlow : total termMin as is = .ok l) (hhigh : total termMax as is = .ok h) :
    total termMin as js = .ok (sumOf termMin as js) ∧
      total termMax as js = .ok (sumOf termMax as js) := by
  obtain ⟨s, hs⟩ := foldlM_of_within termMin 0 hw hf hlow hhigh (Int.le_refl 0)
    (Int.le_refl 0) fun a j hj => ⟨Int.le_refl _, termMin_le_termMax a hj⟩
  obtain ⟨t, ht⟩ := foldlM_of_within termMax 0 hw hf hlow hhigh (Int.le_refl 0)
    (Int.le_refl 0) fun a j hj => ⟨termMin_le_termMax a hj, Int.le_refl _⟩
  exact ⟨total_eq hs ▸ hs, total_eq ht ▸ ht⟩

end Affine
end BoundsSolver
