/-
# When the sums of a linear constraint stay in range

A product of two values fits in a sum (`product_bounds`), and so do not too many of them.  How
many depends on the coefficients alone: over all boxes the sum of the terms lies between `lowest`
and `highest`, which it has where every variable is free (`extremes_enclose`).

`InRange` is what it takes for no operation of either propagator to fault, on any box that the
constraint can be posted on (`affine_faultless_iff`).  To run on the free variables is enough
(`inRange_of_equal`, `inRange_of_atMost`).  Both propagators go through the terms in order with the
terms before already narrowed, hence `Spans`, which every step keeps (`Spans.step`).

Besides the two sums, what the other terms leave of the right-hand side has to fit.  It fails to
in one corner only, where both sums are at the very ends of their range (`extremes_of_rest`).
-/

import BoundsSolver.Proofs.Constraint.Contract
import BoundsSolver.Proofs.Constraint.Tight

namespace BoundsSolver
namespace Affine

/-- The least sum of terms over all values. -/
def lowest (as : List Int) : Int := (as.map (termMin · .full)).sum

/-- The greatest sum of terms over all values. -/
def highest (as : List Int) : Int := (as.map (termMax · .full)).sum

/-- The sum of the coefficients without their signs. -/
def weight (as : List Int) : Nat := (as.map Int.natAbs).sum

/-- The sums stay in range, and so does what the other terms leave of the right-hand side. -/
structure InRange (rhs : Int) (as : List Int) : Prop where
  low : Width.sum.lo ≤ lowest as
  high : highest as ≤ Width.sum.hi
  rest : ∀ a ∈ as, a ≠ 0 → rhs - (lowest as - termMin a .full) ≤ Width.sum.hi

/-- The terms stay in range after others that come to at least `below` and at most `above`. -/
structure Spans (rhs : Int) (as : List Int) (below above : Int) : Prop where
  ordered : below ≤ above
  low : Width.sum.lo ≤ below + lowest as
  high : above + highest as ≤ Width.sum.hi
  rest : ∀ a ∈ as, a ≠ 0 → rhs - (below + lowest as - termMin a .full) ≤ Width.sum.hi

variable {a x s rhs low high below above acc : Int} {as parameters : List Int} {i j : Interval}
  {is js : List Interval}

/-! ### Free variables -/

theorem full_within (hi : i.Fits) : Interval.full.min ≤ i.min ∧ i.max ≤ Interval.full.max :=
  ⟨hi.1.1, hi.2.2⟩

theorem termMin_full (a : Int) :
    termMin a .full = if 0 ≤ a then -2147483648 * a else 2147483647 * a := by
  unfold termMin
  split <;> exact Int.mul_comm _ _

theorem termMax_full (a : Int) :
    termMax a .full = if 0 ≤ a then 2147483647 * a else -2147483648 * a := by
  unfold termMax
  split <;> exact Int.mul_comm _ _

/-- The values of a free term reach from below zero to above it. -/
theorem full_signs (a : Int) : termMin a .full ≤ 0 ∧ 0 ≤ termMax a .full := by
  rw [termMin_full, termMax_full]
  split <;> omega

/-- A free term reaches at most twice as far on one side as on the other. -/
theorem full_balanced (a : Int) :
    termMax a .full ≤ -2 * termMin a .full ∧ -2 * termMax a .full ≤ termMin a .full := by
  rw [termMin_full, termMax_full]
  split <;> omega

theorem lowest_cons : lowest (a :: as) = termMin a .full + lowest as := List.sum_cons

theorem highest_cons : highest (a :: as) = termMax a .full + highest as := List.sum_cons

theorem extremes_signs (as : List Int) : lowest as ≤ 0 ∧ 0 ≤ highest as := by
  induction as with
  | nil => exact ⟨Int.le_refl 0, Int.le_refl 0⟩
  | cons a as ih =>
    have := full_signs a
    rw [lowest_cons, highest_cons]
    omega

theorem extremes_balanced (as : List Int) :
    highest as ≤ -2 * lowest as ∧ -2 * highest as ≤ lowest as := by
  induction as with
  | nil => exact ⟨Int.le_refl 0, Int.le_refl 0⟩
  | cons a as ih =>
    have := full_balanced a
    rw [lowest_cons, highest_cons]
    omega

/-- The sums of the free variables enclose those of all boxes. -/
theorem extremes_enclose (as : List Int) (hi : ∀ i ∈ is, i.Fits) (hf : Filled is) :
    lowest as ≤ sumOf termMin as is ∧ sumOf termMax as is ≤ highest as := by
  induction as generalizing is with
  | nil => exact ⟨Int.le_refl 0, Int.le_refl 0⟩
  | cons a as ih =>
    cases is with
    | nil => exact extremes_signs (a :: as)
    | cons i is =>
      rw [Filled.cons_iff] at hf
      obtain ⟨hfit, hi⟩ := List.forall_mem_cons.1 hi
      have hmin := termMin_mono a (full_within hfit) hf.1
      have hmax := termMax_mono a (full_within hfit) hf.1
      have := ih hi hf.2
      rw [lowest_cons, highest_cons, sumOf, sumOf]
      omega

/-- **A product of two values fits in a sum**, and so does the difference of two products. -/
theorem product_bounds (ha : Width.value.Fits a) (hx : Width.value.Fits x) :
    -4611686016279904256 ≤ a * x ∧ a * x ≤ 4611686018427387904 := by
  have hmin := termMin_le (a := a) (i := .full) hx.1 hx.2
  have hmax := le_termMax (a := a) (i := .full) hx.1 hx.2
  rw [termMin_full] at hmin
  rw [termMax_full] at hmax
  simp only [Width.Fits, Width.value] at ha
  split at hmin <;> omega

theorem term_bounds (ha : Width.value.Fits a) (hi : i.Fits) (hf : i.min ≤ i.max) :
    -4611686016279904256 ≤ termMin a i ∧ termMax a i ≤ 4611686018427387904 := by
  obtain ⟨x, hx, hmin⟩ := exists_termMin a hf
  obtain ⟨y, hy, hmax⟩ := exists_termMax a hf
  rw [← hmin, ← hmax]
  exact ⟨(product_bounds ha ⟨Int.le_trans hi.1.1 hx.1, Int.le_trans hx.2 hi.2.2⟩).1,
    (product_bounds ha ⟨Int.le_trans hi.1.1 hy.1, Int.le_trans hy.2 hi.2.2⟩).2⟩

/-- The ends of a term move by no more than fits in a sum. -/
theorem moves_fit (ha : Width.value.Fits a) (hi : i.Fits) (hf : i.min ≤ i.max) (hj : j.Fits)
    (hne : j.min ≤ j.max) : Width.sum.Fits (termMin a j - termMin a i) ∧
      Width.sum.Fits (termMax a j - termMax a i) := by
  have hold := term_bounds ha hi hf
  have hnew := term_bounds ha hj hne
  have hold' := termMin_le_termMax a hf
  have hnew' := termMin_le_termMax a hne
  simp only [Width.Fits, Width.sum]
  omega

/-- A term that was confined leaves the right-hand side between the two sums. -/
theorem fitTerm_encloses (h : fitTerm rhs a i low high = .ok j) (ha : a ≠ 0) (hi : i.Fits)
    (hle : low ≤ rhs) (hge : rhs ≤ high) (hne : j.min ≤ j.max) :
    low + (termMin a j - termMin a i) ≤ rhs ∧ rhs ≤ high + (termMax a j - termMax a i) := by
  have hw := Interval.isWithin_iff.1 (fitTerm_isWithin h)
  obtain ⟨x, hx, hmin⟩ := exists_termMin a hne
  obtain ⟨y, hy, hmax⟩ := exists_termMax a hne
  have hx' := (mem_fitTerm_iff h ha hi hle hge (by omega)).1 hx
  have hy' := (mem_fitTerm_iff h ha hi hle hge (by omega)).1 hy
  omega

/-! ### Quotients -/

/-- Rounding a quotient of sums down gives a sum, except for the least one by minus one. -/
theorem floorDiv_returns (hs : Width.sum.Fits s) (ha : a ≠ 0)
    (hneg : a = -1 → Width.sum.lo < s) : ∃ q, Width.sum.floorDiv s a = .ok q := by
  refine ⟨_, Width.check_eq_ok.2 ⟨?_, rfl⟩⟩
  simp only [Width.Fits, Width.sum] at hs hneg ⊢
  rcases Int.lt_or_gt_of_ne ha with ha | ha
  · have hlo := le_floorDiv_of_neg (s := s) (x := -9223372036854775808) ha
    have hhi := le_floorDiv_of_neg (s := s) (x := 9223372036854775808) ha
    omega
  · have hlo := le_floorDiv (s := s) (x := -9223372036854775808) ha
    have hhi := le_floorDiv (s := s) (x := 9223372036854775808) ha
    omega

/-- Rounding it up does as well. -/
theorem ceilDiv_returns (hs : Width.sum.Fits s) (ha : a ≠ 0)
    (hneg : a = -1 → Width.sum.lo < s) : ∃ q, Width.sum.ceilDiv s a = .ok q := by
  refine ⟨_, Width.check_eq_ok.2 ⟨?_, rfl⟩⟩
  simp only [Width.Fits, Width.sum] at hs hneg ⊢
  rcases Int.lt_or_gt_of_ne ha with ha | ha
  · have hlo := ceilDiv_le_of_neg (s := s) (x := -9223372036854775809) ha
    have hhi := ceilDiv_le_of_neg (s := s) (x := 9223372036854775807) ha
    omega
  · have hlo := ceilDiv_le (s := s) (x := -9223372036854775809) ha
    have hhi := ceilDiv_le (s := s) (x := 9223372036854775807) ha
    omega

/-! ### Terms after others -/

/-- Checked addition of terms comes to an end in range. -/
theorem foldlM_returns {term : Int → Interval → Int} (hlow : Width.sum.lo ≤ acc + lowest as)
    (hhigh : acc + highest as ≤ Width.sum.hi) (hi : ∀ i ∈ is, i.Fits) (hf : Filled is)
    (hterm : ∀ a i, i.Fits → i.min ≤ i.max →
      termMin a .full ≤ term a i ∧ term a i ≤ termMax a .full) :
    ∃ s, (as.zip is).foldlM (fun acc t => Width.sum.add acc (term t.1 t.2)) acc = Except.ok s := by
  induction as generalizing is acc with
  | nil => exact ⟨acc, rfl⟩
  | cons a as ih =>
    cases is with
    | nil => exact ⟨acc, rfl⟩
    | cons i is =>
      rw [Filled.cons_iff] at hf
      obtain ⟨hfit, hi⟩ := List.forall_mem_cons.1 hi
      rw [lowest_cons] at hlow
      rw [highest_cons] at hhigh
      have ht := hterm a i hfit hf.1
      have hsigns := extremes_signs as
      have hadd : Width.sum.Fits (acc + term a i) := ⟨by omega, by omega⟩
      have hlow' : Width.sum.lo ≤ acc + term a i + lowest as := by omega
      obtain ⟨s, hs⟩ := ih hlow' (by omega) hi hf.2
      refine ⟨s, ?_⟩
      rw [List.zip_cons_cons, List.foldlM_cons]
      exact bind_eq_ok.2 ⟨_, Width.add_eq_ok.2 ⟨hadd, rfl⟩, hs⟩

theorem totals_return (hlow : Width.sum.lo ≤ lowest as) (hhigh : highest as ≤ Width.sum.hi)
    (hi : ∀ i ∈ is, i.Fits) (hf : Filled is) :
    total termMin as is = .ok (sumOf termMin as is) ∧
      total termMax as is = .ok (sumOf termMax as is) := by
  have hends (a : Int) (i : Interval) (hi : i.Fits) (hf : i.min ≤ i.max) :
      termMin a .full ≤ termMin a i ∧ termMin a i ≤ termMax a i ∧ termMax a i ≤ termMax a .full :=
    ⟨termMin_mono a (full_within hi) hf, termMin_le_termMax a hf,
      termMax_mono a (full_within hi) hf⟩
  obtain ⟨s, hs⟩ : ∃ s, total termMin as is = .ok s :=
    foldlM_returns (by omega) (by omega) hi hf fun a i hi hf => by
      have := hends a i hi hf
      omega
  obtain ⟨t, ht⟩ : ∃ t, total termMax as is = .ok t :=
    foldlM_returns (by omega) (by omega) hi hf fun a i hi hf => by
      have := hends a i hi hf
      omega
  exact ⟨total_eq hs ▸ hs, total_eq ht ▸ ht⟩

namespace Spans

/-- What is left to span after a term over some interval. -/
theorem step (h : Spans rhs (a :: as) below above) (hi : i.Fits) (hf : i.min ≤ i.max) :
    Spans rhs as (below + termMin a i) (above + termMax a i) := by
  obtain ⟨hordered, hlow, hhigh, hrest⟩ := h
  have hmin := termMin_mono a (full_within hi) hf
  have hmax := termMax_mono a (full_within hi) hf
  have hle := termMin_le_termMax a hf
  rw [lowest_cons] at hlow hrest
  rw [highest_cons] at hhigh
  refine ⟨by omega, by omega, by omega, fun b hb hb0 => ?_⟩
  have := hrest b (List.mem_cons_of_mem _ hb) hb0
  omega

/-- The sums over every box are in range. -/
theorem sums_fit (h : Spans rhs as below above) (hi : ∀ i ∈ is, i.Fits) (hf : Filled is) :
    Width.sum.Fits (below + sumOf termMin as is) ∧
      Width.sum.Fits (above + sumOf termMax as is) := by
  obtain ⟨hordered, hlow, hhigh, -⟩ := h
  have hends := extremes_enclose as hi hf
  have hle := sumMin_le_sumMax as hf
  exact ⟨⟨by omega, by omega⟩, by omega, by omega⟩

section Rests

variable (h : Spans rhs (a :: as) below above) (hr : Width.value.Fits rhs)
  (ha : Width.value.Fits a) (ha0 : a ≠ 0) (hi : ∀ j ∈ i :: is, j.Fits) (hf : Filled (i :: is))
include h ha ha0 hi hf

/-- The least values of the other terms, and what they leave of the right-hand side. -/
theorem most_fits (hlow : low = below + sumOf termMin (a :: as) (i :: is)) (hle : low ≤ rhs) :
    Width.sum.Fits (low - termMin a i) ∧ Width.sum.Fits (rhs - (low - termMin a i)) ∧
      Width.sum.lo < rhs - (low - termMin a i) := by
  obtain ⟨hfit, hi⟩ := List.forall_mem_cons.1 hi
  rw [Filled.cons_iff] at hf
  obtain ⟨hordered, hlo, hhi, hrest⟩ := h
  have hrest := hrest a List.mem_cons_self ha0
  have hsigns := full_signs a
  have hterm := term_bounds ha hfit hf.1
  have hends := extremes_enclose as hi hf.2
  have hle' := sumMin_le_sumMax as hf.2
  rw [lowest_cons] at hlo hrest
  rw [highest_cons] at hhi
  rw [sumOf] at hlow
  simp only [Width.Fits, Width.sum] at hlo hhi hrest ⊢
  omega

include hr in
/-- The greatest values of the other terms, and what they leave of the right-hand side. -/
theorem least_fits (hhigh : high = above + sumOf termMax (a :: as) (i :: is)) (hge : rhs ≤ high) :
    Width.sum.Fits (high - termMax a i) ∧ Width.sum.Fits (rhs - (high - termMax a i)) ∧
      (a = -1 → Width.sum.lo < rhs - (high - termMax a i)) := by
  obtain ⟨hfit, hi⟩ := List.forall_mem_cons.1 hi
  rw [Filled.cons_iff] at hf
  obtain ⟨hordered, hlo, hhi, -⟩ := h
  have hsigns := full_signs a
  have hfull := termMax_full a
  have hterm := term_bounds ha hfit hf.1
  have hends := extremes_enclose as hi hf.2
  have hle' := sumMin_le_sumMax as hf.2
  rw [lowest_cons] at hlo
  rw [highest_cons] at hhi
  rw [sumOf] at hhigh
  simp only [Width.Fits, Width.sum, Width.value] at hlo hhi hr ha ⊢
  split at hfull <;> omega

theorem capTerm_returns (hlow : low = below + sumOf termMin (a :: as) (i :: is))
    (hle : low ≤ rhs) : ∃ j, capTerm rhs low a i = .ok j := by
  obtain ⟨hothers, hslack, hneg⟩ := h.most_fits ha ha0 hi hf hlow hle
  rw [capTerm, if_neg ha0, bind_of_ok (Width.sub_eq_ok.2 ⟨hothers, rfl⟩),
    bind_of_ok (Width.sub_eq_ok.2 ⟨hslack, rfl⟩)]
  split
  · obtain ⟨q, hq⟩ := floorDiv_returns hslack ha0 fun _ => hneg
    exact ⟨_, bind_of_ok hq⟩
  · obtain ⟨q, hq⟩ := ceilDiv_returns hslack ha0 fun _ => hneg
    exact ⟨_, bind_of_ok hq⟩

include hr in
theorem fitTerm_returns (hlow : low = below + sumOf termMin (a :: as) (i :: is))
    (hhigh : high = above + sumOf termMax (a :: as) (i :: is)) (hle : low ≤ rhs)
    (hge : rhs ≤ high) : ∃ j, fitTerm rhs a i low high = .ok j := by
  obtain ⟨hothers, hmost, hneg⟩ := h.most_fits ha ha0 hi hf hlow hle
  obtain ⟨hothers', hleast, hneg'⟩ := h.least_fits hr ha ha0 hi hf hhigh hge
  rw [fitTerm, bind_of_ok (Width.sub_eq_ok.2 ⟨hothers', rfl⟩),
    bind_of_ok (Width.sub_eq_ok.2 ⟨hleast, rfl⟩), bind_of_ok (Width.sub_eq_ok.2 ⟨hothers, rfl⟩),
    bind_of_ok (Width.sub_eq_ok.2 ⟨hmost, rfl⟩)]
  split
  · obtain ⟨m, hm⟩ := ceilDiv_returns hleast ha0 hneg'
    obtain ⟨q, hq⟩ := floorDiv_returns hmost ha0 fun _ => hneg
    exact ⟨_, (bind_of_ok hm).trans (bind_of_ok hq)⟩
  · obtain ⟨m, hm⟩ := ceilDiv_returns hmost ha0 fun _ => hneg
    obtain ⟨q, hq⟩ := floorDiv_returns hleast ha0 hneg'
    exact ⟨_, (bind_of_ok hm).trans (bind_of_ok hq)⟩

end Rests

/-- Every term of an inequality can be confined. -/
theorem capTerms_returns (h : Spans rhs as below above) (has : ∀ a ∈ as, Width.value.Fits a)
    (hi : ∀ i ∈ is, i.Fits) (hf : Filled is) (hlow : low = below + sumOf termMin as is)
    (hle : low ≤ rhs) : ∃ js, capTerms rhs low as is = .ok js := by
  induction as generalizing is below above with
  | nil => exact ⟨is, capTerms_nil_left⟩
  | cons a as ih =>
    cases is with
    | nil => exact ⟨[], capTerms_nil_right⟩
    | cons i is =>
      obtain ⟨ha, has'⟩ := List.forall_mem_cons.1 has
      obtain ⟨hifit, hi'⟩ := List.forall_mem_cons.1 hi
      have hfilled := Filled.cons_iff.1 hf
      obtain ⟨j, hj⟩ : ∃ j, capTerm rhs low a i = .ok j := by
        by_cases ha0 : a = 0
        · exact ⟨i, if_pos ha0⟩
        · exact h.capTerm_returns ha ha0 hi hf hlow hle
      obtain ⟨js, hjs⟩ := ih (h.step hifit hfilled.1) has' hi' hfilled.2
        (by rw [hlow, sumOf, Int.add_assoc])
      exact ⟨j :: js, by rw [capTerms, bind_of_ok hj, bind_of_ok hjs]; rfl⟩

/-- **A pass comes to its end**: the right-hand side stays within the range of the sum, which
follows each term. -/
theorem sweep_returns (h : Spans rhs as below above) (hr : Width.value.Fits rhs)
    (has : ∀ a ∈ as, Width.value.Fits a) (hi : ∀ i ∈ is, i.Fits) (hf : Filled is)
    (hlow : low = below + sumOf termMin as is) (hhigh : high = above + sumOf termMax as is)
    (hle : low ≤ rhs) (hge : rhs ≤ high) : ∃ s, sweep rhs as is low high = .ok s := by
  induction as generalizing is below above low high with
  | nil => exact ⟨_, sweep_nil_left⟩
  | cons a as ih =>
    cases is with
    | nil => exact ⟨_, sweep_nil_right⟩
    | cons i is =>
      obtain ⟨ha, has'⟩ := List.forall_mem_cons.1 has
      obtain ⟨hifit, hi'⟩ := List.forall_mem_cons.1 hi
      have hfilled := Filled.cons_iff.1 hf
      unfold sweep
      split
      · rename_i ha0
        subst ha0
        rw [sumOf, termMin_zero, Int.zero_add] at hlow
        rw [sumOf, termMax_zero, Int.zero_add] at hhigh
        have hstep := h.step hifit hfilled.1
        rw [termMin_zero, termMax_zero, Int.add_zero, Int.add_zero] at hstep
        obtain ⟨s, hs⟩ := ih hstep has' hi' hfilled.2 hlow hhigh hle hge
        exact ⟨_, bind_of_ok hs⟩
      · rename_i ha0
        obtain ⟨j, hj⟩ := h.fitTerm_returns hr ha ha0 hi hf hlow hhigh hle hge
        rw [bind_of_ok hj]
        split
        · exact ⟨_, rfl⟩
        · rename_i hne
          rw [Bool.not_eq_true, Interval.isEmpty_eq_false_iff] at hne
          have hjfit := hifit.of_within (Interval.isWithin_iff.1 (fitTerm_isWithin hj)) hne
          obtain ⟨hle', hge'⟩ := fitTerm_encloses hj ha0 hifit hle hge hne
          obtain ⟨hmin, hmax⟩ := moves_fit ha hifit hfilled.1 hjfit hne
          have hstep := h.step hjfit hne
          obtain ⟨hlowfit, hhighfit⟩ := hstep.sums_fit hi' hfilled.2
          rw [sumOf] at hlow hhigh
          have hlow' : low + (termMin a j - termMin a i) =
              below + termMin a j + sumOf termMin as is := by omega
          have hhigh' : high + (termMax a j - termMax a i) =
              above + termMax a j + sumOf termMax as is := by omega
          obtain ⟨s, hs⟩ := ih hstep has' hi' hfilled.2 hlow' hhigh' hle' hge'
          rw [bind_of_ok (Width.sub_eq_ok.2 ⟨hmin, rfl⟩),
            bind_of_ok (Width.add_eq_ok.2 ⟨hlow' ▸ hlowfit, rfl⟩),
            bind_of_ok (Width.sub_eq_ok.2 ⟨hmax, rfl⟩),
            bind_of_ok (Width.add_eq_ok.2 ⟨hhigh' ▸ hhighfit, rfl⟩), bind_of_ok hs]
          exact ⟨_, rfl⟩

end Spans

/-! ### Runs in range -/

theorem InRange.spans (h : InRange rhs as) : Spans rhs as 0 0 where
  ordered := Int.le_refl 0
  low := by
    rw [Int.zero_add]
    exact h.low
  high := by
    rw [Int.zero_add]
    exact h.high
  rest a ha ha0 := by
    rw [Int.zero_add]
    exact h.rest a ha ha0

/-- Passes over the terms of an equation come to their end. -/
theorem settle_returns (h : InRange rhs as) (hr : Width.value.Fits rhs)
    (has : ∀ a ∈ as, Width.value.Fits a) (hi : ∀ i ∈ is, i.Fits) (hf : Filled is)
    (hlow : low = sumOf termMin as is) (hhigh : high = sumOf termMax as is) :
    ∃ r, settle rhs as is low high = .ok r := by
  fun_induction settle rhs as is low high with
  | case1 | case2 | case4 | case5 => exact ⟨_, rfl⟩
  | case3 is low high hout hne f hsweep =>
    obtain ⟨s, hs⟩ := h.spans.sweep_returns hr has hi hf (hlow.trans (Int.zero_add _).symm)
      (hhigh.trans (Int.zero_add _).symm) (by omega) (by omega)
    rw [hs] at hsweep
    cases hsweep
  | case6 is low high hout hne js l h' hsweep hjs ih =>
    obtain ⟨hw, hf', hl, hh⟩ := sweep_spec hsweep hf
    refine ih (fun j hj => ?_) hf' (by omega) (by omega)
    obtain ⟨i, hi', hb⟩ := hw.exists_of_mem hj
    exact (hi i hi').of_within hb (hf' j hj)

theorem equal_returns (hfit : ParametersFit parameters) (hp : Posed parameters is)
    (h : InRange (parameters.getLastD 0) parameters.dropLast) :
    ∃ r, equal is parameters = .ok r := by
  obtain ⟨hmin, hmax⟩ := totals_return h.low h.high hp.2.2 hp.2.1
  obtain ⟨r, hr⟩ := settle_returns h hfit.getLastD hfit.dropLast hp.2.2 hp.2.1 rfl rfl
  exact ⟨r, equal_eq_ok.2 ⟨hmin, hmax, hr⟩⟩

theorem atMost_returns (hfit : ParametersFit parameters) (hp : Posed parameters is)
    (h : InRange (parameters.getLastD 0) parameters.dropLast) :
    ∃ r, atMost is parameters = .ok r := by
  obtain ⟨hmin, hmax⟩ := totals_return h.low h.high hp.2.2 hp.2.1
  unfold atMost split
  dsimp only
  rw [bind_of_ok hmin]
  split
  · exact ⟨_, rfl⟩
  · rename_i hle
    rw [bind_of_ok hmax]
    split
    · exact ⟨_, rfl⟩
    · obtain ⟨js, hjs⟩ := h.spans.capTerms_returns hfit.dropLast hp.2.2 hp.2.1
        (Int.zero_add _).symm (Int.not_lt.1 hle)
      exact ⟨_, bind_of_ok hjs⟩

/-! ### What a run over free variables needs -/

theorem foldlM_fits {term : Int → Interval → Int} (hacc : Width.sum.Fits acc)
    (h : (as.zip is).foldlM (fun acc t => Width.sum.add acc (term t.1 t.2)) acc = Except.ok s) :
    Width.sum.Fits s := by
  generalize as.zip is = ts at h
  induction ts generalizing acc with
  | nil =>
    obtain rfl := Except.ok.inj h
    exact hacc
  | cons t ts ih =>
    rw [List.foldlM_cons] at h
    obtain ⟨u, hu, h⟩ := bind_eq_ok.1 h
    obtain ⟨hfit, rfl⟩ := Width.add_eq_ok.1 hu
    exact ih hfit h

theorem total_fits {term : Int → Interval → Int} (h : total term as is = .ok s) :
    Width.sum.Fits s := foldlM_fits (by decide) h

theorem sumOf_full (term : Int → Interval → Int) (as : List Int) :
    sumOf term as (List.replicate as.length .full) = (as.map (term · .full)).sum := by
  induction as with
  | nil => rfl
  | cons a as ih =>
    rw [List.length_cons, List.replicate_succ, sumOf, ih, List.map_cons, List.sum_cons]

theorem sumMin_full (as : List Int) :
    sumOf termMin as (List.replicate as.length .full) = lowest as := sumOf_full termMin as

theorem sumMax_full (as : List Int) :
    sumOf termMax as (List.replicate as.length .full) = highest as := sumOf_full termMax as

theorem capTerm_fits (ha : a ≠ 0) (h : capTerm rhs low a i = .ok j) :
    Width.sum.Fits (rhs - (low - termMin a i)) := by
  unfold capTerm at h
  rw [if_neg ha] at h
  obtain ⟨o, ho, h⟩ := bind_eq_ok.1 h
  obtain ⟨t, ht, -⟩ := bind_eq_ok.1 h
  obtain ⟨-, rfl⟩ := Width.sub_eq_ok.1 ho
  exact (Width.sub_eq_ok.1 ht).1

theorem fitTerm_fits (h : fitTerm rhs a i low high = .ok j) :
    Width.sum.Fits (rhs - (low - termMin a i)) := by
  unfold fitTerm at h
  obtain ⟨o, -, h⟩ := bind_eq_ok.1 h
  obtain ⟨p, -, h⟩ := bind_eq_ok.1 h
  obtain ⟨q, hq, h⟩ := bind_eq_ok.1 h
  obtain ⟨t, ht, -⟩ := bind_eq_ok.1 h
  obtain ⟨-, rfl⟩ := Width.sub_eq_ok.1 hq
  exact (Width.sub_eq_ok.1 ht).1

/-- A term that varies by no more than the room on either side stays as it is. -/
theorem fitTerm_eq_self (h : fitTerm rhs a i low high = .ok j) (ha : a ≠ 0) (hi : i.Fits)
    (hf : i.min ≤ i.max) (hlow : termMax a i - termMin a i ≤ rhs - low)
    (hhigh : termMax a i - termMin a i ≤ high - rhs) : j = i := by
  have hw := Interval.isWithin_iff.1 (fitTerm_isWithin h)
  have hle := termMin_le_termMax a hf
  have hkeep {x : Int} (hx : i.min ≤ x ∧ x ≤ i.max) : j.min ≤ x ∧ x ≤ j.max := by
    have hmin := termMin_le (a := a) hx.1 hx.2
    have hmax := le_termMax (a := a) hx.1 hx.2
    exact (mem_fitTerm_iff h ha hi (by omega) (by omega) hx).2 (by omega)
  have hmin := hkeep ⟨Int.le_refl _, hf⟩
  have hmax := hkeep ⟨hf, Int.le_refl _⟩
  exact Interval.ext (by omega) (by omega)

theorem capTerms_full_fits (h : capTerms rhs low as (List.replicate as.length .full) = .ok js) :
    ∀ a ∈ as, a ≠ 0 → Width.sum.Fits (rhs - (low - termMin a .full)) := by
  induction as generalizing js with
  | nil => exact fun a ha => absurd ha List.not_mem_nil
  | cons a as ih =>
    rw [List.length_cons, List.replicate_succ] at h
    obtain ⟨j, js, rfl, hj, hjs⟩ := capTerms_cons h
    exact List.forall_mem_cons.2 ⟨fun ha => capTerm_fits ha hj, ih hjs⟩

/-- As long as no free variable can be narrowed, a pass goes on to the next. -/
theorem sweep_full_fits {t : Sweep}
    (h : sweep rhs as (List.replicate as.length .full) low high = .ok t)
    (hroom : ∀ a ∈ as, termMax a .full - termMin a .full ≤ rhs - low ∧
      termMax a .full - termMin a .full ≤ high - rhs) :
    ∀ a ∈ as, a ≠ 0 → Width.sum.Fits (rhs - (low - termMin a .full)) := by
  induction as generalizing t with
  | nil => exact fun a ha => absurd ha List.not_mem_nil
  | cons a as ih =>
    rw [List.length_cons, List.replicate_succ] at h
    obtain ⟨⟨hlow, hhigh⟩, hrooms⟩ := List.forall_mem_cons.1 hroom
    rcases sweep_cons h with ⟨rfl, u, hu, -⟩ | ⟨ha, j, hj, hcase⟩
    · exact List.forall_mem_cons.2 ⟨fun h0 => absurd rfl h0, ih hu hrooms⟩
    · obtain rfl := fitTerm_eq_self hj ha (by decide) (by decide) hlow hhigh
      rcases hcase with ⟨hlt, -⟩ | ⟨-, u, hu, -⟩
      · exact absurd hlt (by decide)
      · rw [Int.sub_self, Int.sub_self, Int.add_zero, Int.add_zero] at hu
        exact List.forall_mem_cons.2 ⟨fun _ => fitTerm_fits hj, ih hu hrooms⟩

/-! ### How many terms that is -/

/-- The extremes are as far apart as the weight says, and off centre by the weight of the negative
coefficients. -/
theorem extremes_eq (as : List Int) : ∃ n : Int, 0 ≤ n ∧ n ≤ weight as ∧ (∀ a ∈ as, -a ≤ n) ∧
    lowest as = n - 2147483648 * weight as ∧ highest as = n + 2147483647 * weight as := by
  induction as with
  | nil => exact ⟨0, Int.le_refl 0, Int.le_refl 0, List.forall_mem_nil _, rfl, rfl⟩
  | cons a as ih =>
    obtain ⟨n, hn, hle, hneg, hlow, hhigh⟩ := ih
    have hmin := termMin_full a
    have hmax := termMax_full a
    have hweight : weight (a :: as) = a.natAbs + weight as := List.sum_cons
    rw [lowest_cons, highest_cons, hweight]
    by_cases ha : 0 ≤ a
    · rw [if_pos ha] at hmin hmax
      exact ⟨n, hn, by omega, List.forall_mem_cons.2 ⟨by omega, hneg⟩, by omega, by omega⟩
    · rw [if_neg ha] at hmin hmax
      refine ⟨n - a, by omega, by omega, List.forall_mem_cons.2 ⟨by omega, fun b hb => ?_⟩,
        by omega, by omega⟩
      have := hneg b hb
      omega

theorem InRange.of_weight_lt (hr : Width.value.Fits rhs) (h : weight as < 4294967296) :
    InRange rhs as := by
  obtain ⟨n, hn, hle, -, hlow, hhigh⟩ := extremes_eq as
  simp only [Width.Fits, Width.value] at hr
  refine ⟨?_, ?_, fun a _ _ => ?_⟩
  · simp only [Width.sum]
    omega
  · simp only [Width.sum]
    omega
  · have := full_signs a
    simp only [Width.sum]
    omega

theorem InRange.weight_le (h : InRange rhs as) : weight as ≤ 4294967297 := by
  obtain ⟨n, -, -, -, hlow, hhigh⟩ := extremes_eq as
  have hlo := h.low
  have hhi := h.high
  simp only [Width.sum] at hlo hhi
  omega

/-- Where only the rest is out of range, the sums themselves are at both ends of theirs. -/
theorem extremes_of_rest (hr : Width.value.Fits rhs) (hlo : Width.sum.lo ≤ lowest as)
    (hhi : highest as ≤ Width.sum.hi) (ha : a ∈ as) (ha0 : a ≠ 0)
    (hrest : Width.sum.hi < rhs - (lowest as - termMin a .full)) :
    lowest as = Width.sum.lo ∧ highest as = Width.sum.hi ∧ rhs = Width.value.hi := by
  obtain ⟨n, hn, hle, hneg, hlow, hhigh⟩ := extremes_eq as
  have hna := hneg a ha
  have hmin := termMin_full a
  simp only [Width.Fits, Width.value, Width.sum] at *
  split at hmin <;> omega

/-! ### Runs over free variables -/

/-- An inequality that can be run over free variables keeps its sums in range. -/
theorem inRange_of_atMost {r : Narrowing} (hr : Width.value.Fits (parameters.getLastD 0))
    (h : atMost (.replicate parameters.dropLast.length .full) parameters = .ok r) :
    InRange (parameters.getLastD 0) parameters.dropLast := by
  obtain ⟨hlow, hcase⟩ := atMost_cases h
  have hlo := (total_fits hlow).1
  rw [sumMin_full, sumMax_full] at hcase
  rw [sumMin_full] at hlo
  obtain ⟨hbelow, habove⟩ := extremes_balanced parameters.dropLast
  simp only [Width.Fits, Width.value] at hr
  rcases hcase with ⟨hlt, -⟩ | ⟨hle, hhigh, hcase⟩
  · -- a right-hand side below all sums leaves room for little else
    refine ⟨hlo, by simp only [Width.sum]; omega, fun a _ _ => ?_⟩
    have := full_signs a
    simp only [Width.sum]
    omega
  · have hhi := (total_fits hhigh).2
    rcases hcase with ⟨hmax, -⟩ | ⟨-, js, hjs, -⟩
    · refine ⟨hlo, hhi, fun a _ _ => ?_⟩
      have := full_signs a
      simp only [Width.sum]
      omega
    · exact ⟨hlo, hhi, fun a ha ha0 => (capTerms_full_fits hjs a ha ha0).2⟩

/-- An equation that can be run over free variables keeps its sums in range. -/
theorem inRange_of_equal {r : Narrowing} (hfit : ParametersFit parameters)
    (h : equal (.replicate parameters.dropLast.length .full) parameters = .ok r) :
    InRange (parameters.getLastD 0) parameters.dropLast := by
  obtain ⟨hlow, hhigh, hsettle⟩ := equal_eq_ok.1 h
  have hlo := (total_fits hlow).1
  have hhi := (total_fits hhigh).2
  rw [sumMin_full, sumMax_full] at hsettle
  rw [sumMin_full] at hlo
  rw [sumMax_full] at hhi
  refine ⟨hlo, hhi, fun a ha ha0 => ?_⟩
  by_contra hrest
  obtain ⟨hlowest, hhighest, hrhs⟩ :=
    extremes_of_rest hfit.getLastD hlo hhi ha ha0 (Int.not_le.1 hrest)
  rw [hlowest, hhighest, hrhs, settle, if_neg (by decide), if_neg (by decide)] at hsettle
  -- no free term varies by more than the right-hand side is away from either end
  have hroom : ∀ b ∈ parameters.dropLast,
      termMax b .full - termMin b .full ≤ Width.value.hi - Width.sum.lo ∧
        termMax b .full - termMin b .full ≤ Width.sum.hi - Width.value.hi := fun b hb => by
    have hfitb := hfit.dropLast b hb
    rw [termMin_full, termMax_full]
    simp only [Width.Fits, Width.value, Width.sum] at hfitb ⊢
    split <;> omega
  have hfits {t : Sweep} (ht : sweep Width.value.hi parameters.dropLast
      (.replicate parameters.dropLast.length .full) Width.sum.lo Width.sum.hi = .ok t) : False := by
    have := (sweep_full_fits ht hroom a ha ha0).2
    rw [hlowest, hrhs] at hrest
    exact hrest this
  split at hsettle
  · cases hsettle
  · rename_i ht
    exact hfits ht
  · rename_i ht
    exact hfits ht

end Affine

/-! ### All boxes -/

namespace Constraint
open BoundsSolver.Affine

variable {c : Constraint} {parameters : List Int}

theorem posed_full (hc : c = .affineEq ∨ c = .affineLeq) (hne : parameters.dropLast ≠ []) :
    c.Posed parameters (.replicate parameters.dropLast.length .full) where
  valid := by
    have hpos := List.length_pos_iff.2 hne
    have hneed : VariableNeed.oneVariable.metBy
        (List.replicate parameters.dropLast.length Interval.full).length = true := by
      rw [List.length_replicate]
      exact decide_eq_true hpos
    have hlength : parameters.length =
        (List.replicate parameters.dropLast.length Interval.full).length + 1 := by
      rw [List.length_replicate]
      rw [List.length_dropLast] at hpos ⊢
      omega
    rcases hc with rfl | rfl
    all_goals
      exact bind_eq_ok.2 ⟨_, expectVariables_eq_ok.2 hneed, expectParameters_eq_ok.2 hlength⟩
  filled i hi := by
    obtain ⟨-, rfl⟩ := List.mem_replicate.1 hi
    decide
  fits i hi := by
    obtain ⟨-, rfl⟩ := List.mem_replicate.1 hi
    decide

/-- **A linear constraint can be run on every box if and only if its sums stay in range**, which
they do up to a weight of about two to the power of 32, whatever the right-hand side is. -/
theorem affine_faultless_iff (hc : c = .affineEq ∨ c = .affineLeq)
    (hfit : ParametersFit parameters) :
    (∀ a ∈ parameters, ∀ x, Width.value.Fits x → Width.sum.Fits (a * x)) ∧
      ((∀ is, c.Posed parameters is → ∃ r, c.propagate is parameters = .ok r) ↔
        InRange (parameters.getLastD 0) parameters.dropLast) ∧
      (weight parameters.dropLast < 4294967296 →
        InRange (parameters.getLastD 0) parameters.dropLast) ∧
      (InRange (parameters.getLastD 0) parameters.dropLast →
        weight parameters.dropLast ≤ 4294967297) := by
  refine ⟨fun a ha x hx => ?_, ⟨fun h => ?_, fun h is hp => ?_⟩, .of_weight_lt hfit.getLastD,
    InRange.weight_le⟩
  · have := product_bounds (hfit a ha) hx
    simp only [Width.Fits, Width.sum]
    omega
  · by_cases hne : parameters.dropLast = []
    · exact .of_weight_lt hfit.getLastD (by rw [hne]; decide)
    · obtain ⟨r, hr⟩ := h _ (posed_full hc hne)
      rcases hc with rfl | rfl
      · exact inRange_of_equal hfit hr
      · exact inRange_of_atMost hfit.getLastD hr
  · have hposed := affine_posed hc hp
    rcases hc with rfl | rfl
    · exact equal_returns hfit hposed h
    · exact atMost_returns hfit hposed h

/-- Two terms with almost the largest coefficients are not too many. -/
theorem affine_faultless_iff_two :
    (∀ is, affineLeq.Posed [2147483647, -2147483648, 0] is →
      ∃ r, affineLeq.propagate is [2147483647, -2147483648, 0] = .ok r) ∧
    weight [2147483647, -2147483648] = 4294967295 := by
  have hfit : ParametersFit [2147483647, -2147483648, 0] := by unfold ParametersFit; decide
  obtain ⟨-, hruns, hweight, -⟩ := affine_faultless_iff (c := affineLeq) (.inr rfl) hfit
  exact ⟨hruns.2 (hweight (by decide)), rfl⟩

/-- Two terms with the least coefficient of all are, where their variables take the least value:
their sum is two to the power of 63. -/
theorem affine_faults_of_two_terms :
    ParametersFit [-2147483648, -2147483648, 0] ∧
    affineEq.Posed [-2147483648, -2147483648, 0]
      [⟨-2147483648, -2147483648⟩, ⟨-2147483648, -2147483648⟩] ∧
    affineEq.propagate [⟨-2147483648, -2147483648⟩, ⟨-2147483648, -2147483648⟩]
      [-2147483648, -2147483648, 0] = .error .addOverflow ∧
    affineLeq.Posed [-2147483648, -2147483648, 0]
      [⟨-2147483648, -2147483648⟩, ⟨-2147483648, -2147483648⟩] ∧
    affineLeq.propagate [⟨-2147483648, -2147483648⟩, ⟨-2147483648, -2147483648⟩]
      [-2147483648, -2147483648, 0] = .error .addOverflow :=
  ⟨by unfold ParametersFit; decide, ⟨rfl, by unfold Filled; decide, by decide⟩, by decide,
    ⟨rfl, by unfold Filled; decide, by decide⟩, by decide⟩

end Constraint
end BoundsSolver
