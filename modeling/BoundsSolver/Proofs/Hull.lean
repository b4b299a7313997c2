/-
# Hulls of solutions

The best that bounds can say of a variable are the least and the greatest value it
takes in the assignments of a box that satisfy a relation (`Hull`).  A run is
`BoundsConsistent` if it fails on the boxes without such an assignment only, and
leaves these hulls of all others.

A tight box within another one that loses no solution is made of hulls
(`Hull.of_tight`), hence every `Exact` propagator is bounds consistent
(`Exact.boundsConsistent`).  Where a hull holds two values at most, they are the
values of its variable (`Hull.mem_support_iff`).
-/

import BoundsSolver.Proofs.Contract
import Mathlib.Order.Bounds.Basic

namespace BoundsSolver

/-- The values at position `k` of the assignments of a box that satisfy the relation. -/
def support (P : List Int → Prop) (is : List Interval) (k : Nat) : Set Int :=
  {v | ∃ vs, Mem vs is ∧ P vs ∧ vs[k]? = some v}

/-- Every interval of `js` reaches from the least to the greatest value of its variable in the
assignments of `is` that satisfy the relation. -/
structure Hull (P : List Int → Prop) (is js : List Interval) : Prop where
  length : js.length = is.length
  least : ∀ {k : Nat} {j : Interval}, js[k]? = some j → IsLeast (support P is k) j.min
  greatest : ∀ {k : Nat} {j : Interval}, js[k]? = some j → IsGreatest (support P is k) j.max

/-- A run that fails on the boxes without a solution only, and leaves the hulls of the
solutions of all others. -/
structure BoundsConsistent (P : List Int → Prop) (is : List Interval) (r : Narrowing) : Prop where
  inconsistent_iff : r.status = .inconsistent ↔ ¬ ∃ vs, Mem vs is ∧ P vs
  keeps : ∀ {vs : List Int}, Mem vs is → P vs → Mem vs r.bounds
  hull : r.status ≠ .inconsistent → Hull P is r.bounds

variable {P : List Int → Prop} {is js : List Interval}

/-- **A tight box that loses no solution is made of hulls.** -/
theorem Hull.of_tight (ht : Tight P js) (hw : Within js is)
    (hk : ∀ vs, Mem vs is → P vs → Mem vs js) : Hull P is js where
  length := hw.length_eq
  least {k j} hj := by
    obtain ⟨vs, hm, hP, hv⟩ := ht.least hj
    refine ⟨⟨vs, hm.of_within hw, hP, hv⟩, ?_⟩
    rintro w ⟨ws, hm, hP, hwk⟩
    exact ((hk ws hm hP).bounds hwk hj).1
  greatest {k j} hj := by
    obtain ⟨vs, hm, hP, hv⟩ := ht.greatest hj
    refine ⟨⟨vs, hm.of_within hw, hP, hv⟩, ?_⟩
    rintro w ⟨ws, hm, hP, hwk⟩
    exact ((hk ws hm hP).bounds hwk hj).2

/-- A hull of at most two values has no gap. -/
theorem Hull.mem_support_iff (h : Hull P is js) {k : Nat} {j : Interval} (hj : js[k]? = some j)
    (hw : j.max ≤ j.min + 1) {v : Int} : v ∈ support P is k ↔ j.min ≤ v ∧ v ≤ j.max := by
  obtain ⟨hleast, hlower⟩ := h.least hj
  obtain ⟨hgreatest, hupper⟩ := h.greatest hj
  constructor
  · intro hv
    exact ⟨hlower hv, hupper hv⟩
  · rintro ⟨hmin, hmax⟩
    obtain rfl | rfl : v = j.min ∨ v = j.max := by omega
    · exact hleast
    · exact hgreatest

/-- A run that loses no solution, and leaves a tight box unless it fails. -/
theorem BoundsConsistent.of_tight {r : Narrowing}
    (hk : ∀ vs, Mem vs is → P vs → r.status ≠ .inconsistent ∧ Mem vs r.bounds)
    (hw : r.status ≠ .inconsistent → Within r.bounds is)
    (ht : r.status ≠ .inconsistent → Tight P r.bounds) : BoundsConsistent P is r where
  inconsistent_iff := by
    constructor
    · rintro hs ⟨vs, hm, hP⟩
      exact (hk vs hm hP).1 hs
    · intro hnone
      by_contra hs
      obtain ⟨vs, hm, hP⟩ := (ht hs).solvable
      exact hnone ⟨vs, hm.of_within (hw hs), hP⟩
  keeps hm hP := (hk _ hm hP).2
  hull hs := .of_tight (ht hs) (hw hs) fun vs hm hP => (hk vs hm hP).2

/-- **An exact propagator is bounds consistent.** -/
theorem Exact.boundsConsistent {f : List Interval → Checked Narrowing} {A : List Interval → Prop}
    {r : Narrowing} (h : Exact f P A) (hA : A is) (hr : f is = .ok r) : BoundsConsistent P is r :=
  .of_tight (fun _ hm hP => h.keeps hA hr hm hP) (h.within hA hr) (h.tight hA hr)

end BoundsSolver
