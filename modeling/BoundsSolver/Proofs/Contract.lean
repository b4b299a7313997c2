/-
# What a search relies on in a propagator

A run is `Stable` on intervals that it accepts and leaves as they are.  The
search only needs the `Contract` of a propagator: it never widens, loses no
assignment of its relation and no stable box, comes to rest in one run, and once
it answers `entailed` it is stable on whatever the search makes of its intervals.

Most propagators are `Exact`: they leave the smallest box around the assignments
of their relation.  `Exact.contract` derives the contract from that, so that such
a propagator is understood without a word about its second run.
-/

import BoundsSolver.Proofs.Completes
import BoundsSolver.Proofs.Within

namespace BoundsSolver

/-- A run accepts the intervals and leaves them as they are. -/
def Stable (f : List Interval → Checked Narrowing) (is : List Interval) : Prop :=
  ∃ r, f is = .ok r ∧ r.status ≠ .inconsistent ∧ r.bounds = is

instance (f : List Interval → Checked Narrowing) (is : List Interval) : Decidable (Stable f is) :=
  inferInstanceAs (Decidable (∃ r, f is = .ok r ∧ r.status ≠ .inconsistent ∧ r.bounds = is))

/-- What a search relies on in a propagator `f` for the relation `P`, on intervals with
the property `A`. -/
structure Contract (f : List Interval → Checked Narrowing) (P : List Int → Prop)
    (A : List Interval → Prop) : Prop where
  /-- A run never widens, and what it accepts has a value left everywhere. -/
  shrinks {is : List Interval} {r : Narrowing} : A is → f is = .ok r →
    r.status ≠ .inconsistent → Within r.bounds is ∧ Filled r.bounds
  /-- No assignment of the relation is lost. -/
  keeps {is : List Interval} {r : Narrowing} {vs : List Int} : A is → f is = .ok r →
    Mem vs is → P vs → r.status ≠ .inconsistent ∧ Mem vs r.bounds
  /-- No stable box is lost. -/
  covers {is js : List Interval} {r : Narrowing} : A is → f is = .ok r → Within js is →
    Filled js → Stable f js → r.status ≠ .inconsistent ∧ Within js r.bounds
  /-- One run is enough. -/
  settles {is : List Interval} {r : Narrowing} : A is → f is = .ok r →
    r.status ≠ .inconsistent → Stable f r.bounds
  /-- An entailed propagator has nothing left to say. -/
  entails {is js : List Interval} {r : Narrowing} : A is → f is = .ok r →
    r.status = .entailed → Within js r.bounds → Filled js → Stable f js
  /-- Values that a run accepts satisfy the relation. -/
  holds {vs : List Int} : A (vs.map Interval.singleton) →
    Stable f (vs.map Interval.singleton) → P vs

/-- A propagator that leaves the smallest box around the assignments of its relation. -/
structure Exact (f : List Interval → Checked Narrowing) (P : List Int → Prop)
    (A : List Interval → Prop) : Prop where
  closed {is js : List Interval} : A is → Within js is → Filled js → A js
  within {is : List Interval} {r : Narrowing} : A is → f is = .ok r →
    r.status ≠ .inconsistent → Within r.bounds is
  keeps {is : List Interval} {r : Narrowing} {vs : List Int} : A is → f is = .ok r →
    Mem vs is → P vs → r.status ≠ .inconsistent ∧ Mem vs r.bounds
  tight {is : List Interval} {r : Narrowing} : A is → f is = .ok r →
    r.status ≠ .inconsistent → Tight P r.bounds
  entailed {is : List Interval} {r : Narrowing} {vs : List Int} : A is → f is = .ok r →
    r.status = .entailed → Mem vs r.bounds → P vs
  /-- What a run leaves, and every tight box within it, can be run on again. -/
  again {is js : List Interval} {r : Narrowing} : A is → f is = .ok r →
    r.status ≠ .inconsistent → Within js r.bounds → Tight P js → ∃ r', f js = .ok r'

namespace Contract

variable {f : List Interval → Checked Narrowing} {P : List Int → Prop}
  {A B : List Interval → Prop}

/-- A contract on more intervals is one on fewer. -/
theorem mono (h : Contract f P A) (hBA : ∀ {is}, B is → A is) : Contract f P B where
  shrinks hB := h.shrinks (hBA hB)
  keeps hB := h.keeps (hBA hB)
  covers hB := h.covers (hBA hB)
  settles hB := h.settles (hBA hB)
  entails hB := h.entails (hBA hB)
  holds hB := h.holds (hBA hB)

/-- Without intervals to run on there is nothing to keep. -/
theorem of_forall_not (h : ∀ is, ¬ A is) : Contract f P A where
  shrinks hA := absurd hA (h _)
  keeps hA := absurd hA (h _)
  covers hA := absurd hA (h _)
  settles hA := absurd hA (h _)
  entails hA := absurd hA (h _)
  holds hA := absurd hA (h _)

end Contract

/-- A smaller box differs only at bounds whose change does not lead to another run. -/
def Quiet (ts : List Triggers) (is js : List Interval) : Prop :=
  ∀ {k : Nat} {t : Triggers} {i j : Interval} {b : Bound}, ts[k]? = some t → is[k]? = some i →
    js[k]? = some j → t.on b = true → j.get b = i.get b

theorem Quiet.of_cons {t : Triggers} {ts : List Triggers} {i j : Interval}
    {is js : List Interval} (h : Quiet (t :: ts) (i :: is) (j :: js)) :
    (∀ b, t.on b = true → j.get b = i.get b) ∧ Quiet ts is js := by
  refine ⟨fun b hb => ?_, fun {k} _ _ _ _ ht hi hj hb => ?_⟩
  · exact h (k := 0) rfl rfl rfl hb
  · exact h (k := k + 1) ht hi hj hb

namespace Exact

variable {f : List Interval → Checked Narrowing} {P : List Int → Prop}
  {A : List Interval → Prop} {is js : List Interval} {r : Narrowing}

/-- A run on a tight box changes nothing. -/
theorem stable_of_tight (h : Exact f P A) (hA : A js) (hr : f js = .ok r) (ht : Tight P js) :
    Stable f js := by
  obtain ⟨vs, hm, hP⟩ := ht.solvable
  have hs := (h.keeps hA hr hm hP).1
  have hback : Within js r.bounds := ht.within fun ws hw hPw => (h.keeps hA hr hw hPw).2
  exact ⟨r, hr, hs, (h.within hA hr hs).antisymm hback⟩

theorem tight_of_stable (h : Exact f P A) (hA : A is) (hs : Stable f is) : Tight P is := by
  obtain ⟨r, hr, hne, rfl⟩ := hs
  exact h.tight hA hr hne

/-- **Exactness is all a search needs.** -/
theorem contract (h : Exact f P A) : Contract f P A where
  shrinks hA hr hs := ⟨h.within hA hr hs, (h.tight hA hr hs).filled⟩
  keeps hA hr hm hP := h.keeps hA hr hm hP
  covers hA hr hw hf hst := by
    have ht := h.tight_of_stable (h.closed hA hw hf) hst
    obtain ⟨vs, hm, hP⟩ := ht.solvable
    refine ⟨(h.keeps hA hr (hm.of_within hw) hP).1, ht.within fun ws hws hPw => ?_⟩
    exact (h.keeps hA hr (hws.of_within hw) hPw).2
  settles hA hr hs := by
    have ht := h.tight hA hr hs
    obtain ⟨r', hr'⟩ := h.again hA hr hs (.refl _) ht
    exact h.stable_of_tight (h.closed hA (h.within hA hr hs) ht.filled) hr' ht
  entails hA hr he hw hf := by
    rename_i js r
    have hs : r.status ≠ .inconsistent := by rw [he]; exact Status.noConfusion
    have ht : Tight P js := .of_forall hf fun vs hm => h.entailed hA hr he (hm.of_within hw)
    obtain ⟨r', hr'⟩ := h.again hA hr hs hw ht
    exact h.stable_of_tight (h.closed hA (hw.trans (h.within hA hr hs)) hf) hr' ht
  holds hA hst := by
    obtain ⟨ws, hm, hP⟩ := (h.tight_of_stable hA hst).solvable
    rw [mem_singletons_iff] at hm
    exact hm ▸ hP

end Exact
end BoundsSolver
