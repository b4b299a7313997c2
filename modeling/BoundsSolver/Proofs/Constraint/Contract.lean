/-
# What the search relies on in every constraint

`Constraint.Posed` is what a posted constraint can be run on: intervals that pass
the check of posting, hold a value each and stay within the range of values.
`Constraint.contract` is the contract of its propagator there, and
`Constraint.stable_of_quiet` says that its triggers are enough: a stable box stays
stable as long as no bound with a trigger moves.
-/

import BoundsSolver.Problem.Error
import BoundsSolver.Proofs.Constraint.AllDifferent
import BoundsSolver.Proofs.Constraint.Conjunction
import BoundsSolver.Proofs.Constraint.Element
import BoundsSolver.Proofs.Constraint.Equation
import BoundsSolver.Proofs.Constraint.Exactly
import BoundsSolver.Proofs.Constraint.Inequality
import BoundsSolver.Proofs.Constraint.Lexicographic
import BoundsSolver.Proofs.Constraint.Maximum

namespace BoundsSolver
namespace Constraint

variable {c : Constraint} {is js : List Interval} {parameters : List Int}

/-- The intervals on which a constraint with the parameters can be run. -/
structure Posed (c : Constraint) (parameters : List Int) (is : List Interval) : Prop where
  valid : c.validate is parameters = .ok ()
  filled : Filled is
  fits : ∀ i ∈ is, i.Fits

/-! ### What passes the check -/

theorem expectParameters_eq_ok {n : Nat} :
    c.expectParameters parameters n = .ok () ↔ parameters.length = n := by
  unfold expectParameters
  split <;> simp_all

theorem expectVariables_eq_ok {need : VariableNeed} :
    c.expectVariables is need = .ok () ↔ need.metBy is.length = true := by
  unfold expectVariables
  split <;> simp_all

theorem validate_affine (hc : c = .affineEq ∨ c = .affineLeq)
    (h : c.validate is parameters = .ok ()) : parameters.length = is.length + 1 := by
  rcases hc with rfl | rfl
  all_goals
    obtain ⟨_, -, h⟩ := bind_eq_ok.1 h
    exact expectParameters_eq_ok.1 h

theorem validate_conjunction (h : andEq.validate is parameters = .ok ()) :
    2 ≤ is.length ∧ Conjunction.Truth is := by
  obtain ⟨_, -, h⟩ := bind_eq_ok.1 h
  obtain ⟨_, hn, h⟩ := bind_eq_ok.1 h
  refine ⟨of_decide_eq_true (expectVariables_eq_ok.1 hn), fun i hi => ?_⟩
  split at h
  · rename_i hall
    exact Interval.isWithin_iff.1 (List.all_eq_true.1 hall i hi)
  · cases h

theorem validate_element (h : elementEq.validate is parameters = .ok ()) : 3 ≤ is.length := by
  obtain ⟨_, -, h⟩ := bind_eq_ok.1 h
  exact of_decide_eq_true (expectVariables_eq_ok.1 h)

theorem validate_exactly (h : exactlyEq.validate is parameters = .ok ()) :
    ∃ value count, parameters = [value, count] := by
  obtain ⟨_, hp, -⟩ := bind_eq_ok.1 h
  exact List.length_eq_two.1 (expectParameters_eq_ok.1 hp)

theorem validate_lexicographic (h : lexicographicLeq.validate is parameters = .ok ()) :
    is.length % 2 = 0 := by
  obtain ⟨_, -, h⟩ := bind_eq_ok.1 h
  exact (of_decide_eq_true (expectVariables_eq_ok.1 h)).2

theorem validate_maximum (h : maxEq.validate is parameters = .ok ()) : 2 ≤ is.length := by
  obtain ⟨_, -, h⟩ := bind_eq_ok.1 h
  exact of_decide_eq_true (expectVariables_eq_ok.1 h)

/-- The check passes on smaller intervals. -/
theorem validate_of_within (h : c.validate is parameters = .ok ()) (hw : Within js is) :
    c.validate js parameters = .ok () := by
  have hvars {need : VariableNeed} : c.expectVariables js need = c.expectVariables is need := by
    simp only [expectVariables, hw.length_eq]
  cases c with
  | andEq =>
    have hall : (js.all (·.isWithin ⟨0, 1⟩)) = true := by
      refine List.all_eq_true.2 fun j hj => ?_
      obtain ⟨i, hi, hb⟩ := hw.exists_of_mem hj
      have := (validate_conjunction h).2 i hi
      exact Interval.isWithin_iff.2 ⟨by dsimp only; omega, by dsimp only; omega⟩
    obtain ⟨_, hp, h⟩ := bind_eq_ok.1 h
    obtain ⟨_, hn, h⟩ := bind_eq_ok.1 h
    refine bind_eq_ok.2 ⟨_, hp, bind_eq_ok.2 ⟨_, hvars.trans hn, ?_⟩⟩
    rw [if_pos hall]
  | allDifferent | affineEq | affineLeq | elementEq | exactlyEq | lexicographicLeq | maxEq =>
    simp only [validate, hvars, hw.length_eq] at h ⊢
    exact h

namespace Posed

variable (h : c.Posed parameters is)
include h

theorem of_within (hw : Within js is) (hf : Filled js) : c.Posed parameters js where
  valid := validate_of_within h.valid hw
  filled := hf
  fits j hj := by
    obtain ⟨i, hi, hb⟩ := hw.exists_of_mem hj
    exact (h.fits i hi).of_within hb (hf j hj)

end Posed

/-! ### The contracts -/

theorem affine_posed (hc : c = .affineEq ∨ c = .affineLeq) (h : c.Posed parameters is) :
    Affine.Posed parameters is :=
  ⟨validate_affine hc h.valid, h.filled, h.fits⟩

/-- **Every propagator keeps its contract** on what its constraint can be posted on. -/
theorem contract (c : Constraint) (parameters : List Int) :
    Contract (c.propagate · parameters) (c.Holds · parameters) (c.Posed parameters) := by
  cases c with
  | allDifferent =>
    exact (AllDifferent.exact parameters).contract.mono fun h => ⟨h.filled, h.fits⟩
  | affineEq => exact (Affine.equal_contract parameters).mono (affine_posed (.inl rfl))
  | affineLeq => exact (Affine.atMost_contract parameters).mono (affine_posed (.inr rfl))
  | andEq =>
    refine (Conjunction.exact parameters).contract.mono fun {is} h => ?_
    obtain ⟨hlen, hT⟩ := validate_conjunction h.valid
    refine ⟨?_, h.filled, hT⟩
    rintro rfl
    cases hlen
  | elementEq =>
    exact (Element.exact parameters).contract.mono fun h =>
      ⟨validate_element h.valid, h.filled, h.fits⟩
  | exactlyEq =>
    -- Only with two parameters is there anything to run on.
    by_cases hp : ∃ value count, parameters = [value, count]
    · obtain ⟨value, count, rfl⟩ := hp
      exact (Exactly.exact value count).contract.mono fun h => ⟨h.filled, h.fits⟩
    · exact .of_forall_not fun is h => hp (validate_exactly h.valid)
  | lexicographicLeq =>
    exact (Lexicographic.exact parameters).contract.mono fun h =>
      ⟨validate_lexicographic h.valid, h.filled, h.fits⟩
  | maxEq =>
    exact (Maximum.exact parameters).contract.mono fun h => ⟨validate_maximum h.valid, h.filled⟩

/-- If every change of a bound leads to another run, only the box itself is quiet. -/
theorem eq_of_quiet_both (hq : Quiet (List.replicate is.length .both) is js)
    (hlen : js.length = is.length) : js = is := by
  refine List.ext_getElem? fun k => ?_
  by_cases hk : k < is.length
  · have hk' : k < js.length := by omega
    rw [List.getElem?_eq_getElem hk, List.getElem?_eq_getElem hk']
    have ht : (List.replicate is.length Triggers.both)[k]? = some .both := by
      rw [List.getElem?_replicate, if_pos hk]
    have hb {b : Bound} (hon : Triggers.both.on b = true) :=
      hq ht (List.getElem?_eq_getElem hk) (List.getElem?_eq_getElem hk') hon
    exact congrArg some (Interval.ext (hb (b := .min) rfl) (hb (b := .max) rfl))
  · rw [List.getElem?_eq_none (by omega), List.getElem?_eq_none (by omega)]

/-- **The triggers are enough**: a stable box stays stable as long as no bound with a
trigger moves. -/
theorem stable_of_quiet (hp : c.Posed parameters is)
    (hst : Stable (c.propagate · parameters) is) (hw : Within js is) (hf : Filled js)
    (hq : Quiet (c.triggers is.length parameters) is js) :
    Stable (c.propagate · parameters) js := by
  cases c with
  | affineEq => exact Affine.equal_quiet (affine_posed (.inl rfl) hp) hst hw hf hq
  | affineLeq => exact Affine.atMost_quiet (affine_posed (.inr rfl) hp) hst hw hf hq
  | allDifferent | andEq | elementEq | exactlyEq | lexicographicLeq | maxEq =>
    rw [eq_of_quiet_both hq hw.length_eq]
    exact hst

end Constraint
end BoundsSolver
