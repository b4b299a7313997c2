/-
# Exactly so many variables equal a value

The parameters are the value and the count.  Once the count is reached, the
value is removed from the other variables wherever it is one of their bounds;
once only that many variables can still take the value, they all do.

Each pass counts first and then treats all variables alike; `pass_shrinks` is
why the passes come to an end.
-/

import BoundsSolver.Constraint.Status

namespace BoundsSolver
namespace Exactly

/-- The number of variables that are fixed to the value. -/
def assigned (value : Int) (is : List Interval) : Nat :=
  is.countP fun i => i.isFixed && decide (i.min = value)

/-- The number of variables that can take the value. -/
def possible (value : Int) (is : List Interval) : Nat := is.countP (·.contains value)

/-- Removes the value from an interval that has it as a bound. -/
def without (value : Int) (i : Interval) : Checked Interval :=
  if i.min = value then return i.tightenMin (← Width.value.add value 1)
  else if i.max = value then return i.tightenMax (← Width.value.sub value 1)
  else return i

/-- What a pass does to one variable: `forced` if every variable that can take the
value has to, `spent` if no further variable may. -/
def revise (value : Int) (forced spent : Bool) (i : Interval) : Checked Interval :=
  if !i.contains value || i.isFixed then .ok i
  else if forced then .ok ((i.tightenMin value).tightenMax value)
  else if spent then without value i
  else .ok i

/-- One pass over all variables. -/
def pass (value : Int) (forced spent : Bool) : List Interval → Checked (List Interval)
  | [] => .ok []
  | i :: is => do
    let j ← revise value forced spent i
    let js ← pass value forced spent is
    return j :: js

theorem without_isWithin {value : Int} {i j : Interval} (h : without value i = .ok j) :
    j.isWithin i := by
  unfold without at h
  split at h
  · obtain ⟨_, _, h⟩ := bind_eq_ok.1 h
    obtain rfl := Except.ok.inj h
    exact Interval.tightenMin_isWithin _ _
  · split at h
    · obtain ⟨_, _, h⟩ := bind_eq_ok.1 h
      obtain rfl := Except.ok.inj h
      exact Interval.tightenMax_isWithin _ _
    · obtain rfl := Except.ok.inj h
      exact Interval.isWithin_refl _

theorem revise_shrinks {value : Int} {forced spent : Bool} {i j : Interval}
    (h : revise value forced spent i = .ok j) : j.Shrinks i := by
  have shrinks : ∀ {k : Interval}, k.isWithin i → i.isEmpty = false → k.Shrinks i := by
    intro k hk hi
    by_cases hne : k = i
    · exact .inl hne
    · exact .inr (Interval.size_lt_of_isWithin hk hne hi)
  unfold revise at h
  split at h
  · exact .inl (Except.ok.inj h).symm
  · rename_i hc
    have hi : i.isEmpty = false := by
      simp only [Bool.or_eq_true, Bool.not_eq_true', not_or, Bool.not_eq_false] at hc
      have := Interval.contains_iff.1 hc.1
      rw [Interval.isEmpty_eq_false_iff]; omega
    split at h
    · obtain rfl := Except.ok.inj h
      exact shrinks (Interval.isWithin_trans (Interval.tightenMax_isWithin _ _)
        (Interval.tightenMin_isWithin _ _)) hi
    · split at h
      · exact shrinks (without_isWithin h) hi
      · exact .inl (Except.ok.inj h).symm

/-- **A pass makes progress or changes nothing.** -/
theorem pass_shrinks {value : Int} {forced spent : Bool} {is js : List Interval}
    (h : pass value forced spent is = .ok js) : Shrinks js is := by
  induction is generalizing js with
  | nil => exact .inl (Except.ok.inj h).symm
  | cons i is ih =>
    obtain ⟨j, hj, h⟩ := bind_eq_ok.1 h
    obtain ⟨ks, hks, h⟩ := bind_eq_ok.1 h
    obtain rfl := Except.ok.inj h
    exact .cons (revise_shrinks hj) (ih hks)

/-- Passes over all variables until one changes nothing. -/
def settle (value count : Int) (is : List Interval) : Checked Narrowing :=
  if count < assigned value is ∨ possible value is < count then .ok ⟨.inconsistent, is⟩
  else if assigned value is = possible value is then .ok ⟨.entailed, is⟩
  else
    match _e : pass value (possible value is = count) (assigned value is = count) is with
    | .error f => .error f
    | .ok js => if js = is then .ok ⟨.consistent, is⟩ else settle value count js
termination_by totalSize is
decreasing_by exact (pass_shrinks _e).totalSize_lt ‹_›

/-- Narrows the variables of which exactly `count` equal `value`. -/
def propagate (bounds : List Interval) (parameters : List Int) : Checked Narrowing :=
  match parameters with
  | [value, count] => settle value count bounds
  | _ => .ok ⟨.inconsistent, bounds⟩

end Exactly
end BoundsSolver
