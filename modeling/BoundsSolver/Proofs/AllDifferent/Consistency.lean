/-
# Pairwise distinct variables: what a run answers, and that it does

The two passes leave the hulls of the pairwise distinct assignments, and a run fails
only if there is none (`propagate_boundsConsistent`).

Every access to an array of the passes, every difference of positions and every sum
can fail, and so can a walk along the links; a run on non-empty intervals meets no
such fault (`propagate_returns`), however far out the intervals lie and whether or not
they can be told apart.
-/

import BoundsSolver.Proofs.Constraint.AllDifferent
import BoundsSolver.Proofs.Hull
import Mathlib.Data.List.Permutation

namespace BoundsSolver
namespace AllDifferent

variable {is : List Interval}

/-- **The propagator is bounds consistent**, and it answers `entailed` only if all that is left
is pairwise distinct. -/
theorem propagate_boundsConsistent {r : Narrowing} (hp : Posed is) (hr : propagate is = .ok r) :
    BoundsConsistent List.Nodup is r ∧
      (r.status = .entailed → ∀ vs, Mem vs r.bounds → vs.Nodup) :=
  ⟨(exact []).boundsConsistent hp hr, fun he _ hm => (exact []).entailed hp hr he hm⟩

/-- Two variables that share two values leave the third one the value that is left. -/
theorem propagate_boundsConsistent_three :
    propagate [⟨1, 2⟩, ⟨1, 2⟩, ⟨1, 3⟩] = .ok ⟨.consistent, [⟨1, 2⟩, ⟨1, 2⟩, ⟨3, 3⟩]⟩ ∧
      BoundsConsistent List.Nodup [⟨1, 2⟩, ⟨1, 2⟩, ⟨1, 3⟩]
        ⟨.consistent, [⟨1, 2⟩, ⟨1, 2⟩, ⟨3, 3⟩]⟩ := by
  have hp : Posed [⟨1, 2⟩, ⟨1, 2⟩, ⟨1, 3⟩] := ⟨by unfold Filled; decide, by decide⟩
  have hr : propagate [⟨1, 2⟩, ⟨1, 2⟩, ⟨1, 3⟩] =
      .ok ⟨.consistent, [⟨1, 2⟩, ⟨1, 2⟩, ⟨3, 3⟩]⟩ := by cbv
  exact ⟨hr, (propagate_boundsConsistent hp hr).1⟩

/-- Bounds that can be taken over as they are: no bound is lost when it is read as a value, and
the two of a variable are in order. -/
def Representable (as bs : Array Int) (n : Nat) : Prop :=
  as.size = n ∧ bs.size = n ∧ ∀ {k : Nat} {a b : Int}, as[k]? = some a → bs[k]? = some b →
    Width.value.wrap a = a ∧ Width.value.wrap (b - 1) = b - 1 ∧ a ≤ b - 1

/-- What both passes compute are bounds of the intervals. -/
theorem hallBounds_representable (hp : Posed is) (hne : is ≠ []) {as bs : Array Int}
    (h : hallBounds (is.map (·.min)) (is.map (·.max + 1)) = .ok (some (as, bs))) :
    Representable as bs is.length := by
  rcases hallBounds_spec hp hne with ⟨hnone, -⟩ | ⟨as', bs', hsome, -, has, hbs, hleast⟩
  · rw [hnone] at h
    cases h
  rw [hsome] at h
  cases h
  refine ⟨has, hbs, fun {k a b} ha hb => ?_⟩
  have hk : k < is.length := by
    rw [← has]
    exact (Array.getElem?_eq_some_iff.1 ha).1
  have hi := List.getElem?_eq_getElem hk
  obtain ⟨a', b', ha', hb', hla, hlb⟩ := hleast hi
  obtain rfl := Option.some.inj (ha.symm.trans ha')
  obtain rfl := Option.some.inj (hb.symm.trans hb')
  -- both bounds are values of the variable, so they lie between the bounds it had
  obtain ⟨hmin, hle, hmax⟩ := hla.bounds hlb hi
  obtain ⟨⟨hlo, -⟩, -, hhi⟩ := hp.2 _ (List.mem_of_getElem? hi)
  rw [show 1 - b' - 1 = -b' by omega]
  exact ⟨Width.wrap_eq_self ⟨by omega, by omega⟩, Width.wrap_eq_self ⟨by omega, by omega⟩, hle⟩

/-- **A run on non-empty intervals of values ends without a fault**, and the bounds that the
passes compute for it are values in order. -/
theorem propagate_returns (hp : Posed is) (hne : is ≠ []) :
    (∃ r, propagate is = .ok r) ∧ ∃ highs, (is.mapM fun i => Width.sum.add i.max 1) = .ok highs ∧
      (∃ o, hallBounds (is.map (·.min)) highs = .ok o) ∧
      ∀ {as bs : Array Int}, hallBounds (is.map (·.min)) highs = .ok (some (as, bs)) →
        Representable as bs is.length := by
  refine ⟨exists_propagate_eq hp, _, mapM_max_eq hp.2, ?_, hallBounds_representable hp hne⟩
  rcases hallBounds_spec hp hne with ⟨h, -⟩ | ⟨as, bs, h, -⟩
  · exact ⟨_, h⟩
  · exact ⟨_, h⟩

/-- The intervals may reach to both ends of the values; the first variable is confined to what
the other two leave. -/
theorem propagate_returns_ends :
    (∃ r, propagate [Interval.full, ⟨2147483647, 2147483647⟩, ⟨-2147483648, -2147483648⟩] =
      .ok r) ∧
      hallBounds [-2147483648, 2147483647, -2147483648] [2147483648, 2147483648, -2147483647] =
        .ok (some (#[-2147483647, 2147483647, -2147483648],
          #[2147483647, 2147483648, -2147483647])) ∧
      Representable #[-2147483647, 2147483647, -2147483648]
        #[2147483647, 2147483648, -2147483647] 3 := by
  have hp : Posed [Interval.full, ⟨2147483647, 2147483647⟩, ⟨-2147483648, -2147483648⟩] :=
    ⟨by unfold Filled; decide, by decide⟩
  obtain ⟨hreturns, highs, hhighs, -, hrep⟩ := propagate_returns hp (List.cons_ne_nil _ _)
  obtain rfl : [2147483648, 2147483648, -2147483647] = highs := Except.ok.inj hhighs
  have h : hallBounds [-2147483648, 2147483647, -2147483648]
      [2147483648, 2147483648, -2147483647] = .ok (some (#[-2147483647, 2147483647, -2147483648],
        #[2147483647, 2147483648, -2147483647])) := by cbv
  exact ⟨hreturns, h, hrep h⟩

end AllDifferent
end BoundsSolver
