/-
# Orders, elements, maxima, counts and conjunctions leave hulls

An exact propagator is bounds consistent (`Exact.boundsConsistent`).  For the propagators that
go through their variables round by round this is said here of whole runs: on everything that
can be posted, a run comes to its end, within so many rounds as there are values and positions
to lose, and without a fault.  In particular none reads an element that is not there.

A conjunction needs no rounds.  Its variables are truth values, of which a hull has no gap, so a
run leaves the values themselves and not only their bounds (`Hull.mem_support_iff`).

What a run answers besides is that nothing is left to do.  An order, a count and a conjunction see
that as soon as it is so (`Lexicographic.propagate_entailed_iff`, `Exactly.settle_entailed_iff`,
`Conjunction.propagate_entailed_iff`); an element and a maximum wait until the variables that
decide them are fixed.
-/

import BoundsSolver.Proofs.Constraint.Completes
import BoundsSolver.Proofs.Constraint.Loops
import BoundsSolver.Proofs.Hull

namespace BoundsSolver

variable {is : List Interval}

/-! ### Lexicographic order -/

namespace Lexicographic

/-- A run that does not fail is entailed exactly if all that is left is ordered. -/
theorem propagate_entailed_iff (parameters : List Int) (hp : Posed is)
    (hs : (propagate is).status ≠ .inconsistent) : (propagate is).status = .entailed ↔
      ∀ vs, Mem vs (propagate is).bounds → Constraint.lexicographicLeq.Holds vs parameters := by
  constructor
  · exact fun he vs hm => (exact parameters).entailed hp rfl he hm
  · intro hall
    obtain ⟨ps, -, hsides, he⟩ := hp.halves
    rw [he] at hs hall ⊢
    obtain ⟨us, ws, hu, hw, -⟩ := (narrow_reached hsides hs).solvable
    -- the assignment that favours the order least is among those that are left
    have hleast := hall _ (hu.filled.mem_maxs.append hw.filled.mem_mins)
    refine (narrow_entailed_iff hs).2 (mayExceed_eq_false_iff.2 ((holds_append_iff ?_).1 hleast))
    rw [List.length_map, List.length_map, length_lefts, length_rights]

/-- A failure leaves no assignment, ordered or not. -/
theorem not_mem_of_inconsistent (hp : Posed is) (hs : (propagate is).status = .inconsistent) :
    ¬ ∃ vs, Mem vs (propagate is).bounds := by
  rintro ⟨vs, hm⟩
  obtain ⟨ps, -, -, he⟩ := hp.halves
  rw [he] at hs hm
  obtain ⟨us, ws, -, hu, hw, -⟩ := mem_halves_iff.1 hm
  exact narrow_inconsistent hs hu.filled hw.filled

/-- **The lexicographic order is bounds consistent**, although only the deciding position is ever
narrowed.  A run that does not fail is entailed exactly if all that is left is ordered, and one
that fails leaves nothing. -/
theorem lexLe_boundsConsistent (hp : Posed is) :
    (∃ ps answer, is = lefts ps ++ rights ps ∧
        EndsWithin turn (weight ps + 1) ([], ps) (.ok answer) ∧
        propagate is = ⟨answer.1, lefts answer.2 ++ rights answer.2⟩) ∧
      BoundsConsistent (Constraint.lexicographicLeq.Holds · []) is (propagate is) ∧
      ((propagate is).status = .inconsistent → ¬ ∃ vs, Mem vs (propagate is).bounds) ∧
      ((propagate is).status ≠ .inconsistent → ((propagate is).status = .entailed ↔
        ∀ vs, Mem vs (propagate is).bounds → Constraint.lexicographicLeq.Holds vs [])) := by
  refine ⟨?_, (exact []).boundsConsistent hp rfl, not_mem_of_inconsistent hp,
    propagate_entailed_iff [] hp⟩
  obtain ⟨ps, his, -, he⟩ := hp.halves
  exact ⟨ps, narrow ps, his, narrow_endsWithin ps, he⟩

/-- A greater suffix makes the order strict, here at the end of the values. -/
theorem lexLe_boundsConsistent_strict :
    propagate [⟨2147483644, 2147483647⟩, ⟨5, 5⟩, ⟨2147483644, 2147483647⟩, ⟨4, 4⟩] =
        ⟨.consistent, [⟨2147483644, 2147483646⟩, ⟨5, 5⟩, ⟨2147483645, 2147483647⟩, ⟨4, 4⟩]⟩ ∧
      BoundsConsistent (Constraint.lexicographicLeq.Holds · [])
        [⟨2147483644, 2147483647⟩, ⟨5, 5⟩, ⟨2147483644, 2147483647⟩, ⟨4, 4⟩]
        ⟨.consistent, [⟨2147483644, 2147483646⟩, ⟨5, 5⟩, ⟨2147483645, 2147483647⟩, ⟨4, 4⟩]⟩ := by
  have hr : propagate [⟨2147483644, 2147483647⟩, ⟨5, 5⟩, ⟨2147483644, 2147483647⟩, ⟨4, 4⟩] =
      ⟨.consistent, [⟨2147483644, 2147483646⟩, ⟨5, 5⟩, ⟨2147483645, 2147483647⟩, ⟨4, 4⟩]⟩ := by
    decide +kernel
  have hp : Posed [⟨2147483644, 2147483647⟩, ⟨5, 5⟩, ⟨2147483644, 2147483647⟩, ⟨4, 4⟩] :=
    ⟨rfl, by unfold Filled; decide, by decide⟩
  obtain ⟨-, hconsistent, -⟩ := lexLe_boundsConsistent hp
  exact ⟨hr, hr ▸ hconsistent⟩

/-- Below the least value there is no room for a strict order. -/
example : (propagate [⟨-2147483648, 0⟩, ⟨5, 5⟩, ⟨-2147483648, -2147483648⟩, ⟨4, 4⟩]).status =
    .inconsistent := by
  decide +kernel

end Lexicographic

/-! ### Elements of a list -/

namespace Element

/-- **An element is bounds consistent**, and a run reads none that is not there, provided that the
elements can be counted by values. -/
theorem element_boundsConsistent (hp : Posed is) (hn : is.length ≤ Width.value.hi + 2) :
    ∃ r, propagate is = .ok r ∧
      (∃ v : Variables, is = v.toList ∧ EndsWithin turn (weight v + 1) v (.ok r)) ∧
      BoundsConsistent (Constraint.elementEq.Holds · []) is r ∧
      (r.status = .entailed → ∀ vs, Mem vs r.bounds → Constraint.elementEq.Holds vs []) := by
  cases hr : propagate is with
  | error f =>
    have hlt := (propagate_eq_error hr).2
    omega
  | ok r =>
    refine ⟨r, rfl, ?_, (exact []).boundsConsistent hp hr,
      fun he vs hm => (exact []).entailed hp hr he hm⟩
    obtain ⟨v, rfl, hne, -⟩ := hp.eq_toList
    rw [propagate_toList hne] at hr
    exact ⟨v, rfl, hr ▸ settle_endsWithin v⟩

/-- Elements that are too small are passed over at the end of the index only, and the value keeps
what lies between two supports. -/
theorem element_boundsConsistent_gap :
    propagate [⟨0, 1⟩, ⟨5, 5⟩, ⟨2, 3⟩, ⟨7, 9⟩, ⟨-3, 10⟩, ⟨4, 8⟩] =
        .ok ⟨.consistent, [⟨0, 1⟩, ⟨5, 5⟩, ⟨2, 3⟩, ⟨7, 9⟩, ⟨1, 3⟩, ⟨5, 8⟩]⟩ ∧
      BoundsConsistent (Constraint.elementEq.Holds · [])
        [⟨0, 1⟩, ⟨5, 5⟩, ⟨2, 3⟩, ⟨7, 9⟩, ⟨-3, 10⟩, ⟨4, 8⟩]
        ⟨.consistent, [⟨0, 1⟩, ⟨5, 5⟩, ⟨2, 3⟩, ⟨7, 9⟩, ⟨1, 3⟩, ⟨5, 8⟩]⟩ := by
  have hr : propagate [⟨0, 1⟩, ⟨5, 5⟩, ⟨2, 3⟩, ⟨7, 9⟩, ⟨-3, 10⟩, ⟨4, 8⟩] =
      .ok ⟨.consistent, [⟨0, 1⟩, ⟨5, 5⟩, ⟨2, 3⟩, ⟨7, 9⟩, ⟨1, 3⟩, ⟨5, 8⟩]⟩ := by
    decide +kernel
  have hp : Posed [⟨0, 1⟩, ⟨5, 5⟩, ⟨2, 3⟩, ⟨7, 9⟩, ⟨-3, 10⟩, ⟨4, 8⟩] :=
    ⟨by decide, by unfold Filled; decide, by decide⟩
  obtain ⟨r, hr', -, hconsistent, -⟩ := element_boundsConsistent hp (by decide)
  obtain rfl := Except.ok.inj (hr'.symm.trans hr)
  exact ⟨hr, hconsistent⟩

end Element

/-! ### The greatest of several variables -/

namespace Maximum

/-- **The maximum is bounds consistent.** -/
theorem max_boundsConsistent (hp : Posed is) :
    (∃ es m, is = es ++ [m] ∧
        EndsWithin turn (totalSize (m :: es) + 1) (es, m) (.ok (propagate is))) ∧
      BoundsConsistent (Constraint.maxEq.Holds · []) is (propagate is) ∧
      ((propagate is).status = .entailed →
        ∀ vs, Mem vs (propagate is).bounds → Constraint.maxEq.Holds vs []) := by
  refine ⟨?_, (exact []).boundsConsistent hp rfl, fun he vs hm => (exact []).entailed hp rfl he hm⟩
  obtain ⟨es, m, rfl, hne, -, -⟩ := hp.eq_concat
  refine ⟨es, m, rfl, ?_⟩
  rw [propagate_concat hne]
  exact settle_endsWithin es m

/-- The only element that reaches the maximum takes over its bounds. -/
theorem max_boundsConsistent_single :
    propagate [⟨0, 2⟩, ⟨0, 9⟩, ⟨5, 7⟩] = ⟨.consistent, [⟨0, 2⟩, ⟨5, 7⟩, ⟨5, 7⟩]⟩ ∧
      BoundsConsistent (Constraint.maxEq.Holds · []) [⟨0, 2⟩, ⟨0, 9⟩, ⟨5, 7⟩]
        ⟨.consistent, [⟨0, 2⟩, ⟨5, 7⟩, ⟨5, 7⟩]⟩ := by
  have hr : propagate [⟨0, 2⟩, ⟨0, 9⟩, ⟨5, 7⟩] =
      ⟨.consistent, [⟨0, 2⟩, ⟨5, 7⟩, ⟨5, 7⟩]⟩ := by decide +kernel
  have hp : Posed [⟨0, 2⟩, ⟨0, 9⟩, ⟨5, 7⟩] := ⟨by decide, by unfold Filled; decide⟩
  obtain ⟨-, hconsistent, -⟩ := max_boundsConsistent hp
  exact ⟨hr, hr ▸ hconsistent⟩

end Maximum

/-! ### Counting a value -/

namespace Exactly

/-- **A count is bounds consistent**, whatever the value and the count are.  A run that does not
fail is entailed exactly if all that is left has the count. -/
theorem count_boundsConsistent (value count : Int) (hp : Posed is) :
    ∃ r, propagate is [value, count] = .ok r ∧
      EndsWithin (turn value count) (totalSize is + 1) is (.ok r) ∧
      BoundsConsistent (fun vs => (vs.count value : Int) = count) is r ∧
      (r.status ≠ .inconsistent → (r.status = .entailed ↔
        ∀ vs, Mem vs r.bounds → (vs.count value : Int) = count)) := by
  obtain ⟨r, hr⟩ : ∃ r, settle value count is = .ok r := settle_total hp
  refine ⟨r, hr, hr ▸ settle_endsWithin value count is, ?_, fun hs => settle_entailed_iff hr hs hp⟩
  exact (exact value count).boundsConsistent hp hr

/-- A value that is spent is removed where it is a bound, and stays between two others. -/
theorem count_boundsConsistent_spent :
    propagate [⟨2, 2⟩, ⟨2, 5⟩, ⟨0, 2⟩, ⟨1, 3⟩] [2, 1] =
        .ok ⟨.consistent, [⟨2, 2⟩, ⟨3, 5⟩, ⟨0, 1⟩, ⟨1, 3⟩]⟩ ∧
      BoundsConsistent (fun vs => (vs.count 2 : Int) = 1) [⟨2, 2⟩, ⟨2, 5⟩, ⟨0, 2⟩, ⟨1, 3⟩]
        ⟨.consistent, [⟨2, 2⟩, ⟨3, 5⟩, ⟨0, 1⟩, ⟨1, 3⟩]⟩ := by
  have hr : propagate [⟨2, 2⟩, ⟨2, 5⟩, ⟨0, 2⟩, ⟨1, 3⟩] [2, 1] =
      .ok ⟨.consistent, [⟨2, 2⟩, ⟨3, 5⟩, ⟨0, 1⟩, ⟨1, 3⟩]⟩ := by decide +kernel
  have hp : Posed [⟨2, 2⟩, ⟨2, 5⟩, ⟨0, 2⟩, ⟨1, 3⟩] := ⟨by unfold Filled; decide, by decide⟩
  obtain ⟨r, hr', -, hconsistent, -⟩ := count_boundsConsistent 2 1 hp
  obtain rfl := Except.ok.inj (hr'.symm.trans hr)
  exact ⟨hr, hconsistent⟩

/-- There is nothing beyond the greatest value, and nothing has to be. -/
example : propagate [⟨2147483647, 2147483647⟩, ⟨-2147483648, 2147483647⟩] [2147483647, 1] =
    .ok ⟨.entailed, [⟨2147483647, 2147483647⟩, ⟨-2147483648, 2147483646⟩]⟩ := by
  decide +kernel

end Exactly

/-! ### Conjunctions -/

namespace Conjunction

/-- A run that does not fail is entailed exactly if all that is left satisfies the relation. -/
theorem propagate_entailed_iff (parameters : List Int) (hp : Posed is)
    (hs : (propagate is).status ≠ .inconsistent) : (propagate is).status = .entailed ↔
      ∀ vs, Mem vs (propagate is).bounds → Constraint.andEq.Holds vs parameters := by
  constructor
  · exact fun he vs hm => (exact parameters).entailed hp rfl he hm
  · intro hall
    obtain ⟨cs, r, rfl, hf, hT⟩ := hp.eq_concat
    rw [propagate_concat] at hs hall ⊢
    split at hs
    · exact absurd rfl hs
    · rename_i he
      rw [if_neg he] at hall ⊢
      rw [Bool.not_eq_true, Interval.isEmpty_eq_false_iff] at he
      dsimp only at hs hall ⊢
      cases hst : (narrowConjuncts cs (narrowResult cs r)).1 with
      | inconsistent => exact absurd hst hs
      | entailed => rfl
      | consistent =>
        obtain ⟨vs, hm, hv⟩ := exists_not_holds parameters hf.1 hT.1 he hst
        exact absurd (hall vs hm) hv

/-- **A conjunction is domain consistent**: what a run leaves of a variable is exactly the values
it takes, and a run that does not fail is entailed exactly if all that is left satisfies the
relation. -/
theorem and_domainConsistent (hp : Posed is) :
    ((propagate is).status = .inconsistent ↔
        ¬ ∃ vs, Mem vs is ∧ Constraint.andEq.Holds vs []) ∧
      ((propagate is).status ≠ .inconsistent →
        (propagate is).bounds.length = is.length ∧
        (∀ k j, (propagate is).bounds[k]? = some j →
          Set.Icc j.min j.max = support (Constraint.andEq.Holds · []) is k) ∧
        ((propagate is).status = .entailed ↔
          ∀ vs, Mem vs (propagate is).bounds → Constraint.andEq.Holds vs [])) := by
  have hconsistent := (exact []).boundsConsistent hp rfl
  refine ⟨hconsistent.inconsistent_iff, fun hs => ?_⟩
  have hull := hconsistent.hull hs
  refine ⟨hull.length, fun k j hj => Set.ext fun v => (hull.mem_support_iff hj ?_).symm,
    propagate_entailed_iff [] hp hs⟩
  -- only truth values are left
  obtain ⟨⟨vs, hm, -, hv⟩, -⟩ := hull.least hj
  obtain ⟨⟨ws, hm', -, hw⟩, -⟩ := hull.greatest hj
  have hk : k < is.length := by
    rw [← hull.length]
    exact (List.getElem?_eq_some_iff.1 hj).1
  have hmin := hm.bounds hv (List.getElem?_eq_getElem hk)
  have hmax := hm'.bounds hw (List.getElem?_eq_getElem hk)
  have := hp.2.2 is[k] (List.getElem_mem hk)
  omega

/-- The only conjunct that can be false is, since the result is. -/
theorem and_domainConsistent_forced :
    propagate [⟨1, 1⟩, ⟨0, 1⟩, ⟨1, 1⟩, ⟨0, 0⟩] =
        ⟨.entailed, [⟨1, 1⟩, ⟨0, 0⟩, ⟨1, 1⟩, ⟨0, 0⟩]⟩ ∧
      Set.Icc 0 0 = support (Constraint.andEq.Holds · []) [⟨1, 1⟩, ⟨0, 1⟩, ⟨1, 1⟩, ⟨0, 0⟩] 1 := by
  have hr : propagate [⟨1, 1⟩, ⟨0, 1⟩, ⟨1, 1⟩, ⟨0, 0⟩] =
      ⟨.entailed, [⟨1, 1⟩, ⟨0, 0⟩, ⟨1, 1⟩, ⟨0, 0⟩]⟩ := by decide +kernel
  have hp : Posed [⟨1, 1⟩, ⟨0, 1⟩, ⟨1, 1⟩, ⟨0, 0⟩] :=
    ⟨by decide, by unfold Filled; decide, by unfold Truth; decide⟩
  obtain ⟨-, hleft⟩ := and_domainConsistent hp
  rw [hr] at hleft
  obtain ⟨-, hvalues, -⟩ := hleft Status.noConfusion
  exact ⟨hr, hvalues 1 ⟨0, 0⟩ rfl⟩

end Conjunction
end BoundsSolver
