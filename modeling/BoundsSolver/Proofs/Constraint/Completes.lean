/-
# Runs of propagators complete

A propagator that is run on the intervals of a posted constraint answers, or stops at a sum or a
quotient that has no representation (`Constraint.propagate_completes`).  In particular it reads
no element that is not there, and no walk over links goes round for ever.

The index of an element constraint is confined to the elements before any of them is read; the
walks over links come to an end since no interval is empty (`AllDifferent.exists_propagate_eq`).
-/

import BoundsSolver.Proofs.Completes
import BoundsSolver.Proofs.Constraint.Contract

namespace BoundsSolver

/-! ### Linear equations and inequalities -/

namespace Affine

theorem total_completes (term : Int → Interval → Int) (as : List Int) (is : List Interval) :
    Completes (total term as is) := by
  unfold total
  exact .foldlM (fun acc t => Width.sum.add_completes acc _) _ 0

theorem capTerm_completes (rhs low a : Int) (i : Interval) : Completes (capTerm rhs low a i) := by
  unfold capTerm
  split
  · exact .ok i
  · refine (Width.sum.sub_completes _ _).bind fun rest _ => ?_
    refine (Width.sum.sub_completes _ _).bind fun slack _ => ?_
    split
    · exact (Width.sum.floorDiv_completes _ _).bind fun _ _ => .ok _
    · exact (Width.sum.ceilDiv_completes _ _).bind fun _ _ => .ok _

theorem capTerms_completes (rhs low : Int) (as : List Int) (is : List Interval) :
    Completes (capTerms rhs low as is) := by
  fun_induction capTerms rhs low as is with
  | case1 a as i is ih =>
    exact (capTerm_completes rhs low a i).bind fun j _ => ih.bind fun js _ => .ok (j :: js)
  | case2 => exact .ok _

theorem atMost_completes (is : List Interval) (parameters : List Int) :
    Completes (atMost is parameters) := by
  refine (total_completes termMin _ is).bind fun low _ => ?_
  split
  · exact .ok _
  · refine (total_completes termMax _ is).bind fun high _ => ?_
    split
    · exact .ok _
    · exact (capTerms_completes _ low _ is).bind fun _ _ => .ok _

theorem fitTerm_completes (rhs a : Int) (i : Interval) (low high : Int) :
    Completes (fitTerm rhs a i low high) := by
  refine (Width.sum.sub_completes _ _).bind fun _ _ => ?_
  refine (Width.sum.sub_completes _ _).bind fun least _ => ?_
  refine (Width.sum.sub_completes _ _).bind fun _ _ => ?_
  refine (Width.sum.sub_completes _ _).bind fun most _ => ?_
  split <;>
  · refine (Width.sum.ceilDiv_completes _ _).bind fun _ _ => ?_
    exact (Width.sum.floorDiv_completes _ _).bind fun _ _ => .ok _

theorem sweep_completes (rhs : Int) (as : List Int) (is : List Interval) (low high : Int) :
    Completes (sweep rhs as is low high) := by
  induction as generalizing is low high with
  | nil => exact .ok _
  | cons a as ih =>
    cases is with
    | nil => exact .ok _
    | cons i is =>
      unfold sweep
      split
      · exact (ih is low high).bind fun _ _ => .ok _
      · refine (fitTerm_completes rhs a i low high).bind fun j _ => ?_
        split
        · exact .ok _
        · refine (Width.sum.sub_completes _ _).bind fun _ _ => ?_
          refine (Width.sum.add_completes _ _).bind fun low' _ => ?_
          refine (Width.sum.sub_completes _ _).bind fun _ _ => ?_
          refine (Width.sum.add_completes _ _).bind fun high' _ => ?_
          exact (ih is low' high').bind fun _ _ => .ok _

theorem settle_completes (rhs : Int) (as : List Int) (is : List Interval) (low high : Int) :
    Completes (settle rhs as is low high) := by
  fun_induction settle rhs as is low high with
  | case1 => exact .ok _
  | case2 => exact .ok _
  | case3 is low high _ _ f hsweep => exact .error (sweep_completes rhs as is low high f hsweep)
  | case4 => exact .ok _
  | case5 => exact .ok _
  | case6 _ _ _ _ _ _ _ _ _ _ ih => exact ih

theorem equal_completes (is : List Interval) (parameters : List Int) :
    Completes (equal is parameters) := by
  refine (total_completes termMin _ is).bind fun low _ => ?_
  refine (total_completes termMax _ is).bind fun high _ => ?_
  exact settle_completes _ _ is low high

end Affine

/-! ### Counting a value -/

namespace Exactly

theorem revise_completes (value : Int) (forced spent : Bool) (i : Interval) :
    Completes (revise value forced spent i) := by
  unfold revise without
  split
  · exact .ok i
  · split
    · exact .ok _
    · split
      · split
        · exact (Width.value.add_completes _ _).bind fun _ _ => .ok _
        · split
          · exact (Width.value.sub_completes _ _).bind fun _ _ => .ok _
          · exact .ok i
      · exact .ok i

theorem pass_completes (value : Int) (forced spent : Bool) (is : List Interval) :
    Completes (pass value forced spent is) := by
  induction is with
  | nil => exact .ok []
  | cons i is ih =>
    exact (revise_completes value forced spent i).bind fun j _ => ih.bind fun js _ => .ok (j :: js)

theorem settle_completes (value count : Int) (is : List Interval) :
    Completes (settle value count is) := by
  fun_induction settle value count is with
  | case1 => exact .ok _
  | case2 => exact .ok _
  | case3 is _ _ f hpass => exact .error (pass_completes value _ _ is f hpass)
  | case4 => exact .ok _
  | case5 _ _ _ _ _ _ ih => exact ih

theorem propagate_completes (is : List Interval) (parameters : List Int) :
    Completes (propagate is parameters) := by
  unfold propagate
  split
  · exact settle_completes _ _ is
  · exact .ok _

end Exactly

/-! ### Elements of a list -/

namespace Element

variable {es : List Interval} {value index : Interval} {v : Variables} {r : Round} {f : Fault}

theorem exists_elementAt {i : Int} (h0 : 0 ≤ i) (hlen : i < es.length) :
    ∃ e, elementAt es i = .ok e :=
  ⟨es[i.toNat], elementAt_eq_ok.2 ⟨h0, List.getElem?_eq_getElem (by omega)⟩⟩

/-- An index within the elements is raised within them, and fails only where there is no greater
value. -/
theorem raiseIndex_eq_error (h0 : 0 ≤ index.min) (hlen : index.max < es.length)
    (h : raiseIndex es value index = .error f) :
    f.isArithmetic = true ∧ Width.value.hi ≤ index.max := by
  fun_induction raiseIndex es value index with
  | case1 => cases h
  | case2 index hle g he =>
    obtain ⟨e, he'⟩ := exists_elementAt h0 (show index.min < es.length by omega)
    rw [he'] at he
    cases he
  | case3 => cases h
  | case4 index hle _ _ _ g hnext =>
    obtain ⟨hfit, rfl⟩ := Width.check_eq_error.1 hnext
    obtain rfl := Except.error.inj h
    simp only [Width.Fits, Width.value] at hfit ⊢
    exact ⟨rfl, by omega⟩
  | case5 _ _ _ _ _ _ _ ih => exact ih (by dsimp only; omega) hlen h

/-- An index within the elements is lowered within them, and fails only where there is no smaller
value. -/
theorem lowerIndex_eq_error (h0 : 0 ≤ index.min) (hlen : index.max < es.length)
    (h : lowerIndex es value index = .error f) :
    f.isArithmetic = true ∧ Width.value.hi ≤ index.max := by
  fun_induction lowerIndex es value index with
  | case1 => cases h
  | case2 index hle g he =>
    obtain ⟨e, he'⟩ := exists_elementAt (show 0 ≤ index.max by omega) hlen
    rw [he'] at he
    cases he
  | case3 => cases h
  | case4 index hle _ _ _ g hnext =>
    obtain ⟨hfit, rfl⟩ := Width.check_eq_error.1 hnext
    obtain rfl := Except.error.inj h
    simp only [Width.Fits, Width.value] at hfit ⊢
    exact ⟨rfl, by omega⟩
  | case5 index _ _ _ _ _ _ ih =>
    obtain ⟨hf, hmax⟩ := ih h0 (by dsimp only; omega) h
    exact ⟨hf, by dsimp only at hmax; omega⟩

theorem exists_unify (h0 : 0 ≤ v.index.min) (hlen : v.index.min < v.elements.length) :
    ∃ r, unify v = .ok r := by
  obtain ⟨e, he⟩ := exists_elementAt h0 hlen
  unfold unify
  rw [he]
  dsimp only
  split
  · exact ⟨_, rfl⟩
  · split <;> exact ⟨_, rfl⟩

/-- **A round reads no element that is not there**; it fails only if there are more elements than
values to count them. -/
theorem round_eq_error (h : round v = .error f) :
    f.isArithmetic = true ∧ Width.value.hi < v.elements.length := by
  have hmin : 0 ≤ ((v.index.tightenMin 0).tightenMax (v.elements.length - 1)).min := by
    rw [Interval.tightenMax_min, Interval.tightenMin_min]
    omega
  have hmax : ((v.index.tightenMin 0).tightenMax (v.elements.length - 1)).max <
      v.elements.length := by
    rw [Interval.tightenMax_max]
    omega
  unfold round at h
  dsimp only at h
  split at h
  · rename_i g hraise
    obtain rfl := Except.error.inj h
    obtain ⟨hf, hlast⟩ := raiseIndex_eq_error hmin hmax hraise
    exact ⟨hf, by omega⟩
  rename_i raised hraised
  have hw := Interval.isWithin_iff.1 (raiseIndex_isWithin hraised)
  split at h
  · rename_i g hlower
    obtain rfl := Except.error.inj h
    obtain ⟨hf, hlast⟩ := lowerIndex_eq_error (by omega) (by omega) hlower
    exact ⟨hf, by omega⟩
  rename_i index hlowered
  have hnarrowed := narrowed_of_eq_ok hraised hlowered
  split at h
  · cases h
  rename_i hne
  rw [Bool.not_eq_true, Interval.isEmpty_eq_false_iff] at hne
  have hcover := covered_eq_ok (v := { v with index }) |>.2
    ⟨⟨hnarrowed.least, hnarrowed.greatest⟩, rfl⟩
  rw [hcover] at h
  dsimp only at h
  split at h
  · obtain ⟨r, hr⟩ := exists_unify (v := v.aim index) hnarrowed.least
      (Int.lt_of_le_of_lt hne hnarrowed.greatest)
    cases hr.symm.trans h
  · cases h

theorem round_length (h : round v = .ok r) : r.after.elements.length = v.elements.length := by
  obtain ⟨index, -, ⟨-, rfl⟩ | ⟨-, rfl⟩ | ⟨-, hu⟩⟩ := round_cases h
  · rfl
  · rfl
  · obtain ⟨e, m, -, -, ⟨-, rfl⟩ | ⟨-, rfl⟩ | ⟨-, rfl⟩⟩ := unify_cases hu
    all_goals exact List.length_set

theorem settle_eq_error (h : settle v = .error f) :
    f.isArithmetic = true ∧ Width.value.hi < v.elements.length := by
  fun_induction settle v with
  | case1 v g hround =>
    obtain rfl := Except.error.inj h
    exact round_eq_error hround
  | case2 => cases h
  | case3 => cases h
  | case4 v w hround _ ih =>
    rw [← round_length hround]
    exact ih h

/-- A run fails only if there are more elements than values to count them. -/
theorem propagate_eq_error {is : List Interval} (h : propagate is = .error f) :
    f.isArithmetic = true ∧ Width.value.hi + 2 < is.length := by
  unfold propagate at h
  split at h
  · rename_i value index es hrev
    split at h
    · cases h
    · obtain ⟨hf, hlt⟩ := settle_eq_error h
      have hlen := congrArg List.length hrev
      simp only [List.length_reverse, List.length_cons] at hlen hlt
      exact ⟨hf, by omega⟩
  · cases h

theorem propagate_completes (is : List Interval) : Completes (propagate is) :=
  fun _ h => (propagate_eq_error h).1

end Element

/-! ### All constraints -/

/-- **A run on the intervals of a posted constraint completes.** -/
theorem Constraint.propagate_completes {c : Constraint} {parameters : List Int}
    {is : List Interval} (h : c.Posed parameters is) : Completes (c.propagate is parameters) := by
  cases c with
  | allDifferent =>
    obtain ⟨r, hr⟩ := AllDifferent.exists_propagate_eq ⟨h.filled, h.fits⟩
    rw [Constraint.propagate, hr]
    exact .ok r
  | affineEq => exact Affine.equal_completes is parameters
  | affineLeq => exact Affine.atMost_completes is parameters
  | andEq => exact .ok _
  | elementEq => exact Element.propagate_completes is
  | exactlyEq => exact Exactly.propagate_completes is parameters
  | lexicographicLeq => exact .ok _
  | maxEq => exact .ok _

end BoundsSolver
