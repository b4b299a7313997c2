/-
# The conjunction is exact

One run leaves the smallest box around the assignments in which the result is 1
exactly if all conjuncts are.  Once the result or some conjunct settles the
relation, every assignment that is left satisfies it (`holds_of_false`); in the
two open cases the bounds are taken by the assignment of all lower bounds, of all
upper bounds, or of the lower bounds with one exception.  In both the relation can
still be violated (`exists_not_holds`).
-/

import BoundsSolver.Proofs.Contract

namespace BoundsSolver
namespace Conjunction

/-- Every interval lies within the truth values. -/
def Truth (is : List Interval) : Prop := ∀ i ∈ is, 0 ≤ i.min ∧ i.max ≤ 1

/-- The intervals on which the conjunction can be run. -/
def Posed (is : List Interval) : Prop := is ≠ [] ∧ Filled is ∧ Truth is

variable {cs ds is : List Interval} {r : Interval} {us vs : List Int} {v : Int}

theorem holds_concat_iff {parameters : List Int} :
    Constraint.andEq.Holds (us ++ [v]) parameters ↔ (v = 1 ↔ ∀ u ∈ us, u = 1) := by
  simp only [Constraint.Holds, List.getLast?_concat, List.dropLast_concat, Option.mem_def,
    Option.some.injEq, forall_eq']

theorem truth_concat_iff : Truth (cs ++ [r]) ↔ Truth cs ∧ 0 ≤ r.min ∧ r.max ≤ 1 := by
  rw [Truth, List.forall_mem_append, List.forall_mem_singleton]
  rfl

theorem filled_concat_iff : Filled (cs ++ [r]) ↔ Filled cs ∧ r.min ≤ r.max := by
  rw [Filled.append_iff]
  exact and_congr_right fun _ => List.forall_mem_singleton

theorem mem_concat_iff : Mem vs (cs ++ [r]) ↔
    ∃ us v, vs = us ++ [v] ∧ Mem us cs ∧ r.min ≤ v ∧ v ≤ r.max := by
  rw [mem_append_iff]
  constructor
  · rintro ⟨us, ws, rfl, hu, hw⟩
    obtain ⟨v, rfl, hv⟩ := mem_singleton_iff.1 hw
    exact ⟨us, v, rfl, hu, hv⟩
  · rintro ⟨us, v, rfl, hu, hv⟩
    exact ⟨us, [v], rfl, hu, mem_singleton_iff.2 ⟨v, rfl, hv⟩⟩

theorem Posed.eq_concat (h : Posed is) : ∃ cs r, is = cs ++ [r] ∧
    (Filled cs ∧ r.min ≤ r.max) ∧ Truth cs ∧ 0 ≤ r.min ∧ r.max ≤ 1 := by
  obtain ⟨hne, hf, hT⟩ := h
  have he := List.dropLast_append_getLast hne
  rw [← he, filled_concat_iff] at hf
  rw [← he, truth_concat_iff] at hT
  exact ⟨is.dropLast, is.getLast hne, he.symm, hf, hT⟩

theorem any_isFalse_iff : cs.any isFalse = true ↔ ∃ c ∈ cs, c.max ≤ 0 := by
  simp only [List.any_eq_true, isFalse, decide_eq_true_eq]

theorem all_isTrue_iff : cs.all isTrue = true ↔ ∀ c ∈ cs, 1 ≤ c.min := by
  simp only [List.all_eq_true, isTrue, decide_eq_true_eq]

/-! ### The result -/

theorem narrowResult_isWithin (cs : List Interval) (r : Interval) :
    (narrowResult cs r).isWithin r := by
  unfold narrowResult
  split
  · exact Interval.tightenMax_isWithin _ _
  · split
    · exact Interval.tightenMin_isWithin _ _
    · exact Interval.isWithin_refl _

theorem narrowResult_keeps (hu : Mem us cs) (hT : Truth cs) (hr : 0 ≤ r.min ∧ r.max ≤ 1)
    (hv : r.min ≤ v ∧ v ≤ r.max) (hP : v = 1 ↔ ∀ u ∈ us, u = 1) :
    (narrowResult cs r).min ≤ v ∧ v ≤ (narrowResult cs r).max := by
  unfold narrowResult
  split
  · rename_i hf
    obtain ⟨c, hc, hc0⟩ := any_isFalse_iff.1 hf
    obtain ⟨u, hu', hcu⟩ := hu.exists_value hc
    have hne : v ≠ 1 := fun h => by have := hP.1 h u hu'; omega
    rw [Interval.tightenMax_min, Interval.tightenMax_max]
    omega
  · split
    · rename_i ht
      have hone : v = 1 := hP.2 fun u hu' => by
        obtain ⟨c, hc, hcu⟩ := hu.exists_interval hu'
        have := all_isTrue_iff.1 ht c hc
        have := hT c hc
        omega
      rw [Interval.tightenMin_min, Interval.tightenMin_max]
      omega
    · exact hv

/-- What the conjuncts settle, the result shows. -/
theorem narrowResult_settled (cs : List Interval) (r : Interval) :
    ((∃ c ∈ cs, c.max ≤ 0) → (narrowResult cs r).max ≤ 0) ∧
      ((∀ c ∈ cs, ¬ c.max ≤ 0) → (∀ c ∈ cs, 1 ≤ c.min) → 1 ≤ (narrowResult cs r).min) := by
  unfold narrowResult
  constructor
  · intro hf
    rw [if_pos (any_isFalse_iff.2 hf), Interval.tightenMax_max]
    omega
  · intro hf ht
    rw [if_neg fun h => by obtain ⟨c, hc, h⟩ := any_isFalse_iff.1 h; exact hf c hc h,
      if_pos (all_isTrue_iff.2 ht), Interval.tightenMin_min]
    omega

/-! ### The conjuncts -/

theorem falsifyFirst_within (cs : List Interval) : Within (falsifyFirst cs) cs := by
  induction cs with
  | nil => exact .refl _
  | cons c cs ih =>
    unfold falsifyFirst
    split
    · exact .cons (Interval.tightenMax_isWithin _ _) (.refl _)
    · exact .cons (Interval.isWithin_refl _) ih

/-- The only conjunct that can be false takes the value that is. -/
theorem falsifyFirst_keeps (hu : Mem us cs) (hone : cs.countP canBeFalse = 1)
    (hlow : ∃ u ∈ us, u ≤ 0) : Mem us (falsifyFirst cs) := by
  induction hu with
  | nil => exact .nil
  | @cons u c us cs hmin hmax h ih =>
    unfold falsifyFirst
    rw [List.countP_cons] at hone
    split
    · rename_i hc
      rw [if_pos hc] at hone
      have hnone : ∀ d ∈ cs, ¬ canBeFalse d = true := List.countP_eq_zero.1 (by omega)
      have hu0 : u ≤ 0 := by
        obtain ⟨w, hw, hw0⟩ := hlow
        rcases List.mem_cons.1 hw with rfl | hw
        · exact hw0
        · obtain ⟨d, hd, hdw⟩ := h.exists_interval hw
          exact absurd (decide_eq_true (by omega)) (hnone d hd)
      exact .cons (by rw [Interval.tightenMax_min]; exact hmin)
        (by rw [Interval.tightenMax_max]; omega) h
    · rename_i hc
      rw [if_neg hc] at hone
      refine .cons hmin hmax (ih hone ?_)
      obtain ⟨w, hw, hw0⟩ := hlow
      rcases List.mem_cons.1 hw with rfl | hw
      · exact absurd (decide_eq_true (by omega)) hc
      · exact ⟨w, hw, hw0⟩

theorem falsifyFirst_exists (h : 0 < cs.countP canBeFalse) : ∃ c ∈ falsifyFirst cs, c.max ≤ 0 := by
  induction cs with
  | nil => cases h
  | cons c cs ih =>
    unfold falsifyFirst
    split
    · exact ⟨_, List.mem_cons_self, by rw [Interval.tightenMax_max]; omega⟩
    · rename_i hc
      rw [List.countP_cons, if_neg hc] at h
      obtain ⟨d, hd, hd0⟩ := ih h
      exact ⟨d, List.mem_cons_of_mem _ hd, hd0⟩

theorem falsifyFirst_filled (hf : Filled cs) (hT : Truth cs) : Filled (falsifyFirst cs) := by
  induction cs with
  | nil => exact hf
  | cons c cs ih =>
    have hc := hT c List.mem_cons_self
    rw [Filled.cons_iff] at hf
    unfold falsifyFirst
    split
    · rename_i h
      have := of_decide_eq_true h
      exact Filled.cons_iff.2 ⟨by rw [Interval.tightenMax_min, Interval.tightenMax_max]; omega, hf.2⟩
    · exact Filled.cons_iff.2 ⟨hf.1, ih hf.2 fun d hd => hT d (List.mem_cons_of_mem _ hd)⟩

theorem map_tightenMin_within (cs : List Interval) (a : Int) :
    Within (cs.map (·.tightenMin a)) cs := by
  induction cs with
  | nil => exact .refl _
  | cons c cs ih => exact .cons (Interval.tightenMin_isWithin _ _) ih

/-! ### Assignments -/

/-- A false conjunct and a false result satisfy the relation, whatever the others are. -/
theorem holds_of_false {parameters : List Int} (hd : ∃ c ∈ ds, c.max ≤ 0) (hr : r.max ≤ 0)
    (hm : Mem vs (ds ++ [r])) : Constraint.andEq.Holds vs parameters := by
  obtain ⟨us, v, rfl, hu, hv⟩ := mem_concat_iff.1 hm
  obtain ⟨c, hc, hc0⟩ := hd
  obtain ⟨u, hu', hcu⟩ := hu.exists_value hc
  rw [holds_concat_iff]
  constructor
  · intro h
    omega
  · intro h
    have := h u hu'
    omega

/-- True conjuncts and a true result satisfy the relation. -/
theorem holds_of_true {parameters : List Int} (hd : ∀ c ∈ ds, 1 ≤ c.min ∧ c.max ≤ 1)
    (hr : 1 ≤ r.min ∧ r.max ≤ 1) (hm : Mem vs (ds ++ [r])) :
    Constraint.andEq.Holds vs parameters := by
  obtain ⟨us, v, rfl, hu, hv⟩ := mem_concat_iff.1 hm
  rw [holds_concat_iff]
  constructor
  · intro _ u hu'
    obtain ⟨c, hc, hcu⟩ := hu.exists_interval hu'
    have := hd c hc
    omega
  · intro _
    omega

/-! ### One run -/

theorem propagate_concat (cs : List Interval) (r : Interval) :
    propagate (cs ++ [r]) =
      if (narrowResult cs r).isEmpty then ⟨.inconsistent, cs ++ [narrowResult cs r]⟩
      else ⟨(narrowConjuncts cs (narrowResult cs r)).1,
        (narrowConjuncts cs (narrowResult cs r)).2 ++ [narrowResult cs r]⟩ := by
  unfold propagate
  rw [List.getLast?_concat, List.dropLast_concat]

/-- What a run comes to if it does not fail, by the result `r` that it leaves. -/
inductive Outcome (cs : List Interval) (r : Interval) : Status → List Interval → Prop
  /-- The result is true, and so are all conjuncts. -/
  | holds : 1 ≤ r.min → (∀ c ∈ cs, ¬ c.max ≤ 0) →
    Outcome cs r .entailed (cs.map (·.tightenMin 1))
  /-- The result is false, and some conjunct is. -/
  | fails {ds : List Interval} : r.max ≤ 0 → (∃ c ∈ ds, c.max ≤ 0) → Within ds cs → Filled ds →
    Outcome cs r .entailed ds
  /-- The result is false, and several conjuncts can be. -/
  | open_ : r.max ≤ 0 → 2 ≤ cs.countP canBeFalse → Outcome cs r .consistent cs
  /-- The result is unknown. -/
  | unknown : r.min < 1 → 0 < r.max → (∀ c ∈ cs, ¬ c.max ≤ 0) → (∃ c ∈ cs, c.min < 1) →
    Outcome cs r .consistent cs

theorem outcome_of_run (hf : Filled cs) (hT : Truth cs)
    (hr : (narrowResult cs r).min ≤ (narrowResult cs r).max)
    (hs : (narrowConjuncts cs (narrowResult cs r)).1 ≠ .inconsistent) :
    Outcome cs (narrowResult cs r) (narrowConjuncts cs (narrowResult cs r)).1
      (narrowConjuncts cs (narrowResult cs r)).2 := by
  obtain ⟨hfalse, htrue⟩ := narrowResult_settled cs r
  revert hs
  generalize narrowResult cs r = r' at *
  unfold narrowConjuncts
  split
  · rename_i h
    intro _
    exact .holds h fun c hc h0 => by have := hfalse ⟨c, hc, h0⟩; omega
  · rename_i hmin
    split
    · rename_i hmax
      split
      · rename_i hany
        intro _
        exact .fails hmax (any_isFalse_iff.1 hany) (.refl _) hf
      · split
        · intro hs
          exact absurd rfl hs
        · rename_i hcount
          intro _
          exact .fails hmax (falsifyFirst_exists (by rw [hcount]; exact Nat.one_pos))
            (falsifyFirst_within cs) (falsifyFirst_filled hf hT)
        · rename_i h₀ h₁
          intro _
          exact .open_ hmax (by
            rcases h : cs.countP canBeFalse with _ | _ | n
            · exact absurd h h₀
            · exact absurd h h₁
            · omega)
    · rename_i hmax
      intro _
      have hnone : ∀ c ∈ cs, ¬ c.max ≤ 0 := fun c hc h0 => hmax (hfalse ⟨c, hc, h0⟩)
      refine .unknown (by omega) (by omega) hnone ?_
      by_contra hall
      push Not at hall
      exact hmin (htrue hnone fun c hc => by have := hall c hc; omega)

theorem Outcome.within {st : Status} (h : Outcome cs r st ds) : Within ds cs := by
  cases h with
  | holds => exact map_tightenMin_within cs 1
  | fails _ _ hw => exact hw
  | open_ => exact .refl _
  | unknown => exact .refl _

/-- What the result says about its conjuncts loses no assignment. -/
theorem narrowConjuncts_keeps (hT : Truth cs) (hr : 0 ≤ r.min ∧ r.max ≤ 1) (hu : Mem us cs)
    (hv : r.min ≤ v ∧ v ≤ r.max) (hP : v = 1 ↔ ∀ u ∈ us, u = 1) :
    (narrowConjuncts cs r).1 ≠ .inconsistent ∧ Mem us (narrowConjuncts cs r).2 := by
  -- a false result leaves some conjunct at zero
  have hlow : r.max ≤ 0 → ∃ u ∈ us, u ≤ 0 := fun h => by
    have hne : ¬ ∀ u ∈ us, u = 1 := fun hall => by have := hP.2 hall; omega
    push Not at hne
    obtain ⟨u, hu', hne⟩ := hne
    obtain ⟨c, hc, hcu⟩ := hu.exists_interval hu'
    have := hT c hc
    exact ⟨u, hu', by omega⟩
  unfold narrowConjuncts
  split
  · rename_i h
    refine ⟨Status.noConfusion, ?_⟩
    have hall := hP.1 (by omega)
    clear hP hlow hT
    induction hu with
    | nil => exact .nil
    | cons hmin hmax _ ih =>
      have hone := hall _ List.mem_cons_self
      exact .cons (by rw [Interval.tightenMin_min]; omega)
        (by rw [Interval.tightenMin_max]; exact hmax)
        (ih fun w hw => hall w (List.mem_cons_of_mem _ hw))
  · split
    · rename_i hmax
      split
      · exact ⟨Status.noConfusion, hu⟩
      · split
        · rename_i hcount
          obtain ⟨u, hu', hu0⟩ := hlow hmax
          obtain ⟨c, hc, hcu⟩ := hu.exists_interval hu'
          exact absurd (decide_eq_true (by omega)) (List.countP_eq_zero.1 hcount c hc)
        · rename_i hcount
          exact ⟨Status.noConfusion, falsifyFirst_keeps hu hcount (hlow hmax)⟩
        · exact ⟨Status.noConfusion, hu⟩
    · exact ⟨Status.noConfusion, hu⟩

/-- An entailed relation holds of whatever is left. -/
theorem Outcome.holds_of_entailed {parameters : List Int} (h : Outcome cs r .entailed ds)
    (hT : Truth cs) (hr : r.max ≤ 1) (hm : Mem vs (ds ++ [r])) :
    Constraint.andEq.Holds vs parameters := by
  cases h with
  | holds hr' hc =>
    refine holds_of_true (fun d hd => ?_) ⟨hr', hr⟩ hm
    obtain ⟨c, hc', rfl⟩ := List.mem_map.1 hd
    have := hT c hc'
    rw [Interval.tightenMin_min, Interval.tightenMin_max]
    omega
  | fails hr' hd => exact holds_of_false hd hr' hm

theorem Outcome.filled {st : Status} (h : Outcome cs r st ds) (hf : Filled cs) : Filled ds := by
  cases h with
  | holds _ hc =>
    intro d hd
    obtain ⟨c, hc', rfl⟩ := List.mem_map.1 hd
    have := hf c hc'
    have := hc c hc'
    rw [Interval.tightenMin_min, Interval.tightenMin_max]
    omega
  | fails _ _ _ hf' => exact hf'
  | open_ => exact hf
  | unknown => exact hf

/-- An open run can still be violated: no conjunct is false, so all can be true beside a result
that is not. -/
theorem exists_not_holds (parameters : List Int) (hf : Filled cs) (hT : Truth cs)
    (hr : (narrowResult cs r).min ≤ (narrowResult cs r).max)
    (hs : (narrowConjuncts cs (narrowResult cs r)).1 = .consistent) :
    ∃ vs, Mem vs ((narrowConjuncts cs (narrowResult cs r)).2 ++ [narrowResult cs r]) ∧
      ¬ Constraint.andEq.Holds vs parameters := by
  have hfalse := (narrowResult_settled cs r).1
  revert hs
  generalize narrowResult cs r = r' at *
  -- in both open cases the conjuncts stay, and none of them is false
  have hviolated (hmin : r'.min < 1) (hnone : ∀ c ∈ cs, ¬ c.max ≤ 0) :
      ∃ vs, Mem vs (cs ++ [r']) ∧ ¬ Constraint.andEq.Holds vs parameters := by
    refine ⟨cs.map Interval.max ++ [r'.min],
      hf.mem_maxs.append (mem_singleton_iff.2 ⟨_, rfl, Int.le_refl _, hr⟩), ?_⟩
    rw [holds_concat_iff]
    intro h
    have hone : r'.min = 1 := h.2 fun u hu => by
      obtain ⟨c, hc, rfl⟩ := List.mem_map.1 hu
      have := hnone c hc
      have := hT c hc
      omega
    omega
  unfold narrowConjuncts
  split
  · intro hs
    cases hs
  · rename_i hmin
    split
    · rename_i hmax
      split
      · intro hs
        cases hs
      · rename_i hany
        split
        · intro hs
          cases hs
        · intro hs
          cases hs
        · intro _
          exact hviolated (by omega) fun c hc h0 => hany (any_isFalse_iff.2 ⟨c, hc, h0⟩)
    · rename_i hmax
      intro _
      exact hviolated (by omega) fun c hc h0 => hmax (hfalse ⟨c, hc, h0⟩)

/-- Two conjuncts that can be false leave one for each value of the other. -/
theorem exists_false_beside {k : Nat} {c : Interval} (hf : Filled cs)
    (hcount : 2 ≤ cs.countP canBeFalse) (hc : cs[k]? = some c) :
    ∃ us, Mem us cs ∧ us[k]? = some c.max ∧ ∃ u ∈ us, u ≤ 0 := by
  obtain ⟨hk, rfl⟩ := List.getElem?_eq_some_iff.1 hc
  have hlen : k < (cs.map Interval.min).length := by rw [List.length_map]; exact hk
  have hset := List.countP_set (p := canBeFalse) (a := ⟨1, 1⟩) hk
  have hpos : 0 < (cs.set k ⟨1, 1⟩).countP canBeFalse := by
    rw [hset, if_neg (show ¬ canBeFalse ⟨1, 1⟩ = true by decide)]
    split <;> omega
  obtain ⟨d, hd, hd0⟩ := List.countP_pos_iff.1 hpos
  obtain ⟨l, hl⟩ := List.mem_iff_getElem?.1 hd
  have hkl : k ≠ l := by
    rintro rfl
    rw [List.getElem?_set_self hk] at hl
    obtain rfl := Option.some.inj hl
    exact absurd hd0 (by decide)
  rw [List.getElem?_set_ne hkl] at hl
  refine ⟨(cs.map Interval.min).set k cs[k].max, hf.mem_mins.set hc (hf _ (List.getElem_mem hk))
    (Int.le_refl _), List.getElem?_set_self hlen, d.min, ?_, of_decide_eq_true hd0⟩
  refine List.mem_iff_getElem?.2 ⟨l, ?_⟩
  rw [List.getElem?_set_ne hkl, List.getElem?_map, hl]
  rfl

theorem getElem?_concat {α : Type} {xs : List α} {x y : α} {k : Nat}
    (h : (xs ++ [x])[k]? = some y) : xs[k]? = some y ∨ k = xs.length ∧ x = y := by
  rw [List.getElem?_append] at h
  split at h
  · exact .inl h
  · rename_i hk
    rw [List.getElem?_singleton] at h
    split at h
    · exact .inr ⟨by omega, Option.some.inj h⟩
    · cases h

section Tight

variable {parameters : List Int} (hf : Filled cs) (hr : r.min ≤ r.max)
include hf hr

/-- With a false result and two conjuncts that can be false, every bound is taken. -/
theorem tight_of_false (hmax : r.max ≤ 0) (hcount : 2 ≤ cs.countP canBeFalse) :
    Tight (Constraint.andEq.Holds · parameters) (cs ++ [r]) := by
  have hmins := (filled_concat_iff.2 ⟨hf, hr⟩).mem_mins
  obtain ⟨c, hc, hc0⟩ := List.countP_pos_iff.1 (show 0 < cs.countP canBeFalse by omega)
  have hc0 : c.min ≤ 0 := of_decide_eq_true hc0
  have hfalse {us : List Int} {v : Int} (hv : v ≤ 0) (hlow : ∃ u ∈ us, u ≤ 0) :
      Constraint.andEq.Holds (us ++ [v]) parameters := by
    obtain ⟨u, hu, hu0⟩ := hlow
    rw [holds_concat_iff]
    constructor
    · intro h
      omega
    · intro h
      have := h u hu
      omega
  have hP : Constraint.andEq.Holds ((cs ++ [r]).map Interval.min) parameters := by
    rw [List.map_append]
    exact hfalse (by omega) ⟨c.min, List.mem_map_of_mem hc, hc0⟩
  refine ⟨⟨_, hmins, hP⟩, fun hi => ⟨_, hmins, hP, by rw [List.getElem?_map, hi]; rfl⟩,
    fun {k i} hi => ?_⟩
  rcases getElem?_concat hi with hi | ⟨rfl, rfl⟩
  · obtain ⟨us, hu, hk, hlow⟩ := exists_false_beside hf hcount hi
    refine ⟨us ++ [r.min], hu.append (mem_singleton_iff.2 ⟨_, rfl, Int.le_refl _, hr⟩),
      hfalse (by omega) hlow, ?_⟩
    rw [List.getElem?_append_left (List.getElem?_eq_some_iff.1 hk).1]
    exact hk
  · refine ⟨cs.map Interval.min ++ [r.max],
      hf.mem_mins.append (mem_singleton_iff.2 ⟨_, rfl, hr, Int.le_refl _⟩),
      hfalse hmax ⟨c.min, List.mem_map_of_mem hc, hc0⟩, ?_⟩
    rw [← List.length_map Interval.min, List.getElem?_concat_length]

/-- With an unknown result, all lower bounds and all upper bounds are conjunctions. -/
theorem tight_of_unknown (hT : Truth cs) (hunit : r.max ≤ 1) (hmin : r.min < 1) (hmax : 0 < r.max)
    (hfalse : ∀ c ∈ cs, ¬ c.max ≤ 0) (htrue : ∃ c ∈ cs, c.min < 1) :
    Tight (Constraint.andEq.Holds · parameters) (cs ++ [r]) := by
  have hfd := filled_concat_iff.2 ⟨hf, hr⟩
  obtain ⟨c, hc, hc1⟩ := htrue
  have hP : Constraint.andEq.Holds ((cs ++ [r]).map Interval.min) parameters := by
    rw [List.map_append, List.map_singleton, holds_concat_iff]
    constructor
    · intro h
      omega
    · intro h
      have := h c.min (List.mem_map_of_mem hc)
      omega
  have hQ : Constraint.andEq.Holds ((cs ++ [r]).map Interval.max) parameters := by
    rw [List.map_append, List.map_singleton, holds_concat_iff]
    refine ⟨fun _ u hu => ?_, fun _ => by omega⟩
    obtain ⟨d, hd, rfl⟩ := List.mem_map.1 hu
    have := hfalse d hd
    have := hT d hd
    omega
  exact ⟨⟨_, hfd.mem_mins, hP⟩,
    fun hi => ⟨_, hfd.mem_mins, hP, by rw [List.getElem?_map, hi]; rfl⟩,
    fun hi => ⟨_, hfd.mem_maxs, hQ, by rw [List.getElem?_map, hi]; rfl⟩⟩

end Tight

theorem Outcome.tight {parameters : List Int} {st : Status} (h : Outcome cs r st ds)
    (hf : Filled cs) (hT : Truth cs) (hr : 0 ≤ r.min ∧ r.max ≤ 1) (hr' : r.min ≤ r.max) :
    Tight (Constraint.andEq.Holds · parameters) (ds ++ [r]) := by
  by_cases hst : st = .entailed
  · subst hst
    exact .of_forall (filled_concat_iff.2 ⟨h.filled hf, hr'⟩)
      fun vs hm => h.holds_of_entailed hT hr.2 hm
  cases h with
  | holds => exact absurd rfl hst
  | fails => exact absurd rfl hst
  | open_ hmax hcount => exact tight_of_false hf hr' hmax hcount
  | unknown hmin hmax hfalse htrue =>
    exact tight_of_unknown hf hr' hT hr.2 hmin hmax hfalse htrue

/-- A run that finds no violation leaves an outcome beside what is left of the result. -/
theorem Posed.exists_outcome (h : Posed is) (hs : (propagate is).status ≠ .inconsistent) :
    ∃ cs r s ds, is = cs ++ [r] ∧ (Filled cs ∧ Truth cs) ∧ (propagate is).bounds = ds ++ [s] ∧
      s.isWithin r = true ∧ (0 ≤ s.min ∧ s.max ≤ 1) ∧ s.min ≤ s.max ∧
        Outcome cs s (propagate is).status ds := by
  obtain ⟨cs, r, rfl, hf, hT⟩ := h.eq_concat
  have hw := narrowResult_isWithin cs r
  have hbounds := Interval.isWithin_iff.1 hw
  refine ⟨cs, r, narrowResult cs r, (narrowConjuncts cs (narrowResult cs r)).2, rfl,
    ⟨hf.1, hT.1⟩, ?_⟩
  rw [propagate_concat] at hs ⊢
  split at hs
  · exact absurd rfl hs
  · rename_i he
    rw [if_neg he]
    rw [Bool.not_eq_true, Interval.isEmpty_eq_false_iff] at he
    exact ⟨rfl, hw, ⟨by omega, by omega⟩, he, outcome_of_run hf.1 hT.1 he hs⟩

/-- **One run leaves the smallest box around the conjunctions.** -/
theorem exact (parameters : List Int) :
    Exact (fun is => .ok (propagate is)) (Constraint.andEq.Holds · parameters) Posed where
  closed := by
    rintro is js ⟨hne, -, hT⟩ hw hf
    refine ⟨fun h => hne ?_, hf, fun j hj => ?_⟩
    · rw [h] at hw
      exact List.length_eq_zero_iff.1 hw.length_eq.symm
    · obtain ⟨i, hi, hij⟩ := hw.exists_of_mem hj
      have := hT i hi
      omega
  within := by
    rintro is _ h ⟨⟩ hs
    obtain ⟨cs, r, s, ds, rfl, -, hb, hsr, -, -, ho⟩ := h.exists_outcome hs
    rw [hb]
    exact ho.within.append (.cons hsr (.refl _))
  keeps := by
    rintro is _ vs h ⟨⟩ hm hP
    obtain ⟨cs, r, rfl, hf, hT⟩ := h.eq_concat
    obtain ⟨us, v, rfl, hu, hv⟩ := mem_concat_iff.1 hm
    rw [holds_concat_iff] at hP
    have hv' := narrowResult_keeps hu hT.1 hT.2 hv hP
    have hw := Interval.isWithin_iff.1 (narrowResult_isWithin cs r)
    have hk := narrowConjuncts_keeps hT.1 ⟨by omega, by omega⟩ hu hv' hP
    rw [propagate_concat, if_neg (by rw [Bool.not_eq_true, Interval.isEmpty_eq_false_iff]; omega)]
    exact ⟨hk.1, hk.2.append (mem_singleton_iff.2 ⟨v, rfl, hv'⟩)⟩
  tight := by
    rintro is _ h ⟨⟩ hs
    obtain ⟨cs, r, s, ds, rfl, ⟨hf, hT⟩, hb, -, hunit, hle, ho⟩ := h.exists_outcome hs
    rw [hb]
    exact ho.tight hf hT hunit hle
  entailed := by
    rintro is _ vs h ⟨⟩ hs hm
    obtain ⟨cs, r, s, ds, rfl, ⟨-, hT⟩, hb, -, hunit, -, ho⟩ :=
      h.exists_outcome (by rw [hs]; exact Status.noConfusion)
    rw [hs] at ho
    rw [hb] at hm
    exact ho.holds_of_entailed hT hunit.2 hm
  again _ _ _ _ _ := ⟨_, rfl⟩

end Conjunction
end BoundsSolver
