/-
# Values and intervals within intervals

A list of intervals is a box: the values that lie within it position by
position are its assignments (`Mem`), and a box lies within another one if each
of its intervals does (`Within`).  A box in which every interval has a value is
`Filled`.

A box is `Tight` for a relation if each of its bounds is taken by an assignment
of the relation within it, which is what a propagator can achieve at best.  A
box that keeps these assignments keeps the whole tight box (`Tight.within`).
-/

import BoundsSolver.Constraint.Meaning
import Mathlib.Data.List.Forall2

namespace BoundsSolver

/-- Every interval lies within the one at the same position. -/
def Within (js is : List Interval) : Prop :=
  List.Forall₂ (fun j i => j.isWithin i = true) js is

/-- Every interval holds a value. -/
def Filled (is : List Interval) : Prop := ∀ i ∈ is, i.min ≤ i.max

/-- Every bound is a bound of the value that some assignment of the relation takes there. -/
structure Tight (P : List Int → Prop) (is : List Interval) : Prop where
  solvable : ∃ vs, Mem vs is ∧ P vs
  least : ∀ {k : Nat} {i : Interval}, is[k]? = some i →
    ∃ vs, Mem vs is ∧ P vs ∧ vs[k]? = some i.min
  greatest : ∀ {k : Nat} {i : Interval}, is[k]? = some i →
    ∃ vs, Mem vs is ∧ P vs ∧ vs[k]? = some i.max

/-- A filled interval within one of values is one of values. -/
theorem Interval.Fits.of_within {i j : Interval} (h : i.Fits) (hw : i.min ≤ j.min ∧ j.max ≤ i.max)
    (hj : j.min ≤ j.max) : j.Fits := by
  obtain ⟨h₁, h₂⟩ := h
  simp only [Width.Fits] at h₁ h₂
  exact ⟨⟨by omega, by omega⟩, by omega, by omega⟩

section Mem

variable {vs ws : List Int} {is js ks : List Interval}

theorem mem_iff_forall₂ :
    Mem vs is ↔ List.Forall₂ (fun v (i : Interval) => i.min ≤ v ∧ v ≤ i.max) vs is := by
  constructor
  · intro h
    induction h with
    | nil => exact .nil
    | cons hmin hmax _ ih => exact .cons ⟨hmin, hmax⟩ ih
  · intro h
    induction h with
    | nil => exact .nil
    | cons hv _ ih => exact .cons hv.1 hv.2 ih

theorem Mem.length_eq (h : Mem vs is) : vs.length = is.length :=
  (mem_iff_forall₂.1 h).length_eq

/-- Membership position by position. -/
theorem mem_iff_getElem? : Mem vs is ↔ vs.length = is.length ∧
    ∀ {k : Nat} {v : Int} {i : Interval}, vs[k]? = some v → is[k]? = some i →
      i.min ≤ v ∧ v ≤ i.max := by
  rw [mem_iff_forall₂, List.forall₂_iff_get]
  refine and_congr_right fun hlen => ⟨fun h k v i hv hi => ?_, fun h k hv hi => ?_⟩
  · obtain ⟨hkv, rfl⟩ := List.getElem?_eq_some_iff.1 hv
    obtain ⟨hki, rfl⟩ := List.getElem?_eq_some_iff.1 hi
    exact h k hkv hki
  · exact h (List.getElem?_eq_getElem hv) (List.getElem?_eq_getElem hi)

theorem Mem.bounds (h : Mem vs is) {k : Nat} {v : Int} {i : Interval} (hv : vs[k]? = some v)
    (hi : is[k]? = some i) : i.min ≤ v ∧ v ≤ i.max :=
  (mem_iff_getElem?.1 h).2 hv hi

/-- Every position of a box has a value in each of its assignments. -/
theorem Mem.value (h : Mem vs is) {k : Nat} {i : Interval} (hi : is[k]? = some i) :
    ∃ v, vs[k]? = some v ∧ i.min ≤ v ∧ v ≤ i.max := by
  have hk : k < vs.length := by
    rw [h.length_eq]
    exact (List.getElem?_eq_some_iff.1 hi).1
  exact ⟨vs[k], List.getElem?_eq_getElem hk, h.bounds (List.getElem?_eq_getElem hk) hi⟩

theorem mem_cons_iff {v : Int} {i : Interval} :
    Mem (v :: vs) (i :: is) ↔ i.min ≤ v ∧ v ≤ i.max ∧ Mem vs is := by
  constructor
  · intro h
    cases h with
    | cons hmin hmax h => exact ⟨hmin, hmax, h⟩
  · rintro ⟨hmin, hmax, h⟩
    exact .cons hmin hmax h

theorem Mem.append {us : List Int} (h : Mem vs is) (h' : Mem us js) :
    Mem (vs ++ us) (is ++ js) := by
  induction h with
  | nil => exact h'
  | cons hmin hmax _ ih => exact .cons hmin hmax ih

/-- An assignment of two boxes side by side is one of each. -/
theorem mem_append_iff : Mem vs (is ++ js) ↔ ∃ us ws, vs = us ++ ws ∧ Mem us is ∧ Mem ws js := by
  constructor
  · intro h
    induction is generalizing vs with
    | nil => exact ⟨[], vs, rfl, .nil, h⟩
    | cons i is ih =>
      cases h with
      | cons hmin hmax h =>
        obtain ⟨us, ws, rfl, hu, hw⟩ := ih h
        exact ⟨_ :: us, ws, rfl, .cons hmin hmax hu, hw⟩
  · rintro ⟨us, ws, rfl, hu, hw⟩
    exact hu.append hw

theorem mem_singleton_iff {i : Interval} :
    Mem vs [i] ↔ ∃ v, vs = [v] ∧ i.min ≤ v ∧ v ≤ i.max := by
  constructor
  · intro h
    cases h with
    | cons hmin hmax h =>
      cases h
      exact ⟨_, rfl, hmin, hmax⟩
  · rintro ⟨v, rfl, hmin, hmax⟩
    exact .cons hmin hmax .nil

theorem Mem.set (h : Mem vs is) {k : Nat} {v : Int} {i : Interval} (hi : is[k]? = some i)
    (hmin : i.min ≤ v) (hmax : v ≤ i.max) : Mem (vs.set k v) is := by
  refine mem_iff_getElem?.2 ⟨by rw [List.length_set]; exact h.length_eq, fun {l w j} hw hj => ?_⟩
  rw [List.getElem?_set] at hw
  split at hw
  · rename_i hkl
    subst hkl
    rw [hi] at hj
    split at hw
    · obtain rfl := Option.some.inj hw
      obtain rfl := Option.some.inj hj
      exact ⟨hmin, hmax⟩
    · cases hw
  · exact h.bounds hw hj

/-- An assignment whose value lies within a new interval stays one. -/
theorem Mem.narrow (h : Mem vs is) {k : Nat} {v : Int} {j : Interval} (hv : vs[k]? = some v)
    (hj : j.min ≤ v ∧ v ≤ j.max) : Mem vs (is.set k j) := by
  refine mem_iff_getElem?.2 ⟨by rw [List.length_set]; exact h.length_eq, fun {l w i} hw hi => ?_⟩
  rw [List.getElem?_set] at hi
  split at hi
  · rename_i hkl
    subst hkl
    split at hi
    · obtain rfl := Option.some.inj hi
      obtain rfl := Option.some.inj (hv.symm.trans hw)
      exact hj
    · cases hi
  · exact h.bounds hw hi

/-- Every interval of a box has a value in each of its assignments. -/
theorem Mem.exists_value (h : Mem vs is) {i : Interval} (hi : i ∈ is) :
    ∃ v ∈ vs, i.min ≤ v ∧ v ≤ i.max := by
  obtain ⟨k, hk⟩ := List.mem_iff_getElem?.1 hi
  obtain ⟨v, hv, hb⟩ := h.value hk
  exact ⟨v, List.mem_of_getElem? hv, hb⟩

/-- Every value of an assignment lies within an interval of the box. -/
theorem Mem.exists_interval (h : Mem vs is) {v : Int} (hv : v ∈ vs) :
    ∃ i ∈ is, i.min ≤ v ∧ v ≤ i.max := by
  obtain ⟨k, hk⟩ := List.mem_iff_getElem?.1 hv
  have hlt : k < is.length := by
    rw [← h.length_eq]
    exact (List.getElem?_eq_some_iff.1 hk).1
  exact ⟨is[k], List.getElem_mem hlt, h.bounds hk (List.getElem?_eq_getElem hlt)⟩

theorem Filled.cons_iff {i : Interval} : Filled (i :: is) ↔ i.min ≤ i.max ∧ Filled is :=
  List.forall_mem_cons

theorem Filled.append_iff : Filled (is ++ js) ↔ Filled is ∧ Filled js :=
  List.forall_mem_append

/-- The lower bounds of a filled box are one of its assignments. -/
theorem Filled.mem_mins (h : Filled is) : Mem (is.map Interval.min) is := by
  induction is with
  | nil => exact .nil
  | cons i is ih =>
    rw [Filled.cons_iff] at h
    exact .cons (Int.le_refl _) h.1 (ih h.2)

/-- The upper bounds of a filled box are one of its assignments. -/
theorem Filled.mem_maxs (h : Filled is) : Mem (is.map Interval.max) is := by
  induction is with
  | nil => exact .nil
  | cons i is ih =>
    rw [Filled.cons_iff] at h
    exact .cons h.1 (Int.le_refl _) (ih h.2)

/-- A box with an assignment is filled. -/
theorem Mem.filled (h : Mem vs is) : Filled is := by
  induction h with
  | nil => exact fun i hi => absurd hi List.not_mem_nil
  | cons hmin hmax _ ih => exact Filled.cons_iff.2 ⟨Int.le_trans hmin hmax, ih⟩

/-- The intervals of the values themselves hold nothing else. -/
theorem mem_singletons_iff : Mem ws (vs.map Interval.singleton) ↔ ws = vs := by
  constructor
  · intro h
    induction vs generalizing ws with
    | nil => cases h; rfl
    | cons v vs ih =>
      cases h with
      | cons hmin hmax h =>
        rw [ih h, Int.le_antisymm hmax hmin]
        rfl
  · rintro rfl
    induction ws with
    | nil => exact .nil
    | cons v vs ih => exact .cons (Int.le_refl _) (Int.le_refl _) ih

end Mem

section Within

variable {vs : List Int} {is js ks : List Interval}

/-- Inclusion position by position. -/
theorem within_iff_getElem? : Within js is ↔ js.length = is.length ∧
    ∀ {k : Nat} {j i : Interval}, js[k]? = some j → is[k]? = some i →
      i.min ≤ j.min ∧ j.max ≤ i.max := by
  rw [Within, List.forall₂_iff_get]
  refine and_congr_right fun hlen => ⟨fun h k j i hj hi => ?_, fun h k hj hi => ?_⟩
  · obtain ⟨hkj, rfl⟩ := List.getElem?_eq_some_iff.1 hj
    obtain ⟨hki, rfl⟩ := List.getElem?_eq_some_iff.1 hi
    exact Interval.isWithin_iff.1 (h k hkj hki)
  · exact Interval.isWithin_iff.2 (h (List.getElem?_eq_getElem hj) (List.getElem?_eq_getElem hi))

theorem Within.length_eq (h : Within js is) : js.length = is.length := List.Forall₂.length_eq h

theorem Within.bounds (h : Within js is) {k : Nat} {j i : Interval} (hj : js[k]? = some j)
    (hi : is[k]? = some i) : i.min ≤ j.min ∧ j.max ≤ i.max :=
  (within_iff_getElem?.1 h).2 hj hi

theorem Within.cons {j i : Interval} (h : j.isWithin i) (hs : Within js is) :
    Within (j :: js) (i :: is) := List.Forall₂.cons h hs

theorem Within.refl (is : List Interval) : Within is is :=
  List.forall₂_same.2 fun i _ => Interval.isWithin_refl i

theorem Within.append {js' is' : List Interval} (h : Within js is) (h' : Within js' is') :
    Within (js ++ js') (is ++ is') := List.rel_append h h'

theorem Within.trans (h : Within ks js) (h' : Within js is) : Within ks is := by
  refine within_iff_getElem?.2 ⟨h.length_eq.trans h'.length_eq, fun {n k i} hk hi => ?_⟩
  have hn : n < js.length := by
    rw [h'.length_eq]
    exact (List.getElem?_eq_some_iff.1 hi).1
  have h₁ := h.bounds hk (List.getElem?_eq_getElem hn)
  have h₂ := h'.bounds (List.getElem?_eq_getElem hn) hi
  omega

theorem within_set {k : Nat} {i j : Interval} (hi : is[k]? = some i) (hj : j.isWithin i) :
    Within (is.set k j) is := by
  refine within_iff_getElem?.2 ⟨List.length_set, fun {l a b} ha hb => ?_⟩
  rw [List.getElem?_set] at ha
  split at ha
  · rename_i hkl
    subst hkl
    obtain rfl := Option.some.inj (hi.symm.trans hb)
    split at ha
    · obtain rfl := Option.some.inj ha
      exact Interval.isWithin_iff.1 hj
    · cases ha
  · obtain rfl := Option.some.inj (ha.symm.trans hb)
    exact ⟨Int.le_refl _, Int.le_refl _⟩

theorem Filled.set (h : Filled is) {j : Interval} (hj : j.min ≤ j.max) (k : Nat) :
    Filled (is.set k j) := fun i hi => by
  rcases List.mem_or_eq_of_mem_set hi with hi | rfl
  · exact h i hi
  · exact hj

/-- Every interval within a box lies within one of the intervals of the box. -/
theorem Within.exists_of_mem (h : Within js is) {j : Interval} (hj : j ∈ js) :
    ∃ i ∈ is, i.min ≤ j.min ∧ j.max ≤ i.max := by
  obtain ⟨k, hk⟩ := List.mem_iff_getElem?.1 hj
  have hlt : k < is.length := by
    rw [← h.length_eq]
    exact (List.getElem?_eq_some_iff.1 hk).1
  exact ⟨is[k], List.getElem_mem hlt, h.bounds hk (List.getElem?_eq_getElem hlt)⟩

/-- Two boxes within each other are the same. -/
theorem Within.antisymm (h : Within js is) (h' : Within is js) : js = is := by
  refine List.ext_getElem? fun n => ?_
  rcases Nat.lt_or_ge n js.length with hn | hn
  · have hn' : n < is.length := by rw [← h.length_eq]; exact hn
    have h₁ := h.bounds (List.getElem?_eq_getElem hn) (List.getElem?_eq_getElem hn')
    have h₂ := h'.bounds (List.getElem?_eq_getElem hn') (List.getElem?_eq_getElem hn)
    rw [List.getElem?_eq_getElem hn, List.getElem?_eq_getElem hn']
    exact congrArg some (Interval.ext (by omega) (by omega))
  · rw [List.getElem?_eq_none hn, List.getElem?_eq_none (by rw [← h.length_eq]; exact hn)]

/-- The assignments of a box lie within every larger box. -/
theorem Mem.of_within (h : Mem vs js) (hw : Within js is) : Mem vs is := by
  induction hw generalizing vs with
  | nil => exact h
  | cons hj _ ih =>
    cases h with
    | cons hmin hmax h =>
      have := Interval.isWithin_iff.1 hj
      exact .cons (by omega) (by omega) (ih h)

/-- The assignments of a box with one value fixed are assignments of the box with that value. -/
theorem Mem.of_set_singleton {k : Nat} {i : Interval} {x : Int} (hi : is[k]? = some i)
    (hx : i.min ≤ x ∧ x ≤ i.max) (hm : Mem vs (is.set k (.singleton x))) :
    Mem vs is ∧ vs[k]? = some x := by
  refine ⟨hm.of_within (within_set hi (Interval.isWithin_iff.2 hx)), ?_⟩
  have hk := (List.getElem?_eq_some_iff.1 hi).1
  obtain ⟨v, hv, hb⟩ := hm.value (List.getElem?_set_self hk)
  have hb : x ≤ v ∧ v ≤ x := hb
  rw [hv, show v = x by omega]

/-- Values lie within a box just as the intervals that hold nothing else do. -/
theorem mem_iff_within : Mem vs is ↔ Within (vs.map Interval.singleton) is := by
  rw [mem_iff_forall₂, Within, List.forall₂_map_left_iff]
  exact ⟨fun h => h.imp fun _ _ hv => Interval.isWithin_iff.2 hv,
    fun h => h.imp fun _ _ hv => Interval.isWithin_iff.1 hv⟩

theorem filled_singletons (vs : List Int) : Filled (vs.map Interval.singleton) :=
  (mem_singletons_iff.2 (Eq.refl vs)).filled

end Within

namespace Tight

variable {P : List Int → Prop} {is js : List Interval}

theorem filled (h : Tight P is) : Filled is :=
  let ⟨_, hm, _⟩ := h.solvable
  hm.filled

/-- A filled box all of whose assignments satisfy the relation is tight. -/
theorem of_forall (hf : Filled is) (h : ∀ vs, Mem vs is → P vs) : Tight P is where
  solvable := ⟨_, hf.mem_mins, h _ hf.mem_mins⟩
  least hi := ⟨_, hf.mem_mins, h _ hf.mem_mins, by rw [List.getElem?_map, hi]; rfl⟩
  greatest hi := ⟨_, hf.mem_maxs, h _ hf.mem_maxs, by rw [List.getElem?_map, hi]; rfl⟩

/-- A tight box with one value everywhere has a single assignment, which satisfies the
relation. -/
theorem holds_of_fixed (h : Tight P is) (hfix : allFixed is = true) {vs : List Int}
    (hm : Mem vs is) : P vs := by
  obtain ⟨ws, hw, hP⟩ := h.solvable
  have heq : vs = ws := by
    refine List.ext_getElem? fun k => ?_
    rcases Nat.lt_or_ge k is.length with hk | hk
    · obtain ⟨v, hv, hvb⟩ := hm.value (List.getElem?_eq_getElem hk)
      obtain ⟨w, hw', hwb⟩ := hw.value (List.getElem?_eq_getElem hk)
      have := Interval.isFixed_iff.1 (List.all_eq_true.1 hfix _ (List.getElem_mem hk))
      rw [hv, hw', show v = w by omega]
    · rw [List.getElem?_eq_none (by rw [hm.length_eq]; exact hk),
        List.getElem?_eq_none (by rw [hw.length_eq]; exact hk)]
  exact heq ▸ hP

/-- **What keeps the assignments of a tight box keeps the box.** -/
theorem within (h : Tight P js) (hk : ∀ vs, Mem vs js → P vs → Mem vs is) : Within js is := by
  obtain ⟨us, hu, hP⟩ := h.solvable
  refine within_iff_getElem?.2 ⟨hu.length_eq.symm.trans (hk us hu hP).length_eq,
    fun {k j i} hj hi => ?_⟩
  obtain ⟨vs, hv, hPv, hkv⟩ := h.least hj
  obtain ⟨ws, hw, hPw, hkw⟩ := h.greatest hj
  exact ⟨((hk vs hv hPv).bounds hkv hi).1, ((hk ws hw hPw).bounds hkw hi).2⟩

end Tight
end BoundsSolver
