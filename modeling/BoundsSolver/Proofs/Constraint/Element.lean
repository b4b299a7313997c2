/-
# The element constraint is exact

A round drops positions whose element cannot equal the value and parts of the
value that no element can equal, so it loses no assignment (`round_keeps`).  Once
a round changes nothing, both ends of the index point at elements that share a
number with the value, each bound of the value is shared by some element of the
index, and the element at a fixed index is the value itself: every bound is then
taken by an assignment that selects a suitable element (`tight_of_unchanged`).
-/

import BoundsSolver.Proofs.Contract

namespace BoundsSolver
namespace Element

/-- The intervals on which the constraint can be propagated. -/
def Posed (is : List Interval) : Prop := 3 ≤ is.length ∧ Filled is ∧ ∀ i ∈ is, i.Fits

/-- Every variable holds a value. -/
structure Variables.Filled (v : Variables) : Prop where
  elements : BoundsSolver.Filled v.elements
  index : v.index.min ≤ v.index.max
  value : v.value.min ≤ v.value.max

variable {v w : Variables} {es : List Interval} {us vs : List Int} {i x : Int}
  {value index j e : Interval}

theorem holds_iff {parameters : List Int} :
    Constraint.elementEq.Holds (us ++ [i, x]) parameters ↔ 0 ≤ i ∧ us[i.toNat]? = some x := by
  simp only [Constraint.Holds, List.reverse_append, List.reverse_cons, List.reverse_nil,
    List.nil_append, List.cons_append, List.reverse_reverse]

theorem getElem?_index : (us ++ [i, x])[us.length]? = some i := by simp

theorem getElem?_value : (us ++ [i, x])[us.length + 1]? = some x := by simp

theorem exists_of_mem_toList (h : Mem vs v.toList) : ∃ us i x, vs = us ++ [i, x] := by
  obtain ⟨us, ws, rfl, -, hw⟩ := mem_append_iff.1 h
  cases hw with
  | cons _ _ hw =>
    obtain ⟨x, rfl, -⟩ := mem_singleton_iff.1 hw
    exact ⟨us, _, x, rfl⟩

theorem mem_toList_iff : Mem (us ++ [i, x]) v.toList ↔ Mem us v.elements ∧
    (v.index.min ≤ i ∧ i ≤ v.index.max) ∧ v.value.min ≤ x ∧ x ≤ v.value.max := by
  rw [Variables.toList, mem_append_iff]
  constructor
  · rintro ⟨us', ws, heq, hu, hw⟩
    obtain ⟨rfl, rfl⟩ := List.append_inj' heq (by rw [hw.length_eq]; rfl)
    obtain ⟨hmin, hmax, hx⟩ := mem_cons_iff.1 hw
    exact ⟨hu, ⟨hmin, hmax⟩, (mem_cons_iff.1 hx).1, (mem_cons_iff.1 hx).2.1⟩
  · rintro ⟨hu, hi, hx⟩
    exact ⟨us, [i, x], rfl, hu, .cons hi.1 hi.2 (.cons hx.1 hx.2 .nil)⟩

theorem filled_toList_iff : BoundsSolver.Filled v.toList ↔ v.Filled := by
  rw [Variables.toList, Filled.append_iff, Filled.cons_iff, Filled.cons_iff]
  constructor
  · rintro ⟨h₁, h₂, h₃, -⟩
    exact ⟨h₁, h₂, h₃⟩
  · rintro ⟨h₁, h₂, h₃⟩
    exact ⟨h₁, h₂, h₃, fun i hi => absurd hi List.not_mem_nil⟩

theorem within_toList (he : Within w.elements v.elements) (hi : w.index.isWithin v.index)
    (hv : w.value.isWithin v.value) : Within w.toList v.toList :=
  he.append (.cons hi (.cons hv (.refl _)))

/-! ### The index -/

/-- A value that an element and another interval share. -/
theorem intersects_of_mem (he : e.min ≤ x ∧ x ≤ e.max) (hv : value.min ≤ x ∧ x ≤ value.max) :
    e.intersects value = true :=
  Interval.intersects_iff.2 ⟨by omega, by omega⟩

/-- Raising passes over elements that cannot equal the value, up to one that can. -/
theorem raiseIndex_spec (h : raiseIndex es value index = .ok j) (h0 : 0 ≤ index.min) :
    j.max = index.max ∧ index.min ≤ j.min ∧
      (∀ i : Int, index.min ≤ i → i < j.min → i ≤ index.max →
        ∃ e, es[i.toNat]? = some e ∧ ¬ e.intersects value = true) ∧
      (j.min ≤ j.max → ∃ e, es[j.min.toNat]? = some e ∧ e.intersects value = true) := by
  fun_induction raiseIndex es value index with
  | case1 index hlt =>
    obtain rfl := Except.ok.inj h
    exact ⟨rfl, Int.le_refl _, fun i h₁ h₂ => by omega, fun hle => by omega⟩
  | case2 => cases h
  | case3 index hlt e he hint =>
    obtain rfl := Except.ok.inj h
    exact ⟨rfl, Int.le_refl _, fun i h₁ h₂ => by omega,
      fun _ => ⟨e, (elementAt_eq_ok.1 he).2, hint⟩⟩
  | case4 => cases h
  | case5 index hlt e he hint _ _ ih =>
    obtain ⟨hmax, hmin, hout, hin⟩ := ih h (by dsimp only; omega)
    dsimp only at hmax hmin hout
    refine ⟨hmax, by omega, fun i h₁ h₂ h₃ => ?_, hin⟩
    rcases Int.lt_or_eq_of_le h₁ with h₁ | rfl
    · exact hout i (by omega) h₂ h₃
    · exact ⟨e, (elementAt_eq_ok.1 he).2, hint⟩

/-- Lowering passes over elements that cannot equal the value, down to one that can. -/
theorem lowerIndex_spec (h : lowerIndex es value index = .ok j) :
    j.min = index.min ∧ j.max ≤ index.max ∧
      (∀ i : Int, j.max < i → i ≤ index.max → index.min ≤ i →
        ∃ e, es[i.toNat]? = some e ∧ ¬ e.intersects value = true) ∧
      (j.min ≤ j.max → ∃ e, es[j.max.toNat]? = some e ∧ e.intersects value = true) := by
  fun_induction lowerIndex es value index with
  | case1 index hlt =>
    obtain rfl := Except.ok.inj h
    exact ⟨rfl, Int.le_refl _, fun i h₁ h₂ => by omega, fun hle => by omega⟩
  | case2 => cases h
  | case3 index hlt e he hint =>
    obtain rfl := Except.ok.inj h
    exact ⟨rfl, Int.le_refl _, fun i h₁ h₂ => by omega,
      fun _ => ⟨e, (elementAt_eq_ok.1 he).2, hint⟩⟩
  | case4 => cases h
  | case5 index hlt e he hint _ _ ih =>
    obtain ⟨hmin, hmax, hout, hin⟩ := ih h
    dsimp only at hmax hmin hout
    refine ⟨hmin, by omega, fun i h₁ h₂ h₃ => ?_, hin⟩
    rcases Int.lt_or_eq_of_le h₂ with h₂ | rfl
    · exact hout i h₁ (by omega) h₃
    · exact ⟨e, (elementAt_eq_ok.1 he).2, hint⟩

/-- The index after a round: within the elements, with a possible element at both ends,
and without a position that an assignment selects left out. -/
structure Narrowed (v : Variables) (index : Interval) : Prop where
  isWithin : index.isWithin v.index
  least : 0 ≤ index.min
  greatest : index.max < v.elements.length
  first : index.min ≤ index.max →
    ∃ e, v.elements[index.min.toNat]? = some e ∧ e.intersects v.value = true
  last : index.min ≤ index.max →
    ∃ e, v.elements[index.max.toNat]? = some e ∧ e.intersects v.value = true
  keeps : ∀ {i : Int} {e : Interval}, v.index.min ≤ i → i ≤ v.index.max → 0 ≤ i →
    v.elements[i.toNat]? = some e → e.intersects v.value = true → index.min ≤ i ∧ i ≤ index.max

theorem narrowed_of_eq_ok {raised : Interval}
    (h : raiseIndex v.elements v.value
      ((v.index.tightenMin 0).tightenMax (v.elements.length - 1)) = .ok raised)
    (h' : lowerIndex v.elements v.value raised = .ok index) : Narrowed v index := by
  have hstart := Interval.isWithin_trans
    (Interval.tightenMax_isWithin (v.index.tightenMin 0) (v.elements.length - 1))
    (Interval.tightenMin_isWithin v.index 0)
  have hw := Interval.isWithin_trans (lowerIndex_isWithin h')
    (Interval.isWithin_trans (raiseIndex_isWithin h) hstart)
  obtain ⟨hrmax, hrmin, hrout, hrin⟩ := raiseIndex_spec h
    (by rw [Interval.tightenMax_min, Interval.tightenMin_min]; omega)
  obtain ⟨hlmin, hlmax, hlout, hlin⟩ := lowerIndex_spec h'
  rw [Interval.tightenMax_max, Interval.tightenMin_max] at hrmax hrout
  rw [Interval.tightenMax_min, Interval.tightenMin_min] at hrmin hrout
  refine ⟨hw, by omega, by omega, fun hle => ?_, hlin, fun {i e} hmin hmax h0 he hint => ?_⟩
  · rw [hlmin]
    exact hrin (by omega)
  · have hlen := (List.getElem?_eq_some_iff.1 he).1
    have hlt : raised.min ≤ i := by
      by_contra hlt
      obtain ⟨e', he', hn⟩ := hrout i (by omega) (by omega) (by omega)
      obtain rfl := Option.some.inj (he.symm.trans he')
      exact hn hint
    refine ⟨by omega, ?_⟩
    by_contra hgt
    obtain ⟨e', he', hn⟩ := hlout i (by omega) (by omega) (by omega)
    obtain rfl := Option.some.inj (he.symm.trans he')
    exact hn hint

/-! ### The value -/

theorem hull_isWithin {is : List Interval} {h i : Interval} (e : hull is = some h)
    (hi : i ∈ is) : h.min ≤ i.min ∧ i.max ≤ h.max := by
  cases is with
  | nil => cases e
  | cons d is =>
    simp only [hull, Option.some.injEq] at e
    subst e
    induction is generalizing d i with
    | nil =>
      obtain rfl := List.mem_singleton.1 hi
      exact ⟨Int.le_refl _, Int.le_refl _⟩
    | cons c is ih =>
      rw [List.foldl_cons]
      have around {j : Interval} := ih (i := j) ⟨min d.min c.min, max d.max c.max⟩
      have first := around List.mem_cons_self
      dsimp only at first
      rcases List.mem_cons.1 hi with rfl | hi
      · omega
      · rcases List.mem_cons.1 hi with rfl | hi
        · omega
        · exact around (List.mem_cons_of_mem _ hi)

theorem mem_supports_iff (h0 : 0 ≤ v.index.min) : e ∈ supports v ↔ ∃ i : Int,
    (v.index.min ≤ i ∧ i ≤ v.index.max) ∧ v.elements[i.toNat]? = some e ∧
      e.intersects v.value = true := by
  rw [supports, List.mem_filter, List.mem_iff_getElem?]
  constructor
  · rintro ⟨⟨n, hn⟩, hint⟩
    rw [List.getElem?_take] at hn
    split at hn
    · rename_i hlt
      rw [List.getElem?_drop] at hn
      simp only [Interval.size] at hlt
      refine ⟨v.index.min + n, by omega, ?_, hint⟩
      rw [show (v.index.min + n).toNat = v.index.min.toNat + n by omega]
      exact hn
    · cases hn
  · rintro ⟨i, hi, he, hint⟩
    refine ⟨⟨i.toNat - v.index.min.toNat, ?_⟩, hint⟩
    rw [List.getElem?_take, if_pos (by simp only [Interval.size]; omega), List.getElem?_drop,
      show v.index.min.toNat + (i.toNat - v.index.min.toNat) = i.toNat by omega]
    exact he

/-- The value keeps what it shares with a support. -/
theorem cover_keeps (hs : e ∈ supports v) (he : e.min ≤ x ∧ x ≤ e.max)
    (hv : v.value.min ≤ x ∧ x ≤ v.value.max) : (cover v).min ≤ x ∧ x ≤ (cover v).max := by
  unfold cover
  split
  · rename_i h hh
    have := hull_isWithin hh hs
    rw [Interval.tightenTo_min, Interval.tightenTo_max]
    omega
  · exact hv

theorem cover_isWithin (v : Variables) : (cover v).isWithin v.value := by
  unfold cover
  split
  · exact Interval.tightenTo_isWithin _ _
  · exact Interval.isWithin_refl _

/-- Both bounds of the covered value are shared by a support. -/
theorem cover_supported (hf : v.Filled) (hs : e ∈ supports v) :
    (cover v).min ≤ (cover v).max ∧
      (∃ d ∈ supports v, d.min ≤ (cover v).min ∧ (cover v).min ≤ d.max) ∧
      ∃ d ∈ supports v, d.min ≤ (cover v).max ∧ (cover v).max ≤ d.max := by
  have shares {d : Interval} (hd : d ∈ supports v) :
      d.min ≤ d.max ∧ d.min ≤ v.value.max ∧ v.value.min ≤ d.max := by
    obtain ⟨hd, hint⟩ := List.mem_filter.1 hd
    exact ⟨hf.elements d (List.mem_of_mem_drop (List.mem_of_mem_take hd)),
      Interval.intersects_iff.1 hint⟩
  have hvalue := hf.value
  unfold cover
  split
  · rename_i h hh
    obtain ⟨⟨a, ha, hmin⟩, ⟨b, hb, hmax⟩⟩ := hull_bounds hh
    have hsa := shares ha
    have hsb := shares hb
    have hwa := hull_isWithin hh ha
    have hwb := hull_isWithin hh hb
    rw [Interval.tightenTo_min, Interval.tightenTo_max]
    exact ⟨by omega, ⟨a, ha, by omega⟩, ⟨b, hb, by omega⟩⟩
  · rename_i hh
    have hnil : supports v = [] := by
      cases hc : supports v with
      | nil => rfl
      | cons d ds =>
        rw [hc] at hh
        cases hh
    rw [hnil] at hs
    exact absurd hs List.not_mem_nil

/-! ### Rounds -/

/-- The verdict of a round; one that narrows has found nothing wrong. -/
def Round.status : Round → Status
  | .settled status _ => status
  | .narrowed _ => .consistent

/-- The variables after a round. -/
def Round.after : Round → Variables
  | .settled _ after => after
  | .narrowed after => after

/-- The variables with another index and the value covered for it. -/
def Variables.aim (v : Variables) (index : Interval) : Variables :=
  { v with index, value := cover { v with index } }

/-- What a round does, once the index is narrowed. -/
theorem round_cases {r : Round} (h : round v = .ok r) : ∃ index, Narrowed v index ∧
    (index.max < index.min ∧ r = .settled .inconsistent { v with index } ∨
      index.min < index.max ∧ r = .narrowed (v.aim index) ∨
      index.min = index.max ∧ unify (v.aim index) = .ok r) := by
  unfold round at h
  simp only at h
  split at h
  · cases h
  · rename_i raised hraised
    split at h
    · cases h
    · rename_i index hindex
      refine ⟨index, narrowed_of_eq_ok hraised hindex, ?_⟩
      split at h
      · rename_i he
        exact .inl ⟨Interval.isEmpty_iff.1 he, (Except.ok.inj h).symm⟩
      · rename_i he
        rw [Bool.not_eq_true, Interval.isEmpty_eq_false_iff] at he
        split at h
        · cases h
        rename_i value hvalue
        obtain ⟨-, rfl⟩ := covered_eq_ok.1 hvalue
        split at h
        · rename_i hfix
          exact .inr (.inr ⟨Interval.isFixed_iff.1 hfix, h⟩)
        · rename_i hfix
          rw [Interval.isFixed_iff] at hfix
          exact .inr (.inl ⟨by omega, (Except.ok.inj h).symm⟩)

/-- The variables once an element and the value are reduced to one interval. -/
def Variables.share (v : Variables) (m : Interval) : Variables :=
  { v with elements := v.elements.set v.index.min.toNat m, value := m }

/-- Making an element and the value equal leaves both with what they share. -/
theorem unify_cases {r : Round} (h : unify v = .ok r) :
    ∃ e m, v.elements[v.index.min.toNat]? = some e ∧ m = e.tightenTo v.value ∧
      (m.max < m.min ∧ r = .settled .inconsistent (v.share m) ∨
        m.min = m.max ∧ r = .settled .entailed (v.share m) ∨
        m.min < m.max ∧ r = .narrowed (v.share m)) := by
  unfold unify at h
  split at h
  · cases h
  · rename_i e he
    refine ⟨e, e.tightenTo v.value, (elementAt_eq_ok.1 he).2, rfl, ?_⟩
    have same : v.value.tightenTo (e.tightenTo v.value) = e.tightenTo v.value := by
      apply Interval.ext <;>
        simp only [Interval.tightenTo_min, Interval.tightenTo_max] <;> omega
    simp only [same, Bool.or_self, Bool.and_self] at h
    split at h
    · rename_i hempty
      exact .inl ⟨Interval.isEmpty_iff.1 hempty, (Except.ok.inj h).symm⟩
    · rename_i hne
      rw [Bool.not_eq_true, Interval.isEmpty_eq_false_iff] at hne
      split at h
      · rename_i hfix
        exact .inr (.inl ⟨Interval.isFixed_iff.1 hfix, (Except.ok.inj h).symm⟩)
      · rename_i hfix
        rw [Interval.isFixed_iff] at hfix
        exact .inr (.inr ⟨by omega, (Except.ok.inj h).symm⟩)

theorem within_aim (h : Narrowed v index) : Within (v.aim index).toList v.toList :=
  within_toList (.refl _) h.isWithin (cover_isWithin { v with index })

/-- A position of the index is one whose element supports the value. -/
theorem Narrowed.mem_supports (h : Narrowed v index) (hle : index.min ≤ index.max) :
    ∃ e ∈ supports { v with index }, v.elements[index.min.toNat]? = some e := by
  obtain ⟨e, he, hint⟩ := h.first hle
  exact ⟨e, (mem_supports_iff h.least).2 ⟨index.min, ⟨Int.le_refl _, hle⟩, he, hint⟩, he⟩

theorem filled_aim (hf : v.Filled) (h : Narrowed v index) (hle : index.min ≤ index.max) :
    (v.aim index).Filled := by
  obtain ⟨e, he, -⟩ := h.mem_supports hle
  exact ⟨hf.elements, hle,
    (cover_supported (v := { v with index }) ⟨hf.elements, hle, hf.value⟩ he).1⟩

theorem within_share {m : Interval} (he : v.elements[v.index.min.toNat]? = some e)
    (hm : m = e.tightenTo v.value) : Within (v.share m).toList v.toList := by
  subst hm
  refine within_toList (within_set he (Interval.tightenTo_isWithin _ _))
    (Interval.isWithin_refl _) (Interval.isWithin_iff.2 ?_)
  rw [Variables.share, Interval.tightenTo_min, Interval.tightenTo_max]
  omega

theorem filled_share {m : Interval} (hf : v.Filled) (hm : m.min ≤ m.max) :
    (v.share m).Filled :=
  ⟨hf.elements.set hm _, hf.index, hm⟩

/-- A round never widens, and what it accepts has a value left everywhere. -/
theorem round_shrinks {r : Round} (h : round v = .ok r) (hf : v.Filled) :
    Within r.after.toList v.toList ∧ (r.status ≠ .inconsistent → r.after.Filled) := by
  obtain ⟨index, hn, ⟨-, rfl⟩ | ⟨hlt, rfl⟩ | ⟨heq, hu⟩⟩ := round_cases h
  · exact ⟨within_toList (.refl _) hn.isWithin (Interval.isWithin_refl _), fun hs => absurd rfl hs⟩
  · exact ⟨within_aim hn, fun _ => filled_aim hf hn (by omega)⟩
  · have hfa := filled_aim hf hn (by omega)
    obtain ⟨e, m, he, hm, hcase⟩ := unify_cases hu
    have hw := (within_share he hm).trans (within_aim hn)
    rcases hcase with ⟨-, rfl⟩ | ⟨hfix, rfl⟩ | ⟨hlt, rfl⟩
    · exact ⟨hw, fun hs => absurd rfl hs⟩
    · exact ⟨hw, fun _ => filled_share hfa (by omega)⟩
    · exact ⟨hw, fun _ => filled_share hfa (by omega)⟩

/-- A round loses no assignment. -/
theorem round_keeps {r : Round} (h : round v = .ok r) (hm : Mem (us ++ [i, x]) v.toList)
    (h0 : 0 ≤ i) (hsel : us[i.toNat]? = some x) :
    r.status ≠ .inconsistent ∧ Mem (us ++ [i, x]) r.after.toList := by
  obtain ⟨hu, hi, hx⟩ := mem_toList_iff.1 hm
  obtain ⟨e, he, hex⟩ : ∃ e, v.elements[i.toNat]? = some e ∧ e.min ≤ x ∧ x ≤ e.max := by
    have hlt := (List.getElem?_eq_some_iff.1 hsel).1
    rw [hu.length_eq] at hlt
    exact ⟨_, List.getElem?_eq_getElem hlt, hu.bounds hsel (List.getElem?_eq_getElem hlt)⟩
  obtain ⟨index, hn, hcase⟩ := round_cases h
  have hint := intersects_of_mem hex hx
  have hin := hn.keeps hi.1 hi.2 h0 he hint
  have hcov : (v.aim index).value.min ≤ x ∧ x ≤ (v.aim index).value.max :=
    cover_keeps ((mem_supports_iff hn.least).2 ⟨i, hin, he, hint⟩) hex hx
  rcases hcase with ⟨hlt, rfl⟩ | ⟨hlt, rfl⟩ | ⟨heq, hr⟩
  · omega
  · exact ⟨Status.noConfusion, mem_toList_iff.2 ⟨hu, hin, hcov⟩⟩
  · obtain ⟨d, m, hd, hm, hcase⟩ := unify_cases hr
    obtain rfl : i = index.min := by omega
    obtain rfl : e = d := Option.some.inj (he.symm.trans hd)
    have hxm : m.min ≤ x ∧ x ≤ m.max := by
      rw [hm, Interval.tightenTo_min, Interval.tightenTo_max]
      omega
    have hkept : Mem (us ++ [index.min, x]) ((v.aim index).share m).toList :=
      mem_toList_iff.2 ⟨hu.narrow hsel hxm, hin, hxm⟩
    rcases hcase with ⟨hempty, rfl⟩ | ⟨hfix, rfl⟩ | ⟨hlt, rfl⟩
    · omega
    · exact ⟨Status.noConfusion, hkept⟩
    · exact ⟨Status.noConfusion, hkept⟩

/-- An accepted verdict on the variables is that every assignment selects the value. -/
theorem round_entailed {status : Status} (h : round v = .ok (.settled status w))
    (hs : status ≠ .inconsistent) (hm : Mem (us ++ [i, x]) w.toList) :
    0 ≤ i ∧ us[i.toNat]? = some x := by
  obtain ⟨index, hn, ⟨-, he⟩ | ⟨-, he⟩ | ⟨heq, hu⟩⟩ := round_cases h
  · cases he
    exact absurd rfl hs
  · cases he
  · obtain ⟨e, m, he, -, hcase⟩ := unify_cases hu
    rcases hcase with ⟨-, he⟩ | ⟨hfix, he'⟩ | ⟨-, he⟩
    · cases he
      exact absurd rfl hs
    · cases he'
      obtain ⟨hu, hi, hx⟩ := mem_toList_iff.1 hm
      have h0 := hn.least
      obtain rfl : i = index.min := by
        have : index.min ≤ i ∧ i ≤ index.max := hi
        omega
      have hlt := (List.getElem?_eq_some_iff.1 he).1
      obtain ⟨u, hu', hb⟩ := hu.value (List.getElem?_set_self hlt)
      have hx : m.min ≤ x ∧ x ≤ m.max := hx
      refine ⟨h0, ?_⟩
      rw [show x = u by omega]
      exact hu'
    · cases he

/-- An assignment that selects a number which an element shares with the value. -/
theorem select (x : Int) (parameters : List Int) (hu : Mem us v.elements) (h0 : 0 ≤ v.index.min)
    (hi : v.index.min ≤ i ∧ i ≤ v.index.max) (he : v.elements[i.toNat]? = some e)
    (hx : e.min ≤ x ∧ x ≤ e.max) (hv : v.value.min ≤ x ∧ x ≤ v.value.max) :
    Mem (us.set i.toNat x ++ [i, x]) v.toList ∧
      Constraint.elementEq.Holds (us.set i.toNat x ++ [i, x]) parameters := by
  refine ⟨mem_toList_iff.2 ⟨hu.set he hx.1 hx.2, hi, hv⟩, holds_iff.2 ⟨by omega, ?_⟩⟩
  rw [List.getElem?_set_self]
  rw [hu.length_eq]
  exact (List.getElem?_eq_some_iff.1 he).1

/-- What stands still in a round. -/
theorem unchanged (h : round v = .ok (.narrowed v)) :
    Narrowed v v.index ∧ cover v = v.value ∧
      (v.index.min < v.index.max ∨ v.index.min = v.index.max ∧
        v.elements[v.index.min.toNat]? = some v.value) := by
  obtain ⟨index, hn, ⟨-, he⟩ | ⟨hlt, he⟩ | ⟨heq, hu⟩⟩ := round_cases h
  · cases he
  · have hv : v = v.aim index := by injection he
    have hindex : v.index = index := congrArg Variables.index hv
    subst hindex
    exact ⟨hn, (congrArg Variables.value hv).symm, .inl hlt⟩
  · obtain ⟨e, m, he, hm, hcase⟩ := unify_cases hu
    rcases hcase with ⟨-, h⟩ | ⟨-, h⟩ | ⟨hlt, h⟩
    · cases h
    · cases h
    · have hv : v = (v.aim index).share m := by injection h
      have hindex : v.index = index := congrArg Variables.index hv
      subst hindex
      have hvalue : v.value = m := congrArg Variables.value hv
      have hwithin := Interval.isWithin_iff.1 (cover_isWithin v)
      have hcover : v.value = e.tightenTo (cover v) := hvalue.trans hm
      have hmin := congrArg Interval.min hcover
      have hmax := congrArg Interval.max hcover
      rw [Interval.tightenTo_min] at hmin
      rw [Interval.tightenTo_max] at hmax
      refine ⟨hn, Interval.ext (by omega) (by omega), .inr ⟨heq, ?_⟩⟩
      have helements := congrArg Variables.elements hv
      rw [helements, hvalue]
      exact List.getElem?_set_self (List.getElem?_eq_some_iff.1 he).1

/-- The variables of a box, by position. -/
theorem getElem?_toList {k : Nat} (hk : v.toList[k]? = some e) : v.elements[k]? = some e ∨
    k = v.elements.length ∧ e = v.index ∨ k = v.elements.length + 1 ∧ e = v.value := by
  rw [Variables.toList, List.getElem?_append] at hk
  split at hk
  · exact .inl hk
  · rename_i hkl
    rcases hsub : k - v.elements.length with _ | _ | n
    · rw [hsub] at hk
      exact .inr (.inl ⟨by omega, (Option.some.inj hk).symm⟩)
    · rw [hsub] at hk
      exact .inr (.inr ⟨by omega, (Option.some.inj hk).symm⟩)
    · rw [hsub] at hk
      cases hk

/-- An index whose element can equal the value is the index of some assignment. -/
theorem exists_index (parameters : List Int) (hf : v.Filled) (h0 : 0 ≤ v.index.min)
    (hi : v.index.min ≤ i ∧ i ≤ v.index.max) (he : v.elements[i.toNat]? = some e)
    (hs : e.intersects v.value = true) : ∃ vs, Mem vs v.toList ∧
      Constraint.elementEq.Holds vs parameters ∧ vs[v.elements.length]? = some i := by
  rw [Interval.intersects_iff] at hs
  have he' := hf.elements e (List.mem_of_getElem? he)
  have hv' := hf.value
  obtain ⟨hm, hP⟩ := select (max e.min v.value.min) parameters hf.elements.mem_mins h0 hi he
    (by omega) (by omega)
  refine ⟨_, hm, hP, ?_⟩
  rw [← hf.elements.mem_mins.length_eq,
    ← List.length_set (i := i.toNat) (a := max e.min v.value.min)]
  exact getElem?_index

/-- A number that the value shares with a support is the value of some assignment. -/
theorem exists_value (parameters : List Int) (hf : v.Filled) (h0 : 0 ≤ v.index.min)
    (hs : e ∈ supports v) (hx : e.min ≤ x ∧ x ≤ e.max)
    (hv : v.value.min ≤ x ∧ x ≤ v.value.max) : ∃ vs, Mem vs v.toList ∧
      Constraint.elementEq.Holds vs parameters ∧ vs[v.elements.length + 1]? = some x := by
  obtain ⟨i, hi, he, -⟩ := (mem_supports_iff h0).1 hs
  obtain ⟨hm, hP⟩ := select x parameters hf.elements.mem_mins h0 hi he hx hv
  refine ⟨_, hm, hP, ?_⟩
  rw [← hf.elements.mem_mins.length_eq, ← List.length_set (i := i.toNat) (a := x)]
  exact getElem?_value

/-- An element takes each of its values beside another one that is selected. -/
theorem exists_element_aside (parameters : List Int) (hf : v.Filled) (h0 : 0 ≤ v.index.min)
    {k : Nat} {d : Interval} (hd : v.elements[k]? = some d) (hx : d.min ≤ x ∧ x ≤ d.max)
    (hi : v.index.min ≤ i ∧ i ≤ v.index.max) (he : v.elements[i.toNat]? = some e)
    (hs : e.intersects v.value = true) (hne : i.toNat ≠ k) : ∃ vs, Mem vs v.toList ∧
      Constraint.elementEq.Holds vs parameters ∧ vs[k]? = some x := by
  rw [Interval.intersects_iff] at hs
  have he' := hf.elements e (List.mem_of_getElem? he)
  have hv' := hf.value
  have hm := hf.elements.mem_mins.set hd hx.1 hx.2
  have hk := (List.getElem?_eq_some_iff.1 hd).1
  obtain ⟨hm', hP⟩ := select (max e.min v.value.min) parameters hm h0 hi he (by omega) (by omega)
  refine ⟨_, hm', hP, ?_⟩
  rw [List.getElem?_append_left (by rw [List.length_set, hm.length_eq]; exact hk),
    List.getElem?_set_ne hne,
    List.getElem?_set_self (by rw [hf.elements.mem_mins.length_eq]; exact hk)]

/-- An element that is the value itself takes each of its values when it is selected. -/
theorem exists_element_selected (parameters : List Int) (hf : v.Filled) (h0 : 0 ≤ v.index.min)
    (hi : v.index.min ≤ i ∧ i ≤ v.index.max) (he : v.elements[i.toNat]? = some v.value)
    (hx : v.value.min ≤ x ∧ x ≤ v.value.max) : ∃ vs, Mem vs v.toList ∧
      Constraint.elementEq.Holds vs parameters ∧ vs[i.toNat]? = some x := by
  have hm := hf.elements.mem_mins
  have hk := (List.getElem?_eq_some_iff.1 he).1
  obtain ⟨hm', hP⟩ := select x parameters hm h0 hi he hx hx
  refine ⟨_, hm', hP, ?_⟩
  rw [List.getElem?_append_left (by rw [List.length_set, hm.length_eq]; exact hk),
    List.getElem?_set_self (by rw [hm.length_eq]; exact hk)]

/-- **A round that changes nothing leaves a tight box.** -/
theorem tight_of_unchanged {parameters : List Int} (h : round v = .ok (.narrowed v))
    (hf : v.Filled) : Tight (Constraint.elementEq.Holds · parameters) v.toList := by
  obtain ⟨hn, hcov, hfix⟩ := unchanged h
  have hle := hf.index
  have h0 := hn.least
  have hmin : v.index.min ≤ v.index.min ∧ v.index.min ≤ v.index.max := ⟨Int.le_refl _, hle⟩
  have hmax : v.index.min ≤ v.index.max ∧ v.index.max ≤ v.index.max := ⟨hle, Int.le_refl _⟩
  obtain ⟨first, hfirst, hshare⟩ := hn.first hle
  obtain ⟨last, hlast, hshare'⟩ := hn.last hle
  -- an element at one of its bounds is selected only if there is no other position
  have element {k : Nat} {b : Int} {d : Interval} (hd : v.elements[k]? = some d)
      (hb : d.min ≤ b ∧ b ≤ d.max) :
      ∃ vs, Mem vs v.toList ∧ Constraint.elementEq.Holds vs parameters ∧ vs[k]? = some b := by
    by_cases hfk : v.index.min.toNat = k
    · by_cases hlk : v.index.max.toNat = k
      · obtain ⟨-, hsame⟩ := hfix.resolve_left (by omega)
        subst hfk
        obtain rfl := Option.some.inj (hd.symm.trans hsame)
        exact exists_element_selected parameters hf h0 hmin hd hb
      · exact exists_element_aside parameters hf h0 hd hb hmax hlast hshare' hlk
    · exact exists_element_aside parameters hf h0 hd hb hmin hfirst hshare hfk
  have hstart := exists_index parameters hf h0 hmin hfirst hshare
  have hend := exists_index parameters hf h0 hmax hlast hshare'
  have hfs : first ∈ supports v := (mem_supports_iff h0).2 ⟨_, hmin, hfirst, hshare⟩
  obtain ⟨hvle, ⟨low, hlow, hlowb⟩, ⟨high, hhigh, hhighb⟩⟩ := cover_supported hf hfs
  rw [hcov] at hvle hlowb hhighb
  refine ⟨?_, fun {k d} hk => ?_, fun {k d} hk => ?_⟩
  · obtain ⟨vs, hm, hP, -⟩ := hstart
    exact ⟨vs, hm, hP⟩
  · rcases getElem?_toList hk with hk | ⟨rfl, rfl⟩ | ⟨rfl, rfl⟩
    · exact element hk ⟨Int.le_refl _, hf.elements d (List.mem_of_getElem? hk)⟩
    · exact hstart
    · exact exists_value parameters hf h0 hlow hlowb ⟨Int.le_refl _, hvle⟩
  · rcases getElem?_toList hk with hk | ⟨rfl, rfl⟩ | ⟨rfl, rfl⟩
    · exact element hk ⟨hf.elements d (List.mem_of_getElem? hk), Int.le_refl _⟩
    · exact hend
    · exact exists_value parameters hf h0 hhigh hhighb ⟨hvle, Int.le_refl _⟩

/-! ### Rounds to the end -/

theorem settle_shrinks {r : Narrowing} (h : settle v = .ok r) (hf : v.Filled) :
    Within r.bounds v.toList := by
  fun_induction settle v with
  | case1 => cases h
  | case2 v status w hr =>
    obtain rfl := Except.ok.inj h
    exact (round_shrinks hr hf).1
  | case3 v hr =>
    obtain rfl := Except.ok.inj h
    exact (round_shrinks hr hf).1
  | case4 v w hr _ ih =>
    have hw := round_shrinks hr hf
    exact (ih h (hw.2 Status.noConfusion)).trans hw.1

theorem settle_keeps {r : Narrowing} (h : settle v = .ok r) (hm : Mem (us ++ [i, x]) v.toList)
    (h0 : 0 ≤ i) (hsel : us[i.toNat]? = some x) :
    r.status ≠ .inconsistent ∧ Mem (us ++ [i, x]) r.bounds := by
  fun_induction settle v with
  | case1 => cases h
  | case2 v status w hr =>
    obtain rfl := Except.ok.inj h
    exact round_keeps hr hm h0 hsel
  | case3 v hr =>
    obtain rfl := Except.ok.inj h
    exact round_keeps hr hm h0 hsel
  | case4 v w hr _ ih => exact ih h (round_keeps hr hm h0 hsel).2

theorem settle_tight {parameters : List Int} {r : Narrowing} (h : settle v = .ok r)
    (hf : v.Filled) (hs : r.status ≠ .inconsistent) :
    Tight (Constraint.elementEq.Holds · parameters) r.bounds ∧
      (r.status = .entailed → ∀ us, Mem us r.bounds → Constraint.elementEq.Holds us parameters) := by
  fun_induction settle v with
  | case1 => cases h
  | case2 v status w hr =>
    obtain rfl := Except.ok.inj h
    have hall : ∀ us, Mem us w.toList → Constraint.elementEq.Holds us parameters := by
      intro vs hm
      obtain ⟨us, i, x, rfl⟩ := exists_of_mem_toList hm
      exact holds_iff.2 (round_entailed hr hs hm)
    exact ⟨.of_forall (filled_toList_iff.2 ((round_shrinks hr hf).2 hs)) hall, fun _ => hall⟩
  | case3 w hr =>
    obtain rfl := Except.ok.inj h
    exact ⟨tight_of_unchanged hr hf, fun he => by cases he⟩
  | case4 v w hr _ ih => exact ih h ((round_shrinks hr hf).2 Status.noConfusion)

theorem toList_injective (h : v.toList = w.toList) : v = w := by
  obtain ⟨he, h⟩ := List.append_inj' h rfl
  obtain ⟨hi, h⟩ := List.cons.inj h
  obtain ⟨hv, -⟩ := List.cons.inj h
  cases v
  cases w
  cases he
  cases hi
  cases hv
  rfl

/-- A round whose index ends at elements that can equal the value comes to an answer. -/
theorem exists_round (h0 : 0 ≤ v.index.min) (hle : v.index.min ≤ v.index.max)
    {first last : Interval} (hf : v.elements[v.index.min.toNat]? = some first)
    (hfi : first.intersects v.value = true) (hl : v.elements[v.index.max.toNat]? = some last)
    (hli : last.intersects v.value = true) : ∃ r, round v = .ok r := by
  have hlt := (List.getElem?_eq_some_iff.1 hl).1
  have hstart : (v.index.tightenMin 0).tightenMax (v.elements.length - 1) = v.index := by
    rw [Interval.tightenMin_eq_self h0, Interval.tightenMax_eq_self (by omega)]
  have hraise : raiseIndex v.elements v.value v.index = .ok v.index := by
    rw [raiseIndex, if_neg (by omega), elementAt_eq_ok.2 ⟨h0, hf⟩]
    exact if_pos hfi
  have hlower : lowerIndex v.elements v.value v.index = .ok v.index := by
    rw [lowerIndex, if_neg (by omega), elementAt_eq_ok.2 ⟨by omega, hl⟩]
    exact if_pos hli
  have hcover : covered v = .ok (cover v) := covered_eq_ok.2 ⟨⟨h0, by omega⟩, rfl⟩
  unfold round
  simp only [hstart, hraise, hlower, hcover]
  split
  · exact ⟨_, rfl⟩
  · split
    · unfold unify
      simp only [elementAt_eq_ok.2 ⟨h0, hf⟩]
      split
      · exact ⟨_, rfl⟩
      · split <;> exact ⟨_, rfl⟩
    · exact ⟨_, rfl⟩

/-- A tight box can be run on: the ends of its index are elements that equal the value. -/
theorem settle_of_tight {parameters : List Int}
    (ht : Tight (Constraint.elementEq.Holds · parameters) v.toList) :
    ∃ r, settle v = .ok r := by
  have hf := filled_toList_iff.1 ht.filled
  have hend {b : Int} (hb : ∃ vs, Mem vs v.toList ∧ Constraint.elementEq.Holds vs parameters ∧
      vs[v.elements.length]? = some b) :
      0 ≤ b ∧ ∃ e, v.elements[b.toNat]? = some e ∧ e.intersects v.value = true := by
    obtain ⟨vs, hm, hP, hb⟩ := hb
    obtain ⟨us, i, x, rfl⟩ := exists_of_mem_toList hm
    obtain ⟨hu, -, hx⟩ := mem_toList_iff.1 hm
    obtain ⟨h0, hsel⟩ := holds_iff.1 hP
    rw [← hu.length_eq, getElem?_index] at hb
    obtain rfl := Option.some.inj hb
    have hlt := (List.getElem?_eq_some_iff.1 hsel).1
    rw [hu.length_eq] at hlt
    exact ⟨h0, _, List.getElem?_eq_getElem hlt,
      intersects_of_mem (hu.bounds hsel (List.getElem?_eq_getElem hlt)) hx⟩
  have hindex : v.toList[v.elements.length]? = some v.index := by
    rw [Variables.toList, List.getElem?_append_right (Nat.le_refl _), Nat.sub_self]
    rfl
  obtain ⟨h0, first, hfirst, hfi⟩ := hend (ht.least hindex)
  obtain ⟨-, last, hlast, hli⟩ := hend (ht.greatest hindex)
  obtain ⟨r, hr⟩ := exists_round h0 hf.index hfirst hfi hlast hli
  have hsame : r.after = v := by
    refine toList_injective (((round_shrinks hr hf).1).antisymm (ht.within fun vs hm hP => ?_))
    obtain ⟨us, i, x, rfl⟩ := exists_of_mem_toList hm
    obtain ⟨h0, hsel⟩ := holds_iff.1 hP
    exact (round_keeps hr hm h0 hsel).2
  rw [settle]
  split
  · rename_i he
    rw [hr] at he
    cases he
  · exact ⟨_, rfl⟩
  · rename_i w he
    rw [hr] at he
    obtain rfl := Except.ok.inj he
    have hsame : w = v := hsame
    rw [dif_pos hsame]
    exact ⟨_, rfl⟩

theorem exists_toList {is : List Interval} (h : 3 ≤ is.length) :
    ∃ v : Variables, is = v.toList ∧ v.elements ≠ [] := by
  rw [← List.length_reverse] at h
  rcases hr : is.reverse with _ | ⟨value, _ | ⟨index, _ | ⟨e, es⟩⟩⟩
  · rw [hr] at h
    simp at h
  · rw [hr] at h
    simp at h
  · rw [hr] at h
    simp at h
  · refine ⟨⟨(e :: es).reverse, index, value⟩, ?_, by simp⟩
    rw [← List.reverse_reverse is, hr]
    simp [Variables.toList]

theorem Posed.eq_toList {is : List Interval} (h : Posed is) :
    ∃ v : Variables, is = v.toList ∧ v.elements ≠ [] ∧ v.Filled := by
  obtain ⟨v, rfl, hne⟩ := exists_toList h.1
  exact ⟨v, rfl, hne, filled_toList_iff.1 h.2.1⟩

theorem propagate_toList (h : v.elements ≠ []) : propagate v.toList = settle v := by
  unfold propagate
  simp only [Variables.toList, List.reverse_append, List.reverse_cons, List.reverse_nil,
    List.nil_append, List.cons_append, List.reverse_reverse]
  exact if_neg (by rw [List.isEmpty_iff, List.reverse_eq_nil_iff]; exact h)

/-- **Rounds leave the smallest box around the assignments that select the value.** -/
theorem exact (parameters : List Int) :
    Exact propagate (Constraint.elementEq.Holds · parameters) Posed where
  closed h hw hf := ⟨by rw [hw.length_eq]; exact h.1, hf, fun j hj => by
    obtain ⟨i, hi, hb⟩ := hw.exists_of_mem hj
    exact (h.2.2 i hi).of_within hb (hf j hj)⟩
  within hp hr _ := by
    obtain ⟨v, rfl, hne, hf⟩ := hp.eq_toList
    rw [propagate_toList hne] at hr
    exact settle_shrinks hr hf
  keeps hp hr hm hP := by
    obtain ⟨v, rfl, hne, hf⟩ := hp.eq_toList
    rw [propagate_toList hne] at hr
    obtain ⟨us, i, x, rfl⟩ := exists_of_mem_toList hm
    obtain ⟨h0, hsel⟩ := holds_iff.1 hP
    exact settle_keeps hr hm h0 hsel
  tight hp hr hs := by
    obtain ⟨v, rfl, hne, hf⟩ := hp.eq_toList
    rw [propagate_toList hne] at hr
    exact (settle_tight hr hf hs).1
  entailed hp hr he hm := by
    obtain ⟨v, rfl, hne, hf⟩ := hp.eq_toList
    rw [propagate_toList hne] at hr
    exact (settle_tight hr hf (by rw [he]; exact Status.noConfusion)).2 he _ hm
  again hp hr _ hw ht := by
    obtain ⟨v, rfl, hne, hf⟩ := hp.eq_toList
    rw [propagate_toList hne] at hr
    have hlen := (hw.trans (settle_shrinks hr hf)).length_eq
    obtain ⟨w, rfl, hne'⟩ := exists_toList (hlen ▸ hp.1)
    rw [propagate_toList hne']
    exact settle_of_tight ht

end Element
end BoundsSolver
