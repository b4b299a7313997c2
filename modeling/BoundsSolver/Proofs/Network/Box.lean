/-
# Boxes and the assignments within them

An assignment gives a value to every shared domain: it is a list of values, and it
lies within a box if each value lies within the interval at its position.

Boxes are compared entry by entry.  A key that addresses no entry reads as the same
fixed interval in every box, so that `Box.inside_iff`, `Box.alive_iff` and
`Box.mem_iff` need not ask which keys do.
-/

import BoundsSolver.Problem.Network
import BoundsSolver.Proofs.Keyed
import BoundsSolver.Proofs.Within

namespace BoundsSolver

/-- The value of a shared domain in an assignment. -/
def DomainId.valueIn (d : DomainId) (as : List Int) : Int := as.getD d.index 0

/-- The assignment keeps within the bound of the branch. -/
def Branch.Allows (br : Branch) (as : List Int) : Prop :=
  match br.bound with
  | .min => br.value ≤ br.domain.valueIn as
  | .max => br.domain.valueIn as ≤ br.value

namespace Box

/-- Every interval lies within the one of the same shared domain. -/
def Inside (b c : Box) : Prop := Within b.toList c.toList

/-- Every shared domain has a value left. -/
def Alive (b : Box) : Prop := Filled b.toList

/-- The box that holds one assignment. -/
def point (as : List Int) : Box := .ofList (as.map Interval.singleton)

variable {b c e : Box} {d : DomainId} {i : Interval} {as bs : List Int}

/-! ### Entries -/

theorem toList_getElem? (b : Box) (k : Nat) : b.toList[k]? = b.get? ⟨k⟩ :=
  (Keyed.get?_eq_getElem? b ⟨k⟩).symm

theorem get?_eq_of_lt (h : d.index < b.size) : b.get? d = some (b.entry d) :=
  Keyed.get?_eq_some_entry (Keyed.has_iff.2 h)

theorem get?_eq_none_of_le (h : b.size ≤ d.index) : b.get? d = none := by
  rw [Keyed.get?_eq_getElem?]
  exact List.getElem?_eq_none h

/-- A key without an entry reads as the interval of zero. -/
theorem entry_of_le (h : b.size ≤ d.index) : b.entry d = ⟨0, 0⟩ := by
  have hn : ¬ d.index < b.entries.size := Nat.not_lt.2 h
  simp only [Keyed.entry, Array.getD, Key.index, hn, dite_false]
  rfl

theorem entry_set {e' : DomainId} : Keyed.entry (Keyed.set b d i) e' =
    if d = e' ∧ d.index < b.size then i else b.entry e' := by
  rw [Keyed.entry_set]
  refine if_congr (and_congr_left fun _ => ⟨fun h => congrArg DomainId.mk h, ?_⟩) rfl rfl
  rintro rfl
  rfl

theorem entry_modify {f : Interval → Interval} {e' : DomainId} :
    Keyed.entry (Keyed.modify b d f) e' =
      if d = e' ∧ d.index < b.size then f (b.entry e') else b.entry e' := by
  unfold Keyed.modify
  by_cases hlt : d.index < b.size
  · rw [get?_eq_of_lt hlt]
    dsimp only
    rw [entry_set]
    by_cases heq : d = e'
    · subst heq
      rfl
    · rw [if_neg fun h => heq h.1, if_neg fun h => heq h.1]
  · rw [get?_eq_none_of_le (Nat.not_lt.1 hlt), if_neg fun h => hlt h.2]

theorem entry_tighten {t : Branch} {e' : DomainId} :
    (Box.tighten b t).entry e' =
      if t.domain = e' ∧ t.domain.index < b.size then (b.entry e').tighten t.bound t.value
      else b.entry e' :=
  entry_modify

@[simp] theorem size_tighten (t : Branch) : (Box.tighten b t).size = b.size :=
  Keyed.size_modify b _ _

/-- A box is determined by its entries. -/
theorem ext_entry (hs : b.size = c.size) (h : ∀ d, b.entry d = c.entry d) : b = c := by
  refine Keyed.ext_get? fun d => ?_
  by_cases hlt : d.index < b.size
  · rw [get?_eq_of_lt hlt, get?_eq_of_lt (hs ▸ hlt), h d]
  · have hle : b.size ≤ d.index := Nat.not_lt.1 hlt
    rw [get?_eq_none_of_le hle, get?_eq_none_of_le (hs ▸ hle)]

/-! ### Comparing boxes -/

theorem inside_iff : b.Inside c ↔ b.size = c.size ∧
    ∀ d, (c.entry d).min ≤ (b.entry d).min ∧ (b.entry d).max ≤ (c.entry d).max := by
  rw [Inside, within_iff_getElem?]
  refine and_congr_right fun (hs : b.size = c.size) => ⟨fun h d => ?_, fun h {k j i} hj hi => ?_⟩
  · by_cases hlt : d.index < b.size
    · refine h (k := d.index) ?_ ?_
      · rw [toList_getElem?, get?_eq_of_lt hlt]
      · rw [toList_getElem?, get?_eq_of_lt (hs ▸ hlt)]
    · have hle : b.size ≤ d.index := Nat.not_lt.1 hlt
      rw [entry_of_le hle, entry_of_le (hs ▸ hle)]
      exact ⟨Int.le_refl 0, Int.le_refl 0⟩
  · rw [toList_getElem?] at hj hi
    rw [← Keyed.entry_of_get? hj, ← Keyed.entry_of_get? hi]
    exact h ⟨k⟩

theorem alive_iff : b.Alive ↔ ∀ d, (b.entry d).min ≤ (b.entry d).max := by
  constructor
  · intro h d
    by_cases hlt : d.index < b.size
    · refine h _ (List.mem_of_getElem? (i := d.index) ?_)
      rw [toList_getElem?, get?_eq_of_lt hlt]
    · exact Int.le_of_eq (by rw [entry_of_le (Nat.not_lt.1 hlt)])
  · intro h i hi
    obtain ⟨k, hk⟩ := List.mem_iff_getElem?.1 hi
    rw [toList_getElem?] at hk
    rw [← Keyed.entry_of_get? hk]
    exact h ⟨k⟩

theorem anyEmpty_eq_false_iff : b.anyEmpty = false ↔ b.Alive := by
  rw [anyEmpty, ← Array.any_toList, List.any_eq_false]
  refine forall₂_congr fun i _ => ?_
  rw [Bool.not_eq_true, Interval.isEmpty_eq_false_iff]

theorem Inside.size_eq (h : b.Inside c) : b.size = c.size := (inside_iff.1 h).1

theorem Inside.bounds (h : b.Inside c) (d : DomainId) :
    (c.entry d).min ≤ (b.entry d).min ∧ (b.entry d).max ≤ (c.entry d).max :=
  (inside_iff.1 h).2 d

theorem Inside.refl (b : Box) : b.Inside b := Within.refl _

theorem Inside.trans (h : b.Inside c) (h' : c.Inside e) : b.Inside e := Within.trans h h'

theorem Inside.antisymm (h : b.Inside c) (h' : c.Inside b) : b = c :=
  ext_entry h.size_eq fun d => Interval.ext
    (Int.le_antisymm (h'.bounds d).1 (h.bounds d).1)
    (Int.le_antisymm (h.bounds d).2 (h'.bounds d).2)

theorem Alive.bounds (h : b.Alive) (d : DomainId) : (b.entry d).min ≤ (b.entry d).max :=
  alive_iff.1 h d

/-- A box around a box with values left has values left. -/
theorem Alive.of_inside (h : c.Alive) (hc : c.Inside b) : b.Alive :=
  alive_iff.2 fun d => by
    have hbd := hc.bounds d
    have hle := h.bounds d
    omega

theorem tighten_inside (b : Box) (t : Branch) : (b.tighten t).Inside b := by
  refine inside_iff.2 ⟨size_tighten t, fun d => ?_⟩
  rw [entry_tighten]
  split
  · exact Interval.isWithin_iff.1 (Interval.tighten_isWithin _ _ _)
  · exact ⟨Int.le_refl _, Int.le_refl _⟩

/-! ### Assignments -/

theorem mem_iff : Mem as b.toList ↔ as.length = b.size ∧
    ∀ d : DomainId, (b.entry d).min ≤ d.valueIn as ∧ d.valueIn as ≤ (b.entry d).max := by
  rw [mem_iff_getElem?]
  refine and_congr_right fun hs => ⟨fun h d => ?_, fun h {k v i} hv hi => ?_⟩
  · by_cases hlt : d.index < b.size
    · have hv : as[d.index]? = some (d.valueIn as) := by
        have : d.index < as.length := by rw [hs]; exact hlt
        rw [DomainId.valueIn, List.getD_eq_getElem?_getD, List.getElem?_eq_getElem this]
        rfl
      exact h hv (by rw [toList_getElem?, get?_eq_of_lt hlt])
    · have hle : as.length ≤ d.index := by rw [hs]; exact Nat.not_lt.1 hlt
      rw [entry_of_le (Nat.not_lt.1 hlt), DomainId.valueIn, List.getD_eq_getElem?_getD,
        List.getElem?_eq_none hle]
      exact ⟨Int.le_refl 0, Int.le_refl 0⟩
  · rw [toList_getElem?] at hi
    have hval : (DomainId.mk k).valueIn as = v := by
      rw [DomainId.valueIn, List.getD_eq_getElem?_getD, hv]
      rfl
    rw [← Keyed.entry_of_get? hi, ← hval]
    exact h ⟨k⟩

theorem mem_bounds (h : Mem as b.toList) (d : DomainId) :
    (b.entry d).min ≤ d.valueIn as ∧ d.valueIn as ≤ (b.entry d).max :=
  (mem_iff.1 h).2 d

theorem mem_of_inside (h : Mem as b.toList) (hw : b.Inside c) : Mem as c.toList :=
  h.of_within hw

theorem alive_of_mem (h : Mem as b.toList) : b.Alive := h.filled

/-- Tightening a bound drops the assignments beyond it. -/
theorem mem_tighten_iff {t : Branch} (hd : t.domain.index < b.size) :
    Mem as (b.tighten t).toList ↔ Mem as b.toList ∧ t.Allows as := by
  rw [mem_iff, mem_iff, size_tighten, and_assoc]
  refine and_congr_right fun _ => ⟨fun h => ⟨fun e => ?_, ?_⟩, fun ⟨h, hb⟩ e => ?_⟩
  · have he := h e
    rw [entry_tighten] at he
    split at he
    · have := Interval.isWithin_iff.1 (Interval.tighten_isWithin (b.entry e) t.bound t.value)
      omega
    · exact he
  · have he := h t.domain
    rw [entry_tighten, if_pos ⟨rfl, hd⟩] at he
    unfold Branch.Allows
    cases ht : t.bound with
    | min =>
      simp only [ht, Interval.tighten, Interval.tightenMin_min] at he
      show t.value ≤ _
      omega
    | max =>
      simp only [ht, Interval.tighten, Interval.tightenMax_max] at he
      show _ ≤ t.value
      omega
  · have he := h e
    rw [entry_tighten]
    split
    · rename_i hde
      obtain ⟨rfl, -⟩ := hde
      unfold Branch.Allows at hb
      cases ht : t.bound with
      | min =>
        simp only [ht] at hb
        simp only [Interval.tighten, Interval.tightenMin_min, Interval.tightenMin_max]
        omega
      | max =>
        simp only [ht] at hb
        simp only [Interval.tighten, Interval.tightenMax_min, Interval.tightenMax_max]
        omega
    · exact he

/-- The values of an assignment determine it. -/
theorem eq_of_valueIn (hlen : as.length = bs.length)
    (h : ∀ d : DomainId, d.index < as.length → d.valueIn as = d.valueIn bs) : as = bs := by
  refine List.ext_getElem hlen fun k hk hk' => ?_
  have := h ⟨k⟩ hk
  rwa [DomainId.valueIn, DomainId.valueIn, List.getD_eq_getElem?_getD,
    List.getD_eq_getElem?_getD, List.getElem?_eq_getElem hk, List.getElem?_eq_getElem hk'] at this

@[simp] theorem toList_point (as : List Int) : (point as).toList = as.map Interval.singleton := rfl

theorem point_alive (as : List Int) : (point as).Alive := filled_singletons as

theorem point_inside_iff : (point as).Inside b ↔ Mem as b.toList := mem_iff_within.symm

theorem point_entry (as : List Int) (d : DomainId) :
    (point as).entry d = .singleton (d.valueIn as) := by
  have hb := mem_bounds (b := point as) (mem_singletons_iff.2 rfl) d
  have ha := (point_alive as).bounds d
  by_cases hlt : d.index < (point as).size
  · have hget := get?_eq_of_lt hlt
    rw [Keyed.get?_eq_getElem?, toList_point, List.getElem?_map, Option.map_eq_some_iff] at hget
    obtain ⟨v, hv, hs⟩ := hget
    rw [← hs, DomainId.valueIn, List.getD_eq_getElem?_getD]
    rw [show as[d.index]? = some v from hv]
    rfl
  · have hle : as.length ≤ d.index := by
      have := Nat.not_lt.1 hlt
      rwa [← Keyed.length_toList, toList_point, List.length_map] at this
    rw [entry_of_le (Nat.not_lt.1 hlt), DomainId.valueIn, List.getD_eq_getElem?_getD,
      List.getElem?_eq_none hle]
    rfl

end Box
end BoundsSolver
