/-
# The element of a list at a variable position

The last two variables are the index, counted from zero, and the value; the
variables before them are the elements.  A round narrows the index to the
positions whose element can still equal the value and the value to the hull of
those elements; once the index is fixed, its element and the value are made
equal.

A round either changes nothing or lowers `weight`: an index or element that
changes keeps a value and so loses another one, and a bound of the value only
moves to a bound of an element that lies further in, of which one fewer is left.
-/

import BoundsSolver.Constraint.Status

namespace BoundsSolver
namespace Element

/-- The variables of the constraint. -/
structure Variables where
  elements : List Interval
  index : Interval
  value : Interval
  deriving DecidableEq

/-- All variables in order. -/
def Variables.toList (v : Variables) : List Interval := v.elements ++ [v.index, v.value]

/-- The element at a position, or the fault of a position without one.  A position below the
first one is read as one far beyond the last. -/
def elementAt (elements : List Interval) (i : Int) : Checked Interval :=
  if i < 0 then .error (.outOfBounds elements.length (Width.index.wrap i).toNat)
  else
    match elements[i.toNat]? with
    | some e => .ok e
    | none => .error (.outOfBounds elements.length i.toNat)

/-- Raises the least index to the first element that can equal the value. -/
def raiseIndex (elements : List Interval) (value index : Interval) : Checked Interval :=
  if index.max < index.min then .ok index
  else
    match elementAt elements index.min with
    | .error f => .error f
    | .ok e =>
      if e.intersects value then .ok index
      else
        match Width.value.add index.min 1 with
        | .error f => .error f
        | .ok _ => raiseIndex elements value ⟨index.min + 1, index.max⟩
termination_by index.size
decreasing_by simp only [Interval.size]; omega

/-- Lowers the greatest index to the last element that can equal the value. -/
def lowerIndex (elements : List Interval) (value index : Interval) : Checked Interval :=
  if index.max < index.min then .ok index
  else
    match elementAt elements index.max with
    | .error f => .error f
    | .ok e =>
      if e.intersects value then .ok index
      else
        match Width.value.sub index.max 1 with
        | .error f => .error f
        | .ok _ => lowerIndex elements value ⟨index.min, index.max - 1⟩
termination_by index.size
decreasing_by simp only [Interval.size]; omega

/-- The elements at the positions of the index that can equal the value. -/
def supports (v : Variables) : List Interval :=
  ((v.elements.drop v.index.min.toNat).take v.index.size).filter (·.intersects v.value)

/-- The smallest interval around all of several intervals. -/
def hull : List Interval → Option Interval
  | [] => none
  | i :: is => some (is.foldl (fun h j => ⟨min h.min j.min, max h.max j.max⟩) i)

/-- The value within the hull of its supports. -/
def cover (v : Variables) : Interval :=
  match hull (supports v) with
  | some h => v.value.tightenTo h
  | none => v.value

/-- The value within the hull of its supports, or the fault of an index that does not stay
within the elements. -/
def covered (v : Variables) : Checked Interval :=
  if 0 ≤ v.index.min ∧ v.index.max < v.elements.length then .ok (cover v)
  else .error (.rangeOutOfBounds v.elements.length (Width.index.wrap (v.index.max + 1)).toNat)

/-- The outcome of a round. -/
inductive Round where
  /-- The constraint stands as the status says. -/
  | settled (status : Status) (after : Variables)
  /-- More may follow. -/
  | narrowed (after : Variables)

/-- The element at a fixed index and the value, made equal. -/
def unify (v : Variables) : Checked Round :=
  match elementAt v.elements v.index.min with
  | .error f => .error f
  | .ok e =>
    let e := e.tightenTo v.value
    let value := v.value.tightenTo e
    let v := { v with elements := v.elements.set v.index.min.toNat e, value }
    if e.isEmpty || value.isEmpty then .ok (.settled .inconsistent v)
    else if value.isFixed && e.isFixed then .ok (.settled .entailed v)
    else .ok (.narrowed v)

/-- One round. -/
def round (v : Variables) : Checked Round :=
  let start := (v.index.tightenMin 0).tightenMax (v.elements.length - 1)
  match raiseIndex v.elements v.value start with
  | .error f => .error f
  | .ok raised =>
    match lowerIndex v.elements v.value raised with
    | .error f => .error f
    | .ok index =>
      let v := { v with index }
      if index.isEmpty then .ok (.settled .inconsistent v)
      else
        match covered v with
        | .error f => .error f
        | .ok value =>
          let v := { v with value }
          if index.isFixed then unify v else .ok (.narrowed v)

/-- The elements with a bound further in than the value has it. -/
def behind (elements : List Interval) (value : Interval) : Nat :=
  elements.countP (fun e => decide (value.min < e.min)) +
    elements.countP (fun e => decide (e.max < value.max))

/-- What every round that changes something lowers. -/
def weight (v : Variables) : Nat :=
  v.index.size + totalSize v.elements + behind v.elements v.value

theorem elementAt_eq_ok {es : List Interval} {i : Int} {e : Interval} :
    elementAt es i = .ok e ↔ 0 ≤ i ∧ es[i.toNat]? = some e := by
  unfold elementAt
  split
  · rename_i hneg
    exact iff_of_false nofun fun h => by omega
  · rename_i hneg
    split
    · rename_i d hd
      rw [hd, Except.ok.injEq, Option.some.injEq]
      exact ⟨fun h => ⟨by omega, h⟩, fun h => h.2⟩
    · rename_i hd
      rw [hd]
      exact iff_of_false nofun fun h => nomatch h.2

theorem covered_eq_ok {v : Variables} {value : Interval} :
    covered v = .ok value ↔
      (0 ≤ v.index.min ∧ v.index.max < v.elements.length) ∧ cover v = value := by
  unfold covered
  split
  · rename_i h
    rw [Except.ok.injEq]
    exact ⟨fun hv => ⟨h, hv⟩, fun hv => hv.2⟩
  · rename_i h
    exact iff_of_false nofun fun hv => h hv.1

theorem raiseIndex_isWithin {es : List Interval} {value index j : Interval}
    (h : raiseIndex es value index = .ok j) : j.isWithin index := by
  fun_induction raiseIndex es value index with
  | case1 => obtain rfl := Except.ok.inj h; exact Interval.isWithin_refl _
  | case2 => cases h
  | case3 => obtain rfl := Except.ok.inj h; exact Interval.isWithin_refl _
  | case4 => cases h
  | case5 _ _ _ _ _ _ _ ih =>
    have := Interval.isWithin_iff.1 (ih h)
    rw [Interval.isWithin_iff]; simp only at this; omega

theorem lowerIndex_isWithin {es : List Interval} {value index j : Interval}
    (h : lowerIndex es value index = .ok j) : j.isWithin index := by
  fun_induction lowerIndex es value index with
  | case1 => obtain rfl := Except.ok.inj h; exact Interval.isWithin_refl _
  | case2 => cases h
  | case3 => obtain rfl := Except.ok.inj h; exact Interval.isWithin_refl _
  | case4 => cases h
  | case5 _ _ _ _ _ _ _ ih =>
    have := Interval.isWithin_iff.1 (ih h)
    rw [Interval.isWithin_iff]; simp only at this; omega

/-- The hull starts where some interval starts and ends where some interval ends. -/
theorem hull_bounds {is : List Interval} {h : Interval} (e : hull is = some h) :
    (∃ i ∈ is, i.min = h.min) ∧ ∃ i ∈ is, i.max = h.max := by
  cases is with
  | nil => cases e
  | cons i is =>
    simp only [hull, Option.some.injEq] at e
    subst e
    induction is generalizing i with
    | nil => exact ⟨⟨i, by simp⟩, ⟨i, by simp⟩⟩
    | cons j is ih =>
      obtain ⟨⟨a, ha, ea⟩, ⟨b, hb, eb⟩⟩ := ih ⟨min i.min j.min, max i.max j.max⟩
      rw [List.foldl_cons]
      refine ⟨?_, ?_⟩
      · rcases List.mem_cons.1 ha with rfl | ha
        · simp only at ea
          by_cases hij : i.min ≤ j.min
          · exact ⟨i, by simp, by omega⟩
          · exact ⟨j, by simp, by omega⟩
        · exact ⟨a, by simp [ha], ea⟩
      · rcases List.mem_cons.1 hb with rfl | hb
        · simp only at eb
          by_cases hij : j.max ≤ i.max
          · exact ⟨i, by simp, by omega⟩
          · exact ⟨j, by simp, by omega⟩
        · exact ⟨b, by simp [hb], eb⟩

theorem countP_lt_countP {α : Type} {p q : α → Bool} {xs : List α}
    (h : ∀ x, p x = true → q x = true) {y : α} (hy : y ∈ xs) (hp : p y = false)
    (hq : q y = true) : xs.countP p < xs.countP q := by
  obtain ⟨as, bs, rfl⟩ := List.append_of_mem hy
  have has : as.countP p ≤ as.countP q := List.countP_mono_left fun a _ => h a
  have hbs : bs.countP p ≤ bs.countP q := List.countP_mono_left fun a _ => h a
  simp only [List.countP_append, List.countP_cons, hp, hq]
  simp
  omega

/-- Replacing an element by one that does not count lowers the count if the
element counted. -/
theorem countP_set_le {α : Type} {p q : α → Bool} {xs : List α} {n : Nat} {a b : α}
    (h : ∀ x, p x = true → q x = true) (ha : p a = false) (hb : xs[n]? = some b) :
    (xs.set n a).countP p + (if q b then 1 else 0) ≤ xs.countP q := by
  induction xs generalizing n with
  | nil => simp at hb
  | cons x xs ih =>
    cases n with
    | zero =>
      have hle : xs.countP p ≤ xs.countP q := List.countP_mono_left fun a _ => h a
      have hxb : x = b := by simpa using hb
      simp [List.countP_cons, ha, hxb]; exact hle
    | succ n =>
      have step := ih (n := n) (by simpa using hb)
      have hx : (if p x then 1 else 0) ≤ (if q x then 1 else 0) := by
        by_cases hp : p x = true
        · simp [hp, h x hp]
        · simp [hp]
      simp only [List.set_cons_succ, List.countP_cons]
      omega

theorem set_getElem?_self {α : Type} {xs : List α} {n : Nat} {a : α} (h : xs[n]? = some a) :
    xs.set n a = xs := by
  obtain ⟨hn, rfl⟩ := List.getElem?_eq_some_iff.1 h
  exact List.set_getElem_self hn

theorem cover_eq_or_behind_lt (v : Variables) :
    cover v = v.value ∨ behind v.elements (cover v) < behind v.elements v.value := by
  unfold cover
  split
  · rename_i h hh
    obtain ⟨⟨i, hi, ei⟩, ⟨j, hj, ej⟩⟩ := hull_bounds hh
    have mem : ∀ {k}, k ∈ supports v → k ∈ v.elements := fun hk =>
      List.mem_of_mem_drop (List.mem_of_mem_take (List.mem_filter.1 hk).1)
    have hw := Interval.isWithin_iff.1 (Interval.tightenTo_isWithin v.value h)
    by_cases hmin : v.value.min < h.min
    · right
      have lt : v.elements.countP (fun e => decide ((v.value.tightenTo h).min < e.min)) <
          v.elements.countP (fun e => decide (v.value.min < e.min)) := by
        refine countP_lt_countP (fun x hx => ?_) (mem hi) ?_ ?_
        · simp only [decide_eq_true_eq] at *; omega
        · simp only [Interval.tightenTo_min, decide_eq_false_iff_not]; omega
        · simp [ei, hmin]
      have le : v.elements.countP (fun e => decide (e.max < (v.value.tightenTo h).max)) ≤
          v.elements.countP (fun e => decide (e.max < v.value.max)) :=
        List.countP_mono_left fun x _ hx => by simp only [decide_eq_true_eq] at *; omega
      unfold behind; omega
    · by_cases hmax : h.max < v.value.max
      · right
        have lt : v.elements.countP (fun e => decide (e.max < (v.value.tightenTo h).max)) <
            v.elements.countP (fun e => decide (e.max < v.value.max)) := by
          refine countP_lt_countP (fun x hx => ?_) (mem hj) ?_ ?_
          · simp only [decide_eq_true_eq] at *; omega
          · simp only [Interval.tightenTo_max, decide_eq_false_iff_not]; omega
          · simp [ej, hmax]
        have le : v.elements.countP (fun e => decide ((v.value.tightenTo h).min < e.min)) ≤
            v.elements.countP (fun e => decide (v.value.min < e.min)) :=
          List.countP_mono_left fun x _ hx => by simp only [decide_eq_true_eq] at *; omega
        unfold behind; omega
      · left
        exact Interval.tightenTo_eq_self (by omega) (by omega)
  · exact .inl rfl

theorem unify_weight {v w : Variables} (h : unify v = .ok (.narrowed w)) :
    w = v ∨ weight w < weight v := by
  unfold unify at h
  cases hat : elementAt v.elements v.index.min with
  | error f => rw [hat] at h; cases h
  | ok e =>
    have he := (elementAt_eq_ok.1 hat).2
    simp only [hat] at h
    split at h
    · simp at h
    · rename_i hne
      split at h
      · simp at h
      · simp only [Except.ok.injEq, Round.narrowed.injEq] at h
        subst h
        simp only [Bool.or_eq_true, not_or, Bool.not_eq_true] at hne
        have hes := Interval.shrinks_of_isWithin (Interval.tightenTo_isWithin e v.value) hne.1
        have total := totalSize_set (j := e.tightenTo v.value) he
        have hm₁ : ((v.value.tightenTo (e.tightenTo v.value)).min = (e.tightenTo v.value).min) ∧
            ((v.value.tightenTo (e.tightenTo v.value)).max = (e.tightenTo v.value).max) := by
          simp only [Interval.tightenTo_min, Interval.tightenTo_max]; omega
        have hw := Interval.isWithin_iff.1 (Interval.tightenTo_isWithin v.value (e.tightenTo v.value))
        have lo := countP_set_le
          (p := fun x => decide ((v.value.tightenTo (e.tightenTo v.value)).min < x.min))
          (q := fun x => decide (v.value.min < x.min)) (a := e.tightenTo v.value)
          (fun x hx => by simp only [decide_eq_true_eq] at *; omega)
          (by simp only [decide_eq_false_iff_not]; omega) he
        have hi := countP_set_le
          (p := fun x => decide (x.max < (v.value.tightenTo (e.tightenTo v.value)).max))
          (q := fun x => decide (x.max < v.value.max)) (a := e.tightenTo v.value)
          (fun x hx => by simp only [decide_eq_true_eq] at *; omega)
          (by simp only [decide_eq_false_iff_not]; omega) he
        by_cases hlo : v.value.min < e.min
        · right
          have := hes.size_le
          simp only [weight, behind, hlo, decide_true, if_true] at *
          omega
        · by_cases hhi : e.max < v.value.max
          · right
            have := hes.size_le
            simp only [weight, behind, hhi, decide_true, if_true] at *
            omega
          · have hv : v.value.tightenTo (e.tightenTo v.value) = v.value := by
              apply Interval.tightenTo_eq_self <;>
                simp only [Interval.tightenTo_min, Interval.tightenTo_max] <;> omega
            rcases hes with hes | hes
            · left
              rw [hv, hes]
              rw [set_getElem?_self he]
            · right
              simp only [weight, behind] at *
              omega

/-- **A round makes progress or changes nothing.** -/
theorem round_weight {v w : Variables} (h : round v = .ok (.narrowed w)) :
    w = v ∨ weight w < weight v := by
  unfold round at h
  simp only at h
  split at h
  · cases h
  · rename_i raised hraised
    split at h
    · cases h
    · rename_i index hindex
      split at h
      · simp at h
      · rename_i hne
        have hin : index.Shrinks v.index := by
          refine Interval.shrinks_of_isWithin ?_ (by simpa using hne)
          exact Interval.isWithin_trans (lowerIndex_isWithin hindex)
            (Interval.isWithin_trans (raiseIndex_isWithin hraised)
              (Interval.isWithin_trans (Interval.tightenMax_isWithin _ _)
                (Interval.tightenMin_isWithin _ _)))
        have hcov := cover_eq_or_behind_lt { v with index }
        have first : { v with index, value := cover { v with index } } = v ∨
            weight { v with index, value := cover { v with index } } < weight v := by
          rcases hin with rfl | hin
          · rcases hcov with hcov | hcov
            · left; simp only at hcov; rw [hcov]
            · right; simp only [weight] at *; omega
          · right
            rcases hcov with hcov | hcov
            · simp only [weight] at *
              rw [hcov]
              omega
            · simp only [weight] at *
              omega
        split at h
        · cases h
        rename_i value hvalue
        obtain ⟨-, rfl⟩ := covered_eq_ok.1 hvalue
        split at h
        · rcases unify_weight h with rfl | hlt
          · exact first
          · rcases first with hf | hf
            · rw [hf] at hlt; exact .inr hlt
            · exact .inr (by omega)
        · obtain rfl := by simpa using h
          exact first

/-- Rounds until one changes nothing. -/
def settle (v : Variables) : Checked Narrowing :=
  match _e : round v with
  | .error f => .error f
  | .ok (.settled status w) => .ok ⟨status, w.toList⟩
  | .ok (.narrowed w) => if _h : w = v then .ok ⟨.consistent, w.toList⟩ else settle w
termination_by weight v
decreasing_by exact (round_weight _e).resolve_left _h

/-- Narrows the elements, the index and the value, which come in that order. -/
def propagate (bounds : List Interval) : Checked Narrowing :=
  match bounds.reverse with
  | value :: index :: elements =>
    if elements.isEmpty then .ok ⟨.inconsistent, bounds⟩
    else settle ⟨elements.reverse, index, value⟩
  | _ => .ok ⟨.entailed, bounds⟩

end Element
end BoundsSolver
