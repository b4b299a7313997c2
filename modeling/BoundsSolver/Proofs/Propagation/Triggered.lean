/-
# The triggered propagators as a set

A propagator is triggered if the queue holds it.  As long as the marks describe the
queue (`Triggered.Faithful`), inserting a propagator adds just that one, taking the
smallest out removes just that one, and clearing leaves none.
-/

import BoundsSolver.Proofs.Keyed
import BoundsSolver.Search.Propagation

namespace BoundsSolver

namespace Heap

theorem toList_merge (h k : Heap) : (merge h k).toList.Perm (h.toList ++ k.toList) := by
  fun_induction merge h k with
  | case1 => exact .refl _
  | case2 => rw [toList, List.append_nil]
  | case3 x l r y l' r' _ ih =>
    refine .cons x ?_
    refine ((ih.append_right _).trans List.perm_append_comm).trans ?_
    exact .of_eq (List.append_assoc l.toList r.toList _).symm
  | case4 x l r y l' r' _ ih =>
    show (y :: ((merge r' (node x l r)).toList ++ l'.toList)).Perm
      ((node x l r).toList ++ y :: (l'.toList ++ r'.toList))
    refine .trans (.cons y ?_) List.perm_middle.symm
    refine (ih.append_right _).trans ?_
    refine ((@List.perm_append_comm _ r'.toList _).append_right _).trans ?_
    rw [List.append_assoc]
    exact List.perm_append_comm.append_left _

theorem toList_insert (h : Heap) (x : Nat) : (h.insert x).toList.Perm (x :: h.toList) :=
  (toList_merge h (node x leaf leaf)).trans List.perm_append_comm

theorem toList_of_pop? {h k : Heap} {x : Nat} (e : h.pop? = some (x, k)) :
    h.toList.Perm (x :: k.toList) := by
  cases h with
  | leaf => cases e
  | node y l r =>
    obtain ⟨rfl, rfl⟩ := Prod.mk.inj (Option.some.inj e)
    exact .cons _ (toList_merge l r).symm

end Heap

namespace Triggered

/-- The queue holds the propagator. -/
instance : Membership PropagatorId Triggered := ⟨fun t id => id.index ∈ t.queue.toList⟩

instance (x : PropagatorId) (t : Triggered) : Decidable (x ∈ t) :=
  inferInstanceAs (Decidable (x.index ∈ t.queue.toList))

/-- The marks describe the queue, which holds nothing twice. -/
structure Faithful (t : Triggered) : Prop where
  nodup : t.queue.toList.Nodup
  marked : ∀ i, t.marks.getD i false = true ↔ i ∈ t.queue.toList

variable {t u : Triggered} {id x : PropagatorId}

theorem mem_def : x ∈ t ↔ x.index ∈ t.queue.toList := Iff.rfl

theorem Faithful.contains_iff (h : t.Faithful) : t.contains x = true ↔ x ∈ t := h.marked x.index

theorem getD_grow {marks : Array Bool} {i : Nat} :
    (grow marks id).getD i false = marks.getD i false := by
  simp only [grow, Array.getD_eq_getD_getElem?, Array.getElem?_append]
  split
  · rfl
  · rename_i h
    rw [Array.getElem?_eq_none (Nat.not_lt.1 h), Array.getElem?_replicate]
    split <;> rfl

theorem lt_size_grow (marks : Array Bool) : id.index < (grow marks id).size := by
  rw [grow, Array.size_append, Array.size_replicate]
  omega

theorem insert_eq (h : t.Faithful) : t.insert id =
    if id ∈ t then { t with marks := grow t.marks id }
    else ⟨t.queue.insert id.index, (grow t.marks id).setIfInBounds id.index true⟩ := by
  unfold insert
  simp only [getD_grow]
  by_cases hid : id ∈ t
  · rw [if_pos ((h.marked _).2 hid), if_pos hid]
  · rw [if_neg fun hm => hid ((h.marked _).1 hm), if_neg hid]

theorem mem_insert (h : t.Faithful) : x ∈ t.insert id ↔ x = id ∨ x ∈ t := by
  rw [insert_eq h]
  split
  · rename_i hid
    constructor
    · exact .inr
    · rintro (rfl | hx)
      · exact hid
      · exact hx
  · rw [mem_def, (Heap.toList_insert _ _).mem_iff, List.mem_cons]
    refine or_congr_left ⟨fun hi => congrArg PropagatorId.mk hi, ?_⟩
    rintro rfl
    rfl

theorem Faithful.insert (h : t.Faithful) (id : PropagatorId) : (t.insert id).Faithful := by
  rw [insert_eq h]
  split
  · exact ⟨h.nodup, fun i => by rw [getD_grow]; exact h.marked i⟩
  · rename_i hid
    refine ⟨((Heap.toList_insert _ _).nodup_iff).2 (List.nodup_cons.2 ⟨hid, h.nodup⟩), fun i => ?_⟩
    rw [(Heap.toList_insert _ _).mem_iff, List.mem_cons, getD_setIfInBounds, getD_grow]
    by_cases hi : id.index = i
    · simp [hi.symm, lt_size_grow]
    · rw [if_neg fun h => hi h.1, h.marked]
      exact ⟨.inr, fun hx => hx.resolve_left fun he => hi he.symm⟩

/-- There is a mark for every propagator in the queue. -/
theorem Faithful.lt_size_marks (h : t.Faithful) {i : Nat} (hi : i ∈ t.queue.toList) :
    i < t.marks.size := by
  refine Nat.not_le.1 fun hn => ?_
  have hm := (h.marked i).2 hi
  rw [Array.getD_eq_getD_getElem?, Array.getElem?_eq_none hn] at hm
  cases hm

/-- The propagator on top of the queue is taken out, and with it its mark. -/
theorem queue_of_pop? (e : t.pop? = some (id, u)) :
    t.queue.pop? = some (id.index, u.queue) ∧
      u.marks = t.marks.setIfInBounds id.index false := by
  unfold Triggered.pop? at e
  split at e
  · cases e
  · rename_i i queue hq
    obtain ⟨rfl, rfl⟩ := Prod.mk.inj (Option.some.inj e)
    exact ⟨hq, rfl⟩

/-- What taking the smallest propagator out leaves. -/
theorem Faithful.pop? (h : t.Faithful) (e : t.pop? = some (id, u)) :
    u.Faithful ∧ id ∉ u ∧ ∀ x, x ∈ t ↔ x = id ∨ x ∈ u := by
  obtain ⟨hq, hmarks⟩ := queue_of_pop? e
  have hperm := Heap.toList_of_pop? hq
  obtain ⟨hi, hnodup⟩ := List.nodup_cons.1 (hperm.nodup_iff.1 h.nodup)
  refine ⟨⟨hnodup, fun j => ?_⟩, hi, fun x => ?_⟩
  · have hj : t.marks.getD j false = true ↔ j = id.index ∨ j ∈ u.queue.toList := by
      rw [h.marked, hperm.mem_iff, List.mem_cons]
    rw [hmarks, getD_setIfInBounds]
    by_cases hij : id.index = j
    · subst hij
      have hmark : id.index < t.marks.size :=
        h.lt_size_marks (hperm.mem_iff.2 List.mem_cons_self)
      simp [hmark, hi]
    · rw [if_neg fun h => hij h.1, hj]
      exact ⟨fun hx => hx.resolve_left fun he => hij he.symm, .inr⟩
  · rw [mem_def, hperm.mem_iff, List.mem_cons]
    refine or_congr_left ⟨fun hx => congrArg PropagatorId.mk hx, ?_⟩
    rintro rfl
    rfl

theorem not_mem_of_pop? (e : t.pop? = none) : x ∉ t := by
  unfold Triggered.pop? Heap.pop? at e
  rw [mem_def]
  cases hq : t.queue with
  | leaf => exact List.not_mem_nil
  | node y l r => simp [hq] at e

theorem getD_foldl_clear {is : List Nat} {marks : Array Bool} {i : Nat} :
    (is.foldl (fun m j => m.setIfInBounds j false) marks).getD i false = true ↔
      marks.getD i false = true ∧ i ∉ is := by
  induction is generalizing marks with
  | nil => simp
  | cons j is ih =>
    rw [List.foldl_cons, ih, getD_setIfInBounds, List.mem_cons]
    by_cases hj : j = i
    · subst hj
      by_cases hlt : j < marks.size
      · simp [hlt]
      · simp [Array.getD, hlt]
    · rw [if_neg fun h => hj h.1]
      refine and_congr_right fun _ => not_congr ⟨.inr, fun h => h.resolve_left fun he => hj he.symm⟩

theorem not_mem_clear : x ∉ t.clear := List.not_mem_nil

theorem Faithful.clear (h : t.Faithful) : t.clear.Faithful where
  nodup := List.nodup_nil
  marked i := by
    rw [Triggered.clear, getD_foldl_clear, h.marked]
    exact ⟨fun hi => absurd hi.1 hi.2, fun hi => absurd hi List.not_mem_nil⟩

theorem faithful_ofSize (k : Nat) : (ofSize k).Faithful where
  nodup := List.nodup_nil
  marked i := by
    have hfalse : (Array.replicate k false).getD i false = false := by
      rw [Array.getD_eq_getD_getElem?, Array.getElem?_replicate]
      split <;> rfl
    rw [ofSize, hfalse]
    exact ⟨Bool.noConfusion, fun h => absurd h List.not_mem_nil⟩

end Triggered

/-- The states differ at most in what they have counted and told. -/
structure State.Alike (s t : State) : Prop where
  box : s.box = t.box
  entailed : s.entailed = t.entailed
  triggered : s.triggered = t.triggered

namespace State

variable {s : State} {ids : List PropagatorId} {x : PropagatorId}

theorem faithful_foldl_insert {t : Triggered} (h : t.Faithful) :
    (ids.foldl Triggered.insert t).Faithful ∧
      ∀ x, x ∈ ids.foldl Triggered.insert t ↔ x ∈ ids ∨ x ∈ t := by
  induction ids generalizing t with
  | nil => exact ⟨h, fun x => ⟨.inr, fun hx => hx.resolve_left List.not_mem_nil⟩⟩
  | cons id ids ih =>
    obtain ⟨hf, hmem⟩ := ih (h.insert id)
    refine ⟨hf, fun x => ?_⟩
    rw [List.foldl_cons, hmem, Triggered.mem_insert h, List.mem_cons, ← or_assoc,
      or_comm (a := x ∈ ids)]

theorem triggerAll_faithful (h : s.triggered.Faithful) :
    (s.triggerAll ids).triggered.Faithful := (faithful_foldl_insert h).1

/-- Triggering adds the propagators that are not entailed. -/
theorem mem_triggerAll (h : s.triggered.Faithful) : x ∈ (s.triggerAll ids).triggered ↔
    x ∈ ids ∧ s.entailed.entry x = false ∨ x ∈ s.triggered := by
  rw [triggerAll, (faithful_foldl_insert h).2, List.mem_filter, Bool.not_eq_true']

end State
end BoundsSolver
