/-
# The triggered propagators in ascending order

No number of a heap is greater than those below it (`Heap.Ordered`), which merging keeps,
so that the number on top is the least.  With marks that describe the queue, the triggered
propagators are therefore as good as a finite set of numbers from which the least is taken:
whatever is put in, taken out and cleared in whatever order, the answers are those of the
set, and queue and marks hold its elements (`runAll_onSet`).
-/

import BoundsSolver.Proofs.Propagation.Triggered
import BoundsSolver.Proofs.Refinement
import Mathlib.Data.Finset.Max

namespace BoundsSolver

namespace Heap

/-- No number is greater than those below it. -/
def Ordered : Heap → Prop
  | leaf => True
  | node x l r => (∀ y ∈ l.toList ++ r.toList, x ≤ y) ∧ l.Ordered ∧ r.Ordered

variable {h k : Heap} {x : Nat}

theorem length_toList (h : Heap) : h.toList.length = h.size := by
  induction h with
  | leaf => rfl
  | node x l r ihl ihr => rw [toList, List.length_cons, List.length_append, ihl, ihr, size]

/-- The top of an ordered heap is its least number. -/
theorem Ordered.root_le {l r : Heap} (h : (node x l r).Ordered) :
    ∀ y ∈ (node x l r).toList, x ≤ y := by
  intro y hy
  rcases List.mem_cons.1 hy with rfl | hy
  · exact Nat.le_refl _
  · exact h.1 y hy

/-- A number below one of two tops, whose side is merged with the other heap. -/
theorem le_of_mem_merge {l r : Heap} (hx : ∀ y ∈ l.toList ++ r.toList, x ≤ y)
    (hk : ∀ y ∈ k.toList, x ≤ y) : ∀ y ∈ (merge r k).toList ++ l.toList, x ≤ y := by
  intro y hy
  rcases List.mem_append.1 hy with hy | hy
  · rcases List.mem_append.1 ((toList_merge r k).mem_iff.1 hy) with hy | hy
    · exact hx y (List.mem_append_right _ hy)
    · exact hk y hy
  · exact hx y (List.mem_append_left _ hy)

theorem Ordered.merge (hh : h.Ordered) (hk : k.Ordered) : (merge h k).Ordered := by
  fun_induction Heap.merge h k with
  | case1 => exact hk
  | case2 => exact hh
  | case3 x l r y l' r' hxy ih =>
    refine ⟨le_of_mem_merge hh.1 fun z hz => ?_, ih hh.2.2 hk, hh.2.1⟩
    exact hxy.trans (hk.root_le z hz)
  | case4 x l r y l' r' hxy ih =>
    refine ⟨le_of_mem_merge hk.1 fun z hz => ?_, ih hk.2.2 hh, hk.2.1⟩
    exact (Nat.le_of_not_le hxy).trans (hh.root_le z hz)

theorem Ordered.insert (h : k.Ordered) (x : Nat) : (k.insert x).Ordered :=
  h.merge ⟨fun _ hy => (List.not_mem_nil hy).elim, trivial, trivial⟩

/-- What is taken out is the least number, and what is left is ordered. -/
theorem Ordered.pop? (ho : h.Ordered) (e : h.pop? = some (x, k)) :
    k.Ordered ∧ ∀ y ∈ k.toList, x ≤ y := by
  cases h with
  | leaf => cases e
  | node y l r =>
    obtain ⟨rfl, rfl⟩ := Prod.mk.inj (Option.some.inj e)
    exact ⟨ho.2.1.merge ho.2.2, fun z hz => ho.1 z ((toList_merge l r).mem_iff.1 hz)⟩

end Heap

namespace Triggered

/-- What is done with the triggered propagators. -/
inductive Operation where
  | insert (id : PropagatorId)
  | pop
  | clear
  deriving DecidableEq, Repr

/-- The propagator that is taken out, if one is, and what is triggered afterwards. -/
def Operation.run : Operation → Triggered → Option PropagatorId × Triggered
  | .insert id, t => (none, t.insert id)
  | .pop, t =>
    match t.pop? with
    | none => (none, t)
    | some (id, u) => (some id, u)
  | .clear, t => (none, t.clear)

/-- The same on a finite set of numbers, of which the least is taken out. -/
def Operation.onSet : Operation → Finset ℕ → Option PropagatorId × Finset ℕ
  | .insert id, S => (none, Insert.insert id.index S)
  | .pop, S => if h : S.Nonempty then (some ⟨S.min' h⟩, S.erase (S.min' h)) else (none, S)
  | .clear, _ => (none, ∅)

/-- Queue and marks hold the elements of the set, and the queue holds nothing twice. -/
structure Describes (t : Triggered) (S : Finset ℕ) : Prop extends Faithful t where
  ordered : t.queue.Ordered
  queued : ∀ i, i ∈ t.queue.toList ↔ i ∈ S

variable {t u : Triggered} {S : Finset ℕ} {id : PropagatorId}

theorem Describes.mem_iff (h : t.Describes S) {x : PropagatorId} : x ∈ t ↔ x.index ∈ S :=
  h.queued x.index

theorem Describes.size_eq (h : t.Describes S) : t.size = S.card := by
  have hS : t.queue.toList.toFinset = S := Finset.ext fun i => by rw [List.mem_toFinset, h.queued]
  rw [← hS, List.toFinset_card_of_nodup h.nodup, Heap.length_toList]
  rfl

theorem Describes.isEmpty_iff (h : t.Describes S) : t.isEmpty = true ↔ S = ∅ := by
  rw [isEmpty, decide_eq_true_iff, ← Finset.card_eq_zero, ← h.size_eq]
  rfl

theorem Describes.insert (h : t.Describes S) (id : PropagatorId) :
    (t.insert id).Describes (Insert.insert id.index S) where
  toFaithful := h.toFaithful.insert id
  ordered := by
    rw [insert_eq h.toFaithful]
    split
    · exact h.ordered
    · exact h.ordered.insert id.index
  queued i := by
    have hi : ⟨i⟩ ∈ t.insert id ↔ ⟨i⟩ = id ∨ ⟨i⟩ ∈ t := mem_insert h.toFaithful
    rw [mem_def, h.mem_iff] at hi
    rw [hi, Finset.mem_insert]
    exact or_congr_left ⟨fun e => congrArg PropagatorId.index e, fun e => congrArg _ e⟩

/-- What is taken out is the least element, and only that is taken out. -/
theorem Describes.pop? (h : t.Describes S) (e : t.pop? = some (id, u)) :
    ∃ hS : S.Nonempty, id.index = S.min' hS ∧ u.Describes (S.erase (S.min' hS)) := by
  obtain ⟨hfaithful, hout, hmem⟩ := h.toFaithful.pop? e
  have hid : id.index ∈ S := h.mem_iff.1 ((hmem id).2 (.inl rfl))
  obtain ⟨hordered, hleast⟩ := h.ordered.pop? (queue_of_pop? e).1
  have hmin : id.index = S.min' ⟨_, hid⟩ := by
    refine le_antisymm (Finset.le_min' _ _ _ fun i hi => ?_) (Finset.min'_le _ _ hid)
    rcases (hmem ⟨i⟩).1 (h.mem_iff.2 hi) with heq | hu
    · exact (congrArg PropagatorId.index heq).ge
    · exact hleast i hu
  refine ⟨⟨_, hid⟩, hmin, hfaithful, hordered, fun i => ?_⟩
  rw [Finset.mem_erase, ← hmin, ← h.queued]
  have hi := hmem ⟨i⟩
  constructor
  · intro hu
    refine ⟨fun heq => hout ?_, hi.2 (.inr hu)⟩
    rw [mem_def, ← heq]
    exact hu
  · rintro ⟨hne, ht⟩
    exact (hi.1 ht).resolve_left fun heq => hne (congrArg PropagatorId.index heq)

theorem Describes.clear (h : t.Describes S) : t.clear.Describes ∅ where
  toFaithful := h.toFaithful.clear
  ordered := trivial
  queued i := by simp [Triggered.clear, Heap.toList]

theorem describes_ofSize (k : Nat) : (ofSize k).Describes ∅ where
  toFaithful := faithful_ofSize k
  ordered := trivial
  queued i := by simp [ofSize, Heap.toList]

/-- Clearing is the same as taking all propagators out one after the other. -/
theorem clear_of_pop? (e : t.pop? = some (id, u)) : t.clear = u.clear := by
  obtain ⟨hq, hmarks⟩ := queue_of_pop? e
  have hcomm : RightCommutative fun (marks : Array Bool) i => marks.setIfInBounds i false :=
    ⟨fun marks i j => by
      by_cases hij : i = j
      · rw [hij]
      · exact Array.setIfInBounds_comm _ _ hij⟩
  rw [clear, clear, hmarks, (Heap.toList_of_pop? hq).foldl_eq, List.foldl_cons]

/-- One operation gets the answer of the set, and set and propagators stay in step. -/
theorem Operation.run_onSet (o : Operation) (h : t.Describes S) :
    (o.run t).1 = (o.onSet S).1 ∧ (o.run t).2.Describes (o.onSet S).2 := by
  cases o with
  | insert id => exact ⟨rfl, h.insert id⟩
  | clear => exact ⟨rfl, h.clear⟩
  | pop =>
    rw [Operation.run, Operation.onSet]
    cases hpop : t.pop? with
    | none =>
      have hS : ¬ S.Nonempty := by
        rintro ⟨i, hi⟩
        exact not_mem_of_pop? (x := ⟨i⟩) hpop (h.mem_iff.2 hi)
      rw [dif_neg hS]
      exact ⟨rfl, h⟩
    | some top =>
      obtain ⟨id, u⟩ := top
      obtain ⟨hS, hmin, hu⟩ := h.pop? hpop
      rw [dif_pos hS, ← hmin]
      exact ⟨rfl, hmin ▸ hu⟩

/-- **The triggered propagators are a finite set.**  Whatever room they start with, any
sequence of operations gets the answers that a finite set of numbers gives, taking out its
least element; afterwards marks and queue hold the elements of the set, with a mark for each,
and as many as it has. -/
theorem runAll_onSet (k : Nat) (os : List Operation) :
    (runAll Operation.run os (ofSize k)).1 = (runAll Operation.onSet os ∅).1 ∧
      (runAll Operation.run os (ofSize k)).2.Describes (runAll Operation.onSet os ∅).2 ∧
      (∀ i ∈ (runAll Operation.onSet os ∅).2,
        i < (runAll Operation.run os (ofSize k)).2.marks.size) ∧
      (runAll Operation.run os (ofSize k)).2.size = (runAll Operation.onSet os ∅).2.card ∧
      ((runAll Operation.run os (ofSize k)).2.isEmpty = true ↔
        (runAll Operation.onSet os ∅).2 = ∅) := by
  obtain ⟨hanswers, h⟩ := runAll_refines
    (fun o (t : Triggered) (S : Finset ℕ) (h : t.Describes S) => o.run_onSet h) os
    (describes_ofSize k)
  refine ⟨hanswers, h, fun i hi => ?_, h.size_eq, h.isEmpty_iff⟩
  exact h.toFaithful.lt_size_marks ((h.queued i).2 hi)

end Triggered
end BoundsSolver
