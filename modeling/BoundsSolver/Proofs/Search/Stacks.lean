/-
# Stacks of choice points

The slots of a stack outlive what is popped, so that stacks with the same choice points need
not be equal.  Pushing and popping cannot tell them apart as long as they have the same
capacity (`ChoicePoints.Agrees`).
-/

import BoundsSolver.Search.ChoicePoints

namespace BoundsSolver
namespace ChoicePoints

/-- The stacks hold the same choice points and may hold as many. -/
structure Agrees (cs ds : ChoicePoints) : Prop where
  live : cs.live = ds.live
  capacity : cs.capacity = ds.capacity

variable {cs ds points : ChoicePoints} {e : ChoicePoint}

theorem length_live (cs : ChoicePoints) : cs.live.length = cs.depth := by
  rw [live, List.length_take, Array.length_toList]
  exact Nat.min_eq_left cs.depth_le_size

theorem push_full (h : cs.depth = cs.capacity) :
    cs.push e = .error (.choicePointOverflow cs.capacity) := if_pos h

theorem push_of_ne (h : cs.depth ≠ cs.capacity) : ∃ points, cs.push e = .ok points ∧
    points.depth = cs.depth + 1 ∧ points.capacity = cs.capacity := by
  unfold push
  rw [if_neg h]
  split <;> exact ⟨_, rfl, rfl, rfl⟩

theorem push_depth (h : cs.push e = .ok points) :
    cs.depth ≠ cs.capacity ∧ points.depth = cs.depth + 1 ∧ points.capacity = cs.capacity := by
  have hne : cs.depth ≠ cs.capacity := by
    intro hfull
    rw [push_full hfull] at h
    cases h
  obtain ⟨points', hpush, hdepth, hcapacity⟩ := push_of_ne (e := e) hne
  obtain rfl : points' = points := Except.ok.inj (hpush.symm.trans h)
  exact ⟨hne, hdepth, hcapacity⟩

theorem pop?_eq_none_iff : cs.pop? = none ↔ cs.live = [] := by
  rw [← List.length_eq_zero_iff, length_live]
  constructor
  · exact depth_eq_zero_of_pop?
  · intro h
    unfold pop?
    rw [dif_neg (by omega)]

theorem pop?_capacity (h : cs.pop? = some (e, points)) : points.capacity = cs.capacity := by
  unfold pop? at h
  split at h
  · obtain ⟨-, rfl⟩ := Prod.mk.inj (Option.some.inj h)
    rfl
  · cases h

namespace Agrees

theorem depth (h : cs.Agrees ds) : cs.depth = ds.depth := by
  rw [← length_live, ← length_live, h.live]

theorem push (h : cs.Agrees ds) (e : ChoicePoint) :
    (∃ f, cs.push e = .error f ∧ ds.push e = .error f) ∨
      ∃ cs' ds', cs.push e = .ok cs' ∧ ds.push e = .ok ds' ∧ cs'.Agrees ds' := by
  by_cases hfull : cs.depth = cs.capacity
  · have hfull' : ds.depth = ds.capacity := by rw [← h.depth, ← h.capacity, hfull]
    exact .inl ⟨_, push_full hfull, by rw [push_full hfull', h.capacity]⟩
  · have hfull' : ds.depth ≠ ds.capacity := by rwa [← h.depth, ← h.capacity]
    obtain ⟨cs', hcs, -, hcapacity⟩ := push_of_ne (e := e) hfull
    obtain ⟨ds', hds, -, hcapacity'⟩ := push_of_ne (e := e) hfull'
    refine .inr ⟨cs', ds', hcs, hds, ?_, ?_⟩
    · rw [live_push hcs, live_push hds, h.live]
    · rw [hcapacity, hcapacity', h.capacity]

theorem pop? (h : cs.Agrees ds) : cs.pop? = none ∧ ds.pop? = none ∨
    ∃ e cs' ds', cs.pop? = some (e, cs') ∧ ds.pop? = some (e, ds') ∧ cs'.Agrees ds' := by
  cases hcs : cs.pop? with
  | none =>
    have hlive := pop?_eq_none_iff.1 hcs
    exact .inl ⟨rfl, pop?_eq_none_iff.2 (h.live ▸ hlive)⟩
  | some top =>
    obtain ⟨e, cs'⟩ := top
    have hlive := live_pop? hcs
    cases hds : ds.pop? with
    | none =>
      rw [h.live, pop?_eq_none_iff.1 hds] at hlive
      cases (List.append_ne_nil_of_right_ne_nil _ (List.cons_ne_nil e [])) hlive.symm
    | some top' =>
      obtain ⟨e', ds'⟩ := top'
      rw [h.live, live_pop? hds] at hlive
      obtain ⟨hrest, htop⟩ := List.append_inj' hlive rfl
      obtain rfl := List.singleton_inj.1 htop
      refine .inr ⟨e', cs', ds', rfl, rfl, hrest.symm, ?_⟩
      rw [pop?_capacity hcs, pop?_capacity hds, h.capacity]

theorem tightenAll (h : cs.Agrees ds) (br : Branch) :
    (cs.tightenAll br).Agrees (ds.tightenAll br) :=
  ⟨by rw [live_tightenAll, live_tightenAll, h.live], h.capacity⟩

theorem clear (h : cs.Agrees ds) : cs.clear.Agrees ds.clear :=
  ⟨by rw [live_clear, live_clear], h.capacity⟩

end Agrees
end ChoicePoints
end BoundsSolver
