/-
# Placing intervals by their upper bounds

The critical bounds `c 0 < c 1 < … < c M` cut the integers into pieces, the
`k`-th of which ends at `c k`.  The intervals, given by the ranks of their
bounds, are placed one after the other in the first piece with room from their
lower bound on, in the order of their upper bounds.  An interval that finds room
beyond its upper bound only shows that the stretch around it was filled already
(`Turn.not_balanced`); otherwise the intervals placed so far are balanced, and
the stretches they fill are those without room in any piece
(`Placement.ranks_of_fills`, `Placement.fills_of_room`).

`Greedy` adds the positions that lie in stretches found to be filled.  Nothing
is missed, because a stretch is found when its last interval is placed
(`Greedy.place`).
-/

import BoundsSolver.Proofs.AllDifferent.Forest

namespace BoundsSolver
namespace AllDifferent

/-- An interval from the rank `near` of its lower bound to the rank `far` of the integer
after its upper bound, placed in the piece `spot`. -/
structure Spot where
  near : Nat
  far : Nat
  spot : Nat

/-- The interval that has been placed. -/
def Spot.box (c : Nat → Int) (s : Spot) : Interval := ⟨c s.near, c s.far - 1⟩

/-- Critical bounds in order, with room for more than one value at either end, and close
enough to each other. -/
structure Critical (M : Nat) (c : Nat → Int) : Prop where
  step : ∀ k < M, c k < c (k + 1)
  top : ∀ k, k + 1 = M → c k + 2 ≤ c M
  fits : ∀ k ≤ M, ∀ n ≤ M, Width.sum.Fits (c k - c n)

/-- Intervals in pieces, and the room that is left in each piece. -/
structure Placement (M : Nat) (c : Nat → Int) (placed : List Spot) (room : Nat → Int) :
    Prop where
  valid : ∀ s ∈ placed, 1 ≤ s.near ∧ s.near < s.spot ∧ s.spot ≤ s.far ∧ s.far < M
  full : ∀ s ∈ placed, ∀ i, s.near < i → i < s.spot → room i = 0
  count : ∀ k, k < M →
    room (k + 1) = c (k + 1) - c k - (placed.countP fun s => decide (s.spot = k + 1) : Nat)
  nonneg : ∀ k, k < M → 0 ≤ room (k + 1)

variable {M j k n x y z start : Nat} {c room : Nat → Int} {placed : List Spot} {p q t : Int}

namespace Critical

variable (h : Critical M c)
include h

theorem lt (hkn : k < n) (hn : n ≤ M) : c k < c n := by
  induction n with
  | zero => omega
  | succ n ih =>
    have := h.step n (by omega)
    rcases Nat.lt_or_eq_of_le (Nat.le_of_lt_succ hkn) with hlt | rfl
    · have := ih hlt (by omega)
      omega
    · exact this

theorem le (hkn : k ≤ n) (hn : n ≤ M) : c k ≤ c n := by
  rcases Nat.lt_or_eq_of_le hkn with hlt | rfl
  · exact Int.le_of_lt (h.lt hlt hn)
  · exact Int.le_refl _

theorem rank_lt (hlt : c k < c n) (hk : k ≤ M) : k < n := by
  by_contra hle
  have := h.le (Nat.le_of_not_lt hle) hk
  omega

end Critical

/-- Between two critical bounds, every integer lies in a piece. -/
theorem exists_piece (hkn : k ≤ n) (hM : n ≤ M) (hk : c k ≤ t) (hn : t < c n) :
    ∃ i, k ≤ i ∧ i < n ∧ c i ≤ t ∧ t < c (i + 1) := by
  induction n with
  | zero =>
    obtain rfl : k = 0 := by omega
    omega
  | succ n ih =>
    rcases Nat.lt_or_eq_of_le hkn with hlt | rfl
    · by_cases ht : t < c n
      · obtain ⟨i, h₁, h₂, h₃⟩ := ih (by omega) (by omega) ht
        exact ⟨i, h₁, by omega, h₃⟩
      · exact ⟨n, by omega, by omega, by omega, hn⟩
    · omega

/-- How many intervals are placed in the pieces after `k` up to `n`. -/
def held (placed : List Spot) (k n : Nat) : Nat :=
  placed.countP fun s => decide (k < s.spot ∧ s.spot ≤ n)

theorem held_self (placed : List Spot) (k : Nat) : held placed k k = 0 :=
  List.countP_eq_zero.2 fun s _ hs => by
    have := of_decide_eq_true hs
    omega

theorem held_succ (placed : List Spot) (hkn : k ≤ n) :
    held placed k (n + 1) = held placed k n + placed.countP fun s => decide (s.spot = n + 1) := by
  induction placed with
  | nil => rfl
  | cons s placed ih =>
    simp only [held, List.countP_cons, decide_eq_true_eq] at ih ⊢
    split <;> split <;> split <;> omega

namespace Placement

variable (h : Placement M c placed room)
include h

theorem held_add (hkn : k ≤ n) (hn : n < M) :
    (held placed k (n + 1) : Int) = held placed k n + (c (n + 1) - c n - room (n + 1)) := by
  have := h.count n hn
  rw [held_succ placed hkn]
  omega

/-- Pieces hold no more intervals than integers. -/
theorem held_le (hkn : k ≤ n) (hn : n ≤ M) : (held placed k n : Int) ≤ c n - c k := by
  induction n with
  | zero =>
    obtain rfl : k = 0 := by omega
    rw [held_self]
    omega
  | succ n ih =>
    rcases Nat.lt_or_eq_of_le hkn with hlt | rfl
    · have := h.held_add (k := k) (by omega) hn
      have := h.nonneg n hn
      have := ih (by omega) (by omega)
      omega
    · rw [held_self]
      omega

/-- Pieces without room hold as many intervals as integers. -/
theorem held_eq (hkn : k ≤ n) (hn : n ≤ M) (hfull : ∀ i, k < i → i ≤ n → room i = 0) :
    (held placed k n : Int) = c n - c k := by
  induction n with
  | zero =>
    obtain rfl : k = 0 := by omega
    rw [held_self]
    omega
  | succ n ih =>
    rcases Nat.lt_or_eq_of_le hkn with hlt | rfl
    · have := h.held_add (k := k) (by omega) hn
      have := hfull (n + 1) (by omega) (Nat.le_refl _)
      have := ih (by omega) (by omega) fun i h₁ h₂ => hfull i h₁ (by omega)
      omega
    · rw [held_self]
      omega

/-- Pieces that hold as many intervals as integers have no room. -/
theorem room_eq_zero (hkn : k ≤ n) (hn : n ≤ M) (heq : c n - c k ≤ held placed k n) :
    ∀ i, k < i → i ≤ n → room i = 0 := by
  induction n with
  | zero => exact fun i h₁ h₂ => by omega
  | succ n ih =>
    rcases Nat.lt_or_eq_of_le hkn with hlt | rfl
    · have hadd := h.held_add (k := k) (by omega) hn
      have hnonneg := h.nonneg n hn
      have hle := h.held_le (k := k) (n := n) (by omega) (by omega)
      intro i h₁ h₂
      rcases Nat.lt_or_eq_of_le h₂ with hi | rfl
      · exact ih (by omega) (by omega) (by omega) i h₁ (by omega)
      · omega
    · exact fun i h₁ h₂ => by omega

end Placement

/-- The intervals that have been placed. -/
def boxes (c : Nat → Int) (placed : List Spot) : List Interval := placed.map (Spot.box c)

theorem crowd_boxes (c : Nat → Int) (placed : List Spot) (p q : Int) :
    crowd p q (boxes c placed) = placed.countP fun s => (s.box c).isWithin ⟨p, q⟩ := by
  rw [crowd, boxes, List.countP_map]
  rfl

/-- The intervals between two integers reach from the first lower bound to the last upper
bound among them. -/
theorem exists_ranks (hne : 0 < crowd p q (boxes c placed)) :
    ∃ a ∈ placed, ∃ b ∈ placed, (a.box c).isWithin ⟨p, q⟩ ∧ (b.box c).isWithin ⟨p, q⟩ ∧
      ∀ s ∈ placed, (s.box c).isWithin ⟨p, q⟩ → a.near ≤ s.near ∧ s.far ≤ b.far := by
  rw [crowd_boxes, List.countP_eq_length_filter, List.length_pos_iff] at hne
  have hmap (f : Spot → Nat) := mt (List.map_eq_nil_iff (f := f)).1 hne
  obtain ⟨k, hk⟩ := Option.isSome_iff_exists.1 (List.isSome_min?_of_ne_nil (hmap Spot.near))
  obtain ⟨n, hn⟩ := Option.isSome_iff_exists.1 (List.isSome_max?_of_ne_nil (hmap Spot.far))
  obtain ⟨hk, hleast⟩ := List.min?_eq_some_iff.1 hk
  obtain ⟨hn, hmost⟩ := List.max?_eq_some_iff.1 hn
  obtain ⟨a, ha, rfl⟩ := List.mem_map.1 hk
  obtain ⟨b, hb, rfl⟩ := List.mem_map.1 hn
  rw [List.mem_filter] at ha hb
  refine ⟨a, ha.1, b, hb.1, ha.2, hb.2, fun s hs hw => ?_⟩
  have hs' : s ∈ placed.filter fun s => (s.box c).isWithin ⟨p, q⟩ := List.mem_filter.2 ⟨hs, hw⟩
  exact ⟨hleast _ (List.mem_map_of_mem hs'), hmost _ (List.mem_map_of_mem hs')⟩

namespace Placement

variable (h : Placement M c placed room)
include h

/-- Intervals within a stretch are placed there. -/
theorem crowd_le_held (hin : ∀ s ∈ placed, (s.box c).isWithin ⟨p, q⟩ → k ≤ s.near ∧ s.far ≤ n) :
    crowd p q (boxes c placed) ≤ held placed k n := by
  rw [crowd_boxes]
  refine List.countP_mono_left fun s hs hw => decide_eq_true ?_
  have hv := h.valid s hs
  have := hin s hs hw
  omega

/-- The intervals between two integers are placed in pieces there. -/
theorem exists_stretch_of_crowd (hne : 0 < crowd p q (boxes c placed)) :
    ∃ k n, (1 ≤ k ∧ k < n ∧ n < M) ∧ (p ≤ c k ∧ c n ≤ q + 1) ∧ (∃ s ∈ placed, s.far = n) ∧
      (∀ s ∈ placed, (s.box c).isWithin ⟨p, q⟩ → k ≤ s.near ∧ s.far ≤ n) ∧
      crowd p q (boxes c placed) ≤ held placed k n := by
  obtain ⟨a, ha, b, hb, hwa, hwb, hin⟩ := exists_ranks hne
  have hva := h.valid a ha
  have hvb := h.valid b hb
  have hab := hin a ha hwa
  have hp := (Interval.isWithin_iff.1 hwa).1
  have hq := (Interval.isWithin_iff.1 hwb).2
  simp only [Spot.box] at hp hq
  exact ⟨a.near, b.far, by omega, by omega, ⟨b, hb, rfl⟩, hin, h.crowd_le_held hin⟩

theorem balanced : Balanced (boxes c placed) := by
  intro p q hpq
  rcases Nat.eq_zero_or_pos (crowd p q (boxes c placed)) with hz | hpos
  · omega
  · obtain ⟨k, n, hkn, hpq', -, -, hle⟩ := h.exists_stretch_of_crowd hpos
    have := h.held_le (k := k) (n := n) (by omega) (by omega)
    omega

/-- **A filled stretch ends at critical bounds and has no room.** -/
theorem ranks_of_fills (hf : Fills (boxes c placed) p q) :
    ∃ k n, (1 ≤ k ∧ k < n ∧ n < M) ∧ p = c k ∧ q + 1 = c n ∧ (∃ s ∈ placed, s.far = n) ∧
      (∀ s ∈ placed, (s.box c).isWithin ⟨p, q⟩ → k ≤ s.near ∧ s.far ≤ n) ∧
      ∀ i, k < i → i ≤ n → room i = 0 := by
  obtain ⟨hpq, heq⟩ := hf
  obtain ⟨k, n, hkn, hpq', hfar, hin, hle⟩ := h.exists_stretch_of_crowd (p := p) (q := q) (by omega)
  have := h.held_le (k := k) (n := n) (by omega) (by omega)
  exact ⟨k, n, hkn, by omega, by omega, hfar, hin,
    h.room_eq_zero (by omega) (by omega) (by omega)⟩

/-- **A stretch without room is filled** if the piece before it has room and no interval
reaches beyond it. -/
theorem fills_of_room (hc : Critical M c) (hkn : k < n) (hn : n ≤ M)
    (hfull : ∀ i, k < i → i ≤ n → room i = 0) (hk : room k ≠ 0)
    (hfar : ∀ s ∈ placed, s.far ≤ n) : Fills (boxes c placed) (c k) (c n - 1) := by
  have hlt := hc.lt hkn hn
  have hheld := h.held_eq (k := k) (by omega) hn hfull
  have hle : held placed k n ≤ crowd (c k) (c n - 1) (boxes c placed) := by
    rw [crowd_boxes]
    refine List.countP_mono_left fun s hs hspot => Interval.isWithin_iff.2 ?_
    have hv := h.valid s hs
    have hspot := of_decide_eq_true hspot
    -- the pieces that the interval has passed over have no room
    have hnear : k ≤ s.near := by
      by_contra hlt
      exact hk (h.full s hs k (by omega) hspot.1)
    have h₁ := hc.le hnear (by omega)
    have h₂ := hc.le (hfar s hs) hn
    exact ⟨h₁, by simp only [Spot.box]; omega⟩
  have := h.balanced (c k) (c n - 1) (by omega)
  exact ⟨by omega, by omega⟩

end Placement

end AllDifferent
end BoundsSolver
