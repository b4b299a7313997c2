/-
# One interval at a time

The step of a pass, in terms of rooms and stretches: an interval goes to the
first piece with room from its lower bound on.  The room at the next such piece
tells what follows (`room_lt_gap`, `gap_le_room`): whether the interval found
no room up to its upper bound, and whether it has just filled a stretch that ends
there.  `Greedy.place` is the invariant of the pass, and `Greedy.cleared` is what
the pass knows about the lower bound of an interval whose turn has come.
-/

import BoundsSolver.Proofs.AllDifferent.Placement
import Mathlib.Logic.Function.Basic

namespace BoundsSolver
namespace AllDifferent

/-- The turn of an interval from `x` to `y`: none before it ends later, and `start` is the
first piece with room for it. -/
structure Turn (M : Nat) (c : Nat → Int) (placed : List Spot) (room : Nat → Int)
    (x y start : Nat) : Prop where
  critical : Critical M c
  placement : Placement M c placed room
  bounds : 1 ≤ x ∧ x < y ∧ y < M
  far : ∀ s ∈ placed, s.far ≤ y
  first : IsTop (fun k => room k ≠ 0) (x + 1) start
  start_le : start ≤ M

/-- The room after one more interval. -/
def fill (room : Nat → Int) (start : Nat) : Nat → Int :=
  Function.update room start (room start - 1)

variable {M j k x y z start : Nat} {c room : Nat → Int} {placed : List Spot} {p q : Int}

theorem fill_self : fill room start start = room start - 1 := Function.update_self ..

theorem fill_of_ne (h : k ≠ start) : fill room start k = room k := Function.update_of_ne h ..

theorem fill_eq_zero (h : room k = 0) (hs : room start ≠ 0) : fill room start k = 0 := by
  have hne : k ≠ start := by
    rintro rfl
    exact hs h
  rw [fill_of_ne hne, h]

/-- Nothing has been placed in the first piece. -/
theorem Placement.room_one (hp : Placement M c placed room) (hc : Critical M c) (hM : 0 < M) :
    room 1 ≠ 0 := by
  have hcount := hp.count 0 hM
  have hzero : placed.countP (fun s => decide (s.spot = 0 + 1)) = 0 :=
    List.countP_eq_zero.2 fun s hs he => by
      have := hp.valid s hs
      have := of_decide_eq_true he
      omega
  have := hc.step 0 hM
  rw [hzero] at hcount
  simp only [Nat.zero_add] at hcount this
  omega

namespace Turn

variable (h : Turn M c placed room x y start)
include h

/-- Nothing has been placed beyond the upper bound. -/
theorem room_beyond (hk : y ≤ k) (hM : k < M) : room (k + 1) = c (k + 1) - c k := by
  have hcount := h.placement.count k hM
  have hzero : placed.countP (fun s => decide (s.spot = k + 1)) = 0 :=
    List.countP_eq_zero.2 fun s hs he => by
      have := h.placement.valid s hs
      have := h.far s hs
      have := of_decide_eq_true he
      omega
  rw [hcount, hzero]
  omega

theorem room_succ_ne_zero (hk : y ≤ k) (hM : k < M) : room (k + 1) ≠ 0 := by
  have := h.room_beyond hk hM
  have := h.critical.step k hM
  omega

theorem start_pos : 1 ≤ start := by
  have := h.first.le
  omega

theorem room_start_pos : 0 < room start := by
  have hpos := h.start_pos
  have hnonneg := h.placement.nonneg (start - 1) (by have := h.start_le; omega)
  rw [Nat.sub_add_cancel hpos] at hnonneg
  have hne : room start ≠ 0 := h.first.isRoot
  omega

/-- The room that is left in the piece fits. -/
theorem room_start_fits : Width.sum.Fits (room start - 1) := by
  have hpos := h.start_pos
  have hroom := h.room_start_pos
  have hle := h.start_le
  have hcount := h.placement.count (start - 1) (by omega)
  rw [Nat.sub_add_cancel hpos] at hcount
  have hgap := h.critical.fits start hle (start - 1) (by omega)
  have hlo : Width.sum.lo ≤ 0 := by decide
  exact ⟨by omega, Int.le_trans (by omega) hgap.2⟩

theorem start_le_succ : start ≤ y + 1 := by
  by_contra hlt
  have hb := h.bounds
  exact h.first.first (y + 1) (by omega) (by omega) (h.room_succ_ne_zero (Nat.le_refl y) hb.2.2)

/-- Some piece has room even now. -/
theorem fill_top_ne_zero : fill room start M ≠ 0 := by
  obtain ⟨M, rfl⟩ : ∃ m, M = m + 1 := ⟨M - 1, by have := h.bounds; omega⟩
  have hroom := h.room_beyond (k := M) (by have := h.bounds; omega) (Nat.lt_succ_self M)
  have htop := h.critical.top M rfl
  by_cases he : M + 1 = start
  · subst he
    rw [fill_self]
    omega
  · rw [fill_of_ne he]
    omega

/-- **The interval in its piece.** -/
theorem place (hle : start ≤ y) :
    Placement M c (⟨x, y, start⟩ :: placed) (fill room start) where
  valid s hs := by
    rcases List.mem_cons.1 hs with rfl | hs
    · have hb := h.bounds
      exact ⟨hb.1, h.first.le, hle, hb.2.2⟩
    · exact h.placement.valid s hs
  full s hs i h₁ h₂ := by
    rcases List.mem_cons.1 hs with rfl | hs
    · by_contra hne
      exact hne (fill_eq_zero (by_contra fun hr => h.first.first i h₁ h₂ hr) h.first.isRoot)
    · exact fill_eq_zero (h.placement.full s hs i h₁ h₂) h.first.isRoot
  count k hM := by
    have hcount := h.placement.count k hM
    rw [List.countP_cons]
    by_cases he : k + 1 = start
    · subst he
      rw [fill_self, hcount]
      simp
      omega
    · rw [fill_of_ne he, hcount, if_neg fun hs => he (of_decide_eq_true hs).symm]
      omega
  nonneg k hM := by
    by_cases he : k + 1 = start
    · have := h.room_start_pos
      rw [he, fill_self]
      omega
    · rw [fill_of_ne he]
      exact h.placement.nonneg k hM

section Next

variable (hz : IsTop (fun k => fill room start k ≠ 0) (x + 1) z) (hzM : z ≤ M)
include hz hzM

/-- **No room up to the upper bound** shows in the room at the next piece that has any. -/
theorem room_lt_gap (hlt : y < start) : fill room start z < c z - c y := by
  have hle := h.start_le_succ
  obtain rfl : start = y + 1 := by omega
  have hb := h.bounds
  have hyz : y + 1 ≤ z := by
    by_contra hlt
    have hne : fill room (y + 1) z ≠ 0 := hz.isRoot
    rw [fill_of_ne (by omega)] at hne
    exact h.first.first z hz.le (by omega) hne
  obtain ⟨z, rfl⟩ : ∃ n, z = n + 1 := ⟨z - 1, by omega⟩
  have hroom := h.room_beyond (k := z) (by omega) (by omega)
  rcases Nat.lt_or_eq_of_le hyz with hlt | heq
  · have := h.critical.lt (k := y) (n := z) (by omega) (by omega)
    rw [fill_of_ne (by omega)]
    omega
  · obtain rfl : y = z := by omega
    rw [fill_self]
    omega

/-- The room at the next piece that has any is no less than up to there, and just that much
if the pieces up to the upper bound have no room. -/
theorem gap_le_room (hle : start ≤ y) :
    c z - c y ≤ fill room start z ∧ (fill room start z = c z - c y ↔ y < z) := by
  have hb := h.bounds
  have hpos : 0 < fill room start z := by
    obtain ⟨z, rfl⟩ : ∃ n, z = n + 1 := ⟨z - 1, by have := hz.le; omega⟩
    have := (h.place hle).nonneg z hzM
    have hne : fill room start (z + 1) ≠ 0 := hz.isRoot
    omega
  rcases Nat.lt_or_ge y z with hyz | hyz
  · have hnext : z ≤ y + 1 := by
      by_contra hlt
      have hne := h.room_succ_ne_zero (Nat.le_refl y) hb.2.2
      exact hz.first (y + 1) (by omega) (by omega) (by rw [fill_of_ne (by omega)]; exact hne)
    obtain rfl : z = y + 1 := by omega
    rw [fill_of_ne (by omega), h.room_beyond (Nat.le_refl y) hb.2.2]
    exact ⟨Int.le_refl _, fun _ => hyz, fun _ => rfl⟩
  · have := h.critical.le hyz (by omega)
    exact ⟨by omega, fun he => by omega, fun hlt => by omega⟩

end Next

section Previous

variable (hj : room j ≠ 0) (hjs : j < start)
include hj hjs

theorem previous_le : j ≤ x := by
  by_contra hlt
  exact h.first.first j (by omega) hjs hj

variable (hbetween : ∀ i, j < i → i < start → room i = 0)
include hbetween

/-- **Too many intervals for too few values.** -/
theorem not_balanced (hlt : y < start) :
    ¬ Balanced (⟨c x, c y - 1⟩ :: boxes c placed) := by
  intro hb
  have hbounds := h.bounds
  have hjx := h.previous_le hj hjs
  have hfill := h.placement.fills_of_room h.critical (k := j) (n := y) (by omega) (by omega)
    (fun i h₁ h₂ => hbetween i h₁ (by omega)) hj h.far
  have hle := hb (c j) (c y - 1) (by have := hfill.1; omega)
  have hc := h.critical.le hjx (by omega)
  rw [crowd_cons, if_pos ⟨hc, Int.le_refl _⟩] at hle
  have := hfill.2
  omega

/-- **A stretch that has just been filled.** -/
theorem fills (hle : start ≤ y) (hz : IsTop (fun k => fill room start k ≠ 0) (x + 1) z)
    (hyz : y < z) : (∀ i, j < i → i ≤ y → fill room start i = 0) ∧
      Fills (boxes c (⟨x, y, start⟩ :: placed)) (c j) (c y - 1) := by
  have hbounds := h.bounds
  have hjx := h.previous_le hj hjs
  have hzero : ∀ i, j < i → i ≤ y → fill room start i = 0 := fun i h₁ h₂ => by
    rcases Nat.lt_or_ge i start with hi | hi
    · exact fill_eq_zero (hbetween i h₁ hi) h.first.isRoot
    · by_contra hne
      exact hz.first i (Nat.le_trans h.first.le hi) (by omega) hne
  refine ⟨hzero, (h.place hle).fills_of_room h.critical (by omega) (by omega) hzero ?_ ?_⟩
  · rw [fill_of_ne (by omega)]
    exact hj
  · intro s hs
    rcases List.mem_cons.1 hs with rfl | hs
    · exact Nat.le_refl y
    · exact h.far s hs

end Previous

end Turn

/-- The invariant of a pass: `hall` holds at the positions whose piece lies in a stretch that
the intervals placed so far fill. -/
structure Greedy (M : Nat) (c : Nat → Int) (placed : List Spot) (room : Nat → Int)
    (hall : Nat → Prop) : Prop where
  placement : Placement M c placed room
  sound : ∀ k, hall k → ∃ p q, (p ≤ c k ∧ c (k + 1) ≤ q + 1) ∧ Fills (boxes c placed) p q
  complete : ∀ p q k, Fills (boxes c placed) p q → k ≤ M → p ≤ c k → c k ≤ q → hall k
  closed : ∀ k, hall k → k < M ∧ room (k + 1) = 0

namespace Greedy

variable {hall : Nat → Prop} {w : Nat} (h : Greedy M c placed room hall)
include h

/-- The piece of a position in a filled stretch has no room. -/
theorem not_hall_of_room (hk : room (k + 1) ≠ 0) : ¬ hall k := fun hh => hk (h.closed k hh).2

/-- **The invariant is kept.** -/
theorem place (t : Turn M c placed room x y start) (hle : start ≤ y)
    (hz : IsTop (fun k => fill room start k ≠ 0) (x + 1) z) (hj : room j ≠ 0) (hjs : j < start)
    (hbetween : ∀ i, j < i → i < start → room i = 0) :
    Greedy M c (⟨x, y, start⟩ :: placed) (fill room start)
      (fun k => hall k ∨ (y < z ∧ j ≤ k ∧ k < y)) := by
  have hplace := t.place hle
  have hb := t.bounds
  have hjx := t.previous_le hj hjs
  refine ⟨hplace, fun k hk => ?_, fun p q k hf hM hp hq => ?_, fun k hk => ?_⟩
  · rcases hk with hk | ⟨hyz, hjk, hky⟩
    · obtain ⟨p, q, hpq, hf⟩ := h.sound k hk
      exact ⟨p, q, hpq, hf.cons hplace.balanced⟩
    · have h₁ := t.critical.le hjk (by omega)
      have h₂ := t.critical.le (k := k + 1) (n := y) (by omega) (by omega)
      exact ⟨c j, c y - 1, ⟨h₁, by omega⟩, (t.fills hj hjs hbetween hle hz hyz).2⟩
  · by_cases hin : p ≤ c x ∧ c y - 1 ≤ q
    · -- the stretch has just been filled, so it ends at the upper bound
      obtain ⟨m, n, hmn, hm, hn, ⟨s, hs, hfar⟩, hall, hzero⟩ := hplace.ranks_of_fills hf
      obtain ⟨hmx, hyn⟩ := hall _ List.mem_cons_self (Interval.isWithin_iff.2 hin)
      have hny : n ≤ y := by
        rcases List.mem_cons.1 hs with rfl | hs
        · exact Nat.le_of_eq hfar.symm
        · exact hfar ▸ t.far s hs
      obtain rfl : n = y := Nat.le_antisymm hny hyn
      have hmx : m ≤ x := hmx
      have hyz : n < z := by
        by_contra hlt
        have := hz.le
        exact hz.isRoot (hzero z (by omega) (by omega))
      have hjm : j ≤ m := by
        by_contra hlt
        have := hzero j (by omega) (by omega)
        rw [fill_of_ne (by omega)] at this
        exact hj this
      have hkm : m ≤ k := by
        by_contra hlt
        have := t.critical.lt (k := k) (n := m) (by omega) (by omega)
        omega
      have hkn := t.critical.rank_lt (k := k) (n := n) (by omega) hM
      exact .inr ⟨hyz, by omega, hkn⟩
    · have hf' : Fills (boxes c placed) p q := by
        obtain ⟨hpq, heq⟩ := hf
        refine ⟨hpq, ?_⟩
        rw [show boxes c (⟨x, y, start⟩ :: placed) = ⟨c x, c y - 1⟩ :: boxes c placed from rfl,
          crowd_cons, if_neg hin] at heq
        exact heq
      exact .inl (h.complete p q k hf' hM hp hq)
  · rcases hk with hk | ⟨hyz, hjk, hky⟩
    · obtain ⟨hlt, hzero⟩ := h.closed k hk
      exact ⟨hlt, fill_eq_zero hzero t.first.isRoot⟩
    · exact ⟨by omega, (t.fills hj hjs hbetween hle hz hyz).1 (k + 1) (by omega) (by omega)⟩

/-- **The lower bound past the filled stretches.** -/
theorem cleared (hc : Critical M c) (hw : IsTop (fun k => ¬ hall k) x w) (hwM : w ≤ M) :
    Cleared ⟨c x, c y - 1⟩ (boxes c placed) (c w) where
  le := hc.le hw.le hwM
  covered t h₁ h₂ := by
    obtain ⟨i, hxi, hiw, hi, hi'⟩ := exists_piece hw.le hwM h₁ h₂
    obtain ⟨p, q, hpq, hf⟩ := h.sound i (by_contra fun hn => hw.first i hxi hiw hn)
    exact ⟨p, q, ⟨by omega, by omega⟩, hf⟩
  free p q hp hq hf := hw.isRoot (h.complete p q w hf hwM hp hq)

end Greedy

end AllDifferent
end BoundsSolver
