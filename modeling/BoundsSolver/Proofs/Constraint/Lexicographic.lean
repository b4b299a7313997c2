/-
# The lexicographic order is exact

The least values of the left side against the greatest of the right side decide
whether the positions behind the deciding one can still be ordered, the greatest
against the least whether they always are (`lexLe_mono`).  Where the deciding
position is left as it was, the left side can stay strictly below the right one
there, and whatever the positions behind it take is then ordered
(`reached_of_unchanged`).
-/

import BoundsSolver.Proofs.Contract

namespace BoundsSolver
namespace Lexicographic

/-- The intervals on which the order can be propagated. -/
def Posed (is : List Interval) : Prop :=
  is.length % 2 = 0 ∧ Filled is ∧ ∀ i ∈ is, i.Fits

/-- The intervals of the left side. -/
def lefts (ps : List (Interval × Interval)) : List Interval := ps.map Prod.fst

/-- The intervals of the right side. -/
def rights (ps : List (Interval × Interval)) : List Interval := ps.map Prod.snd

/-- Both sides hold values and are representable. -/
def Sides (ps : List (Interval × Interval)) : Prop :=
  ∀ p ∈ ps, (p.1.min ≤ p.1.max ∧ p.1.Fits) ∧ p.2.min ≤ p.2.max ∧ p.2.Fits

/-- Every bound on either side is taken by an ordered assignment. -/
structure Reached (ps : List (Interval × Interval)) : Prop where
  solvable : ∃ us ws, Mem us (lefts ps) ∧ Mem ws (rights ps) ∧ LexLe us ws
  left {k : Nat} {x y : Interval} {b : Int} : ps[k]? = some (x, y) → b = x.min ∨ b = x.max →
    ∃ us ws, Mem us (lefts ps) ∧ Mem ws (rights ps) ∧ LexLe us ws ∧ us[k]? = some b
  right {k : Nat} {x y : Interval} {b : Int} : ps[k]? = some (x, y) → b = y.min ∨ b = y.max →
    ∃ us ws, Mem us (lefts ps) ∧ Mem ws (rights ps) ∧ LexLe us ws ∧ ws[k]? = some b

variable {ps qs rest : List (Interval × Interval)} {us vs ws : List Int} {x y : Interval}

/-! ### The order of values -/

theorem lexLe_mono {us us' ws ws' : List Int} (hu : List.Forall₂ (· ≤ ·) us' us)
    (hw : List.Forall₂ (· ≤ ·) ws ws') (h : LexLe us ws) : LexLe us' ws' := by
  induction hu generalizing ws ws' with
  | nil => exact True.intro
  | cons hle _ ih =>
    cases hw with
    | nil => exact h
    | cons hle' hw =>
      rcases h with h | ⟨rfl, h⟩
      · exact .inl (by omega)
      · rcases Int.lt_or_eq_of_le (Int.le_trans hle hle') with h' | h'
        · exact .inl h'
        · exact .inr ⟨h', ih hw h⟩

theorem exceeds_eq_false_iff {l : List (Int × Int)} :
    exceeds l = false ↔ LexLe (l.map Prod.fst) (l.map Prod.snd) := by
  induction l with
  | nil => exact ⟨fun _ => True.intro, fun _ => rfl⟩
  | cons p l ih =>
    obtain ⟨a, b⟩ := p
    simp only [exceeds, List.map_cons, LexLe]
    split
    · rename_i hab
      rw [ih]
      constructor
      · exact fun h => .inr ⟨hab, h⟩
      · rintro (h | ⟨-, h⟩)
        · omega
        · exact h
    · rename_i hab
      rw [decide_eq_false_iff_not]
      constructor
      · exact fun h => .inl (by omega)
      · rintro (h | ⟨h, -⟩)
        · omega
        · exact absurd h hab

theorem mem_mins_le {is : List Interval} (h : Mem vs is) :
    List.Forall₂ (· ≤ ·) (is.map Interval.min) vs := by
  induction h with
  | nil => exact .nil
  | cons hmin _ _ ih => exact .cons hmin ih

theorem mem_le_maxs {is : List Interval} (h : Mem vs is) :
    List.Forall₂ (· ≤ ·) vs (is.map Interval.max) := by
  induction h with
  | nil => exact .nil
  | cons _ hmax _ ih => exact .cons hmax ih

theorem mustExceed_eq_false_iff : mustExceed rest = false ↔
    LexLe ((lefts rest).map Interval.min) ((rights rest).map Interval.max) := by
  rw [mustExceed, exceeds_eq_false_iff]
  simp only [lefts, rights, List.map_map]
  rfl

theorem mayExceed_eq_false_iff : mayExceed rest = false ↔
    LexLe ((lefts rest).map Interval.max) ((rights rest).map Interval.min) := by
  rw [mayExceed, exceeds_eq_false_iff]
  simp only [lefts, rights, List.map_map]
  rfl

/-- If some assignment is ordered, the most favourable one is. -/
theorem mustExceed_of_lexLe (hu : Mem us (lefts rest)) (hw : Mem ws (rights rest))
    (h : LexLe us ws) : mustExceed rest = false :=
  mustExceed_eq_false_iff.2 (lexLe_mono (mem_mins_le hu) (mem_le_maxs hw) h)

/-- If the least favourable assignment is ordered, all are. -/
theorem lexLe_of_mayExceed (hu : Mem us (lefts rest)) (hw : Mem ws (rights rest))
    (h : mayExceed rest = false) : LexLe us ws :=
  lexLe_mono (mem_le_maxs hu) (mem_mins_le hw) (mayExceed_eq_false_iff.1 h)

/-! ### The sides -/

theorem Sides.cons_iff : Sides ((x, y) :: rest) ↔
    ((x.min ≤ x.max ∧ x.Fits) ∧ y.min ≤ y.max ∧ y.Fits) ∧ Sides rest :=
  List.forall_mem_cons

theorem Sides.filled_lefts (h : Sides ps) : Filled (lefts ps) := by
  intro i hi
  obtain ⟨p, hp, rfl⟩ := List.mem_map.1 hi
  exact (h p hp).1.1

theorem Sides.filled_rights (h : Sides ps) : Filled (rights ps) := by
  intro i hi
  obtain ⟨p, hp, rfl⟩ := List.mem_map.1 hi
  exact (h p hp).2.1

/-- Some assignment of a filled box has a given value at a position. -/
theorem exists_mem_at {is : List Interval} {k : Nat} {i : Interval} {b : Int} (hf : Filled is)
    (hk : is[k]? = some i) (hb : b = i.min ∨ b = i.max) : ∃ vs, Mem vs is ∧ vs[k]? = some b := by
  rcases hb with rfl | rfl
  · exact ⟨_, hf.mem_mins, by rw [List.getElem?_map, hk]; rfl⟩
  · exact ⟨_, hf.mem_maxs, by rw [List.getElem?_map, hk]; rfl⟩

/-- Sides all of whose assignments are ordered reach every bound. -/
theorem reached_of_forall (hs : Sides ps)
    (h : ∀ us ws, Mem us (lefts ps) → Mem ws (rights ps) → LexLe us ws) : Reached ps where
  solvable := ⟨_, _, hs.filled_lefts.mem_mins, hs.filled_rights.mem_mins,
    h _ _ hs.filled_lefts.mem_mins hs.filled_rights.mem_mins⟩
  left hk hb := by
    obtain ⟨us, hu, hub⟩ := exists_mem_at hs.filled_lefts (by rw [lefts, List.getElem?_map, hk]; rfl) hb
    exact ⟨us, _, hu, hs.filled_rights.mem_mins, h _ _ hu hs.filled_rights.mem_mins, hub⟩
  right hk hb := by
    obtain ⟨ws, hw, hwb⟩ := exists_mem_at hs.filled_rights
      (by rw [rights, List.getElem?_map, hk]; rfl) hb
    exact ⟨_, ws, hs.filled_lefts.mem_mins, hw, h _ _ hs.filled_lefts.mem_mins hw, hwb⟩

/-- Equal values in front change nothing. -/
theorem Reached.tied (h : Reached rest) (hx : x.min = x.max) : Reached ((x, x) :: rest) := by
  have front {us ws : List Int} (hu : Mem us (lefts rest)) (hw : Mem ws (rights rest))
      (hle : LexLe us ws) : Mem (x.min :: us) (lefts ((x, x) :: rest)) ∧
        Mem (x.min :: ws) (rights ((x, x) :: rest)) ∧ LexLe (x.min :: us) (x.min :: ws) :=
    ⟨.cons (Int.le_refl _) (Int.le_of_eq hx) hu, .cons (Int.le_refl _) (Int.le_of_eq hx) hw,
      .inr ⟨rfl, hle⟩⟩
  obtain ⟨us₀, ws₀, hu₀, hw₀, hle₀⟩ := h.solvable
  obtain ⟨hu₁, hw₁, hle₁⟩ := front hu₀ hw₀ hle₀
  refine ⟨⟨_, _, hu₁, hw₁, hle₁⟩, fun {k x' y' b} hk hb => ?_, fun {k x' y' b} hk hb => ?_⟩
  · cases k with
    | zero =>
      obtain ⟨rfl, rfl⟩ := Prod.mk.inj (Option.some.inj hk)
      exact ⟨_, _, hu₁, hw₁, hle₁, by rw [List.getElem?_cons_zero]; congr 1; omega⟩
    | succ k =>
      obtain ⟨us, ws, hu, hw, hle, hkb⟩ := h.left (by simpa using hk) hb
      obtain ⟨hu', hw', hle'⟩ := front hu hw hle
      exact ⟨_, _, hu', hw', hle', hkb⟩
  · cases k with
    | zero =>
      obtain ⟨rfl, rfl⟩ := Prod.mk.inj (Option.some.inj hk)
      exact ⟨_, _, hu₁, hw₁, hle₁, by rw [List.getElem?_cons_zero]; congr 1; omega⟩
    | succ k =>
      obtain ⟨us, ws, hu, hw, hle, hkb⟩ := h.right (by simpa using hk) hb
      obtain ⟨hu', hw', hle'⟩ := front hu hw hle
      exact ⟨_, _, hu', hw', hle', hkb⟩

/-! ### The deciding position -/

theorem tied_iff : tied x y = true ↔ x.min = x.max ∧ x = y := by
  simp only [tied, Bool.and_eq_true, Interval.isFixed_iff, decide_eq_true_eq]
  constructor
  · exact fun h => ⟨h.1.1, h.2⟩
  · rintro ⟨h, rfl⟩
    exact ⟨⟨h, h⟩, rfl⟩

theorem order_within (gap : Int) (x y : Interval) :
    (order gap x y).1.isWithin x ∧ (order gap x y).2.isWithin y :=
  ⟨Interval.tightenMax_isWithin _ _, Interval.tightenMin_isWithin _ _⟩

/-- The deciding position keeps values that are apart by the gap. -/
theorem order_keeps {gap u w : Int} (hx : x.Fits) (hy : y.Fits) (hu : x.min ≤ u ∧ u ≤ x.max)
    (hw : y.min ≤ w ∧ w ≤ y.max) (h : u + gap ≤ w) :
    ((order gap x y).1.min ≤ u ∧ u ≤ (order gap x y).1.max) ∧
      (order gap x y).2.min ≤ w ∧ w ≤ (order gap x y).2.max := by
  have hx' : Width.value.Fits x.min ∧ Width.value.Fits x.max := hx
  have hy' : Width.value.Fits y.min ∧ Width.value.Fits y.max := hy
  simp only [Width.Fits, Width.value] at hx' hy'
  simp only [order, Interval.tightenMax_min, Interval.tightenMax_max, Interval.tightenMin_min,
    Interval.tightenMin_max, Width.clamp, Width.value]
  omega

/-- A deciding position that stays as it is has its sides apart by the gap. -/
theorem order_eq_self {gap : Int} (hgap : gap = 0 ∨ gap = 1) (hx : x.min ≤ x.max ∧ x.Fits)
    (hy : y.min ≤ y.max ∧ y.Fits) (h : order gap x y = (x, y)) :
    x.max + gap ≤ y.max ∧ x.min + gap ≤ y.min := by
  obtain ⟨h₁, h₂⟩ := Prod.mk.inj h
  rw [h₁] at h₂
  have hmax := congrArg Interval.max h₁
  have hmin := congrArg Interval.min h₂
  rw [Interval.tightenMax_max] at hmax
  rw [Interval.tightenMin_min] at hmin
  have hx' : Width.value.Fits x.min ∧ Width.value.Fits x.max := hx.2
  have hy' : Width.value.Fits y.min ∧ Width.value.Fits y.max := hy.2
  simp only [Width.Fits, Width.value, Width.clamp] at hx' hy' hmax hmin
  omega

/-- **A deciding position that stays as it is leaves every bound within reach.** -/
theorem reached_of_unchanged (hs : Sides ((x, y) :: rest)) (ht : ¬ tied x y = true)
    (h : order (if mustExceed rest then 1 else 0) x y = (x, y)) : Reached ((x, y) :: rest) := by
  obtain ⟨⟨hx, hy⟩, hrest⟩ := Sides.cons_iff.1 hs
  obtain ⟨hmax, hmin⟩ := order_eq_self (by split <;> simp) hx hy h
  have hgap : 0 ≤ if mustExceed rest then (1 : Int) else 0 := by split <;> omega
  -- otherwise both sides would be fixed to one value
  have hlt : x.min < y.max := by
    by_contra hge
    exact ht (tied_iff.2 ⟨by omega, Interval.ext (by omega) (by omega)⟩)
  have hmins := hrest.filled_lefts.mem_mins
  have hmaxs := hrest.filled_rights.mem_maxs
  -- equal values at the deciding position need an ordered rest
  have hequal : x.max = y.max ∨ x.min = y.min →
      LexLe ((lefts rest).map Interval.min) ((rights rest).map Interval.max) := fun he => by
    refine mustExceed_eq_false_iff.1 (Bool.not_eq_true _ ▸ fun hm => ?_)
    rw [if_pos hm] at hmax hmin
    omega
  have front {u w : Int} {us ws : List Int} (hu : x.min ≤ u ∧ u ≤ x.max)
      (hw : y.min ≤ w ∧ w ≤ y.max) (hus : Mem us (lefts rest)) (hws : Mem ws (rights rest)) :
      Mem (u :: us) (lefts ((x, y) :: rest)) ∧ Mem (w :: ws) (rights ((x, y) :: rest)) :=
    ⟨.cons hu.1 hu.2 hus, .cons hw.1 hw.2 hws⟩
  have top {u : Int} (hu : u = x.min ∨ u = x.max) :
      LexLe (u :: (lefts rest).map Interval.min) (y.max :: (rights rest).map Interval.max) := by
    rcases Int.lt_or_eq_of_le (show u ≤ y.max by omega) with h' | h'
    · exact .inl h'
    · exact .inr ⟨h', hequal (by omega)⟩
  have bottom {w : Int} (hw : w = y.min ∨ w = y.max) :
      LexLe (x.min :: (lefts rest).map Interval.min) (w :: (rights rest).map Interval.max) := by
    rcases Int.lt_or_eq_of_le (show x.min ≤ w by omega) with h' | h'
    · exact .inl h'
    · exact .inr ⟨h', hequal (by omega)⟩
  refine ⟨?_, fun {k x' y' b} hk hb => ?_, fun {k x' y' b} hk hb => ?_⟩
  · obtain ⟨hl, hr⟩ := front (u := x.min) (w := y.max) (by omega) (by omega) hmins hmaxs
    exact ⟨_, _, hl, hr, top (.inl rfl)⟩
  · cases k with
    | zero =>
      obtain ⟨rfl, rfl⟩ := Prod.mk.inj (Option.some.inj hk)
      obtain ⟨hl, hr⟩ := front (u := b) (w := y.max) (by omega) (by omega) hmins hmaxs
      exact ⟨_, _, hl, hr, top hb, rfl⟩
    | succ k =>
      obtain ⟨us, hu, hub⟩ := exists_mem_at hrest.filled_lefts
        (by rw [lefts, List.getElem?_map, show rest[k]? = _ by simpa using hk]; rfl) hb
      obtain ⟨hl, hr⟩ := front (u := x.min) (w := y.max) (by omega) (by omega) hu hmaxs
      exact ⟨_, _, hl, hr, .inl hlt, hub⟩
  · cases k with
    | zero =>
      obtain ⟨rfl, rfl⟩ := Prod.mk.inj (Option.some.inj hk)
      obtain ⟨hl, hr⟩ := front (u := x.min) (w := b) (by omega) (by omega) hmins hmaxs
      exact ⟨_, _, hl, hr, bottom hb, rfl⟩
    | succ k =>
      obtain ⟨ws, hw, hwb⟩ := exists_mem_at hrest.filled_rights
        (by rw [rights, List.getElem?_map, show rest[k]? = _ by simpa using hk]; rfl) hb
      obtain ⟨hl, hr⟩ := front (u := x.min) (w := y.max) (by omega) (by omega) hmins hw
      exact ⟨_, _, hl, hr, .inl hlt, hwb⟩

/-! ### All positions -/

/-- Ordering the deciding position leaves its sides as they are required, unless it empties one. -/
theorem order_sides {gap : Int} (hs : Sides ((x, y) :: rest))
    (hne : ¬ ((order gap x y).1.isEmpty || (order gap x y).2.isEmpty) = true) :
    Sides (order gap x y :: rest) := by
  obtain ⟨⟨hx', hy'⟩, hrest⟩ := Sides.cons_iff.1 hs
  have hw := order_within gap x y
  rw [Interval.isWithin_iff, Interval.isWithin_iff] at hw
  rw [Bool.or_eq_true, Interval.isEmpty_iff, Interval.isEmpty_iff] at hne
  have hx : (order gap x y).1.min ≤ (order gap x y).1.max := by omega
  have hy : (order gap x y).2.min ≤ (order gap x y).2.max := by omega
  exact Sides.cons_iff.2 ⟨⟨⟨hx, hx'.2.of_within hw.1 hx⟩, hy, hy'.2.of_within hw.2 hy⟩, hrest⟩

theorem narrow_within (ps : List (Interval × Interval)) :
    Within (lefts (narrow ps).2) (lefts ps) ∧ Within (rights (narrow ps).2) (rights ps) := by
  fun_induction narrow ps with
  | case1 => exact ⟨.refl _, .refl _⟩
  | case2 x y rest _ status after e ih =>
    rw [e] at ih
    exact ⟨.cons (Interval.isWithin_refl x) ih.1, .cons (Interval.isWithin_refl y) ih.2⟩
  | case3 x y rest | case4 x y rest | case5 x y rest =>
    have := order_within (if mustExceed rest then 1 else 0) x y
    exact ⟨.cons this.1 (.refl _), .cons this.2 (.refl _)⟩
  | case6 x y rest _ next _ _ _ ih =>
    have := order_within (if mustExceed rest then 1 else 0) x y
    exact ⟨ih.1.trans (.cons this.1 (.refl _)), ih.2.trans (.cons this.2 (.refl _))⟩

/-- Ordering the deciding position keeps two sequences in order. -/
theorem mem_order (hs : Sides ((x, y) :: rest)) (hu : Mem us (lefts ((x, y) :: rest)))
    (hw : Mem ws (rights ((x, y) :: rest))) (hle : LexLe us ws) :
    Mem us (lefts (order (if mustExceed rest then 1 else 0) x y :: rest)) ∧
      Mem ws (rights (order (if mustExceed rest then 1 else 0) x y :: rest)) := by
  obtain ⟨⟨hx, hy⟩, hrest⟩ := Sides.cons_iff.1 hs
  cases hu with
  | @cons u _ us _ humin humax hu =>
  cases hw with
  | @cons w _ ws _ hwmin hwmax hw =>
  have hgap : u + (if mustExceed rest then 1 else 0) ≤ w := by
    rcases hle with hlt | ⟨rfl, hle⟩
    · split <;> omega
    · rw [mustExceed_of_lexLe hu hw hle, if_neg Bool.false_ne_true]
      omega
  have hk := order_keeps hx.2 hy.2 ⟨humin, humax⟩ ⟨hwmin, hwmax⟩ hgap
  exact ⟨.cons hk.1.1 hk.1.2 hu, .cons hk.2.1 hk.2.2 hw⟩

/-- No ordered assignment is lost. -/
theorem narrow_keeps (hs : Sides ps) (hu : Mem us (lefts ps)) (hw : Mem ws (rights ps))
    (hle : LexLe us ws) : (narrow ps).1 ≠ .inconsistent ∧
      Mem us (lefts (narrow ps).2) ∧ Mem ws (rights (narrow ps).2) := by
  fun_induction narrow ps generalizing us ws with
  | case1 => exact ⟨Status.noConfusion, hu, hw⟩
  | case2 x y rest ht status after e ih =>
    obtain ⟨hx, rfl⟩ := tied_iff.1 ht
    rw [e] at ih
    cases hu with
    | @cons u _ us _ humin humax hu =>
    cases hw with
    | @cons w _ ws _ hwmin hwmax hw =>
    have hrest : LexLe us ws := by
      rcases hle with hlt | ⟨-, hle⟩
      · dsimp only at humin humax hwmin hwmax
        omega
      · exact hle
    obtain ⟨hn, hu', hw'⟩ := ih (Sides.cons_iff.1 hs).2 hu hw hrest
    exact ⟨hn, .cons humin humax hu', .cons hwmin hwmax hw'⟩
  | case3 x y rest _ next =>
    rename_i hempty
    obtain ⟨hu', hw'⟩ := mem_order hs hu hw hle
    have hfx := hu'.filled _ List.mem_cons_self
    have hfy := hw'.filled _ List.mem_cons_self
    rw [Bool.or_eq_true, Interval.isEmpty_iff, Interval.isEmpty_iff] at hempty
    rcases hempty with h | h
    · exact absurd hfx (Int.not_le.2 h)
    · exact absurd hfy (Int.not_le.2 h)
  | case4 => exact ⟨Status.noConfusion, mem_order hs hu hw hle⟩
  | case5 => exact ⟨Status.noConfusion, mem_order hs hu hw hle⟩
  | case6 x y rest _ next =>
    rename_i hne _ _ ih
    obtain ⟨hu', hw'⟩ := mem_order hs hu hw hle
    exact ih (order_sides hs hne) hu' hw' hle

/-- What is left is within reach. -/
theorem narrow_reached (hs : Sides ps) (hn : (narrow ps).1 ≠ .inconsistent) :
    Reached (narrow ps).2 := by
  fun_induction narrow ps with
  | case1 => exact reached_of_forall hs fun us ws hu hw => lexLe_of_mayExceed hu hw rfl
  | case2 x y rest ht status after e ih =>
    obtain ⟨hx, rfl⟩ := tied_iff.1 ht
    rw [e] at ih
    exact (ih (Sides.cons_iff.1 hs).2 hn).tied hx
  | case3 => exact absurd rfl hn
  | case4 x y rest _ next hne hmay =>
    rw [Bool.not_eq_true'] at hmay
    exact reached_of_forall (order_sides hs hne)
      fun us ws hu hw => lexLe_of_mayExceed hu hw hmay
  | case5 x y rest ht next hempty hmay he =>
    rw [show next = (x, y) from he]
    exact reached_of_unchanged hs ht he
  | case6 x y rest _ next hne _ _ ih => exact ih (order_sides hs hne) hn

/-- What is left is entailed exactly if none of its assignments can break the order. -/
theorem narrow_entailed_iff (hn : (narrow ps).1 ≠ .inconsistent) :
    (narrow ps).1 = .entailed ↔ mayExceed (narrow ps).2 = false := by
  fun_induction narrow ps with
  | case1 => exact iff_of_true rfl rfl
  | case2 x y rest ht status after e ih =>
    obtain ⟨hx, rfl⟩ := tied_iff.1 ht
    rw [e] at ih
    rw [ih hn, mayExceed, mayExceed, List.map_cons, exceeds, if_pos hx.symm]
  | case3 => exact absurd rfl hn
  | case4 x y rest _ next _ hmay => exact iff_of_true rfl (Bool.not_eq_true' _ ▸ hmay)
  | case5 x y rest _ next _ hmay =>
    exact iff_of_false Status.noConfusion fun h => hmay (by rw [h]; rfl)
  | case6 x y rest _ next _ _ _ ih => exact ih hn

/-- A failure leaves a position without a value. -/
theorem narrow_inconsistent (hn : (narrow ps).1 = .inconsistent) (hl : Filled (lefts (narrow ps).2))
    (hr : Filled (rights (narrow ps).2)) : False := by
  fun_induction narrow ps with
  | case1 => cases hn
  | case2 x y rest _ status after e ih =>
    rw [e] at ih
    exact ih hn (Filled.cons_iff.1 hl).2 (Filled.cons_iff.1 hr).2
  | case3 x y rest _ next hempty =>
    rw [Bool.or_eq_true, Interval.isEmpty_iff, Interval.isEmpty_iff] at hempty
    have hx := (Filled.cons_iff.1 hl).1
    have hy := (Filled.cons_iff.1 hr).1
    omega
  | case4 => cases hn
  | case5 => cases hn
  | case6 x y rest _ next _ _ _ ih => exact ih hn hl hr

/-! ### The two halves -/

/-- The positions of two halves, and what a run makes of them. -/
theorem Posed.halves {is : List Interval} (h : Posed is) : ∃ ps, is = lefts ps ++ rights ps ∧
    Sides ps ∧ propagate is = ⟨(narrow ps).1, lefts (narrow ps).2 ++ rights (narrow ps).2⟩ := by
  obtain ⟨heven, hf, hfit⟩ := h
  have htake : (is.take (is.length / 2)).length = is.length / 2 := by
    rw [List.length_take]
    omega
  have hdrop : (is.drop (is.length / 2)).length = is.length / 2 := by
    rw [List.length_drop]
    omega
  have hl : lefts ((is.take (is.length / 2)).zip (is.drop (is.length / 2))) =
      is.take (is.length / 2) := List.map_fst_zip (by omega)
  have hr : rights ((is.take (is.length / 2)).zip (is.drop (is.length / 2))) =
      is.drop (is.length / 2) := List.map_snd_zip (by omega)
  refine ⟨_, by rw [hl, hr, List.take_append_drop], fun p hp => ?_, ?_⟩
  · obtain ⟨h₁, h₂⟩ := List.of_mem_zip (a := p.1) (b := p.2) hp
    have h₁ := List.mem_of_mem_take h₁
    have h₂ := List.mem_of_mem_drop h₂
    exact ⟨⟨hf _ h₁, hfit _ h₁⟩, hf _ h₂, hfit _ h₂⟩
  · unfold propagate
    dsimp only
    rw [List.drop_of_length_le (by omega : is.length ≤ 2 * (is.length / 2)), List.append_nil]
    rfl

theorem length_lefts (ps : List (Interval × Interval)) : (lefts ps).length = ps.length :=
  List.length_map _

theorem length_rights (ps : List (Interval × Interval)) : (rights ps).length = ps.length :=
  List.length_map _

/-- An assignment of both halves is ordered if its halves are. -/
theorem holds_append_iff {parameters : List Int} (h : us.length = ws.length) :
    Constraint.lexicographicLeq.Holds (us ++ ws) parameters ↔ LexLe us ws := by
  have hn : (us ++ ws).length / 2 = us.length := by
    rw [List.length_append]
    omega
  simp only [Constraint.Holds]
  rw [hn, List.take_left, List.drop_left]

theorem length_eq_of_mem (hu : Mem us (lefts ps)) (hw : Mem ws (rights ps)) :
    us.length = ws.length := by
  rw [hu.length_eq, hw.length_eq, length_lefts, length_rights]

theorem mem_halves_iff : Mem vs (lefts ps ++ rights ps) ↔ ∃ us ws, vs = us ++ ws ∧
    Mem us (lefts ps) ∧ Mem ws (rights ps) ∧ us.length = ws.length := by
  rw [mem_append_iff]
  constructor
  · rintro ⟨us, ws, rfl, hu, hw⟩
    exact ⟨us, ws, rfl, hu, hw, length_eq_of_mem hu hw⟩
  · rintro ⟨us, ws, rfl, hu, hw, -⟩
    exact ⟨us, ws, rfl, hu, hw⟩

/-- An ordered assignment of the sides is one of the halves. -/
theorem exists_halves {parameters : List Int} {k : Nat} {b : Int} (hu : Mem us (lefts ps))
    (hw : Mem ws (rights ps)) (hle : LexLe us ws) (hb : (us ++ ws)[k]? = some b) :
    ∃ vs, Mem vs (lefts ps ++ rights ps) ∧ Constraint.lexicographicLeq.Holds vs parameters ∧
      vs[k]? = some b :=
  ⟨us ++ ws, hu.append hw, (holds_append_iff (length_eq_of_mem hu hw)).2 hle, hb⟩

/-- Bounds within reach on either side make the halves tight. -/
theorem Reached.tight {parameters : List Int} (h : Reached ps) :
    Tight (Constraint.lexicographicLeq.Holds · parameters) (lefts ps ++ rights ps) := by
  have attained {k : Nat} {i : Interval} {b : Int} (hk : (lefts ps ++ rights ps)[k]? = some i)
      (hb : b = i.min ∨ b = i.max) : ∃ vs, Mem vs (lefts ps ++ rights ps) ∧
        Constraint.lexicographicLeq.Holds vs parameters ∧ vs[k]? = some b := by
    rw [List.getElem?_append] at hk
    split at hk
    · rename_i hlt
      rw [lefts, List.getElem?_map] at hk
      obtain ⟨⟨x, y⟩, hp, rfl⟩ := Option.map_eq_some_iff.1 hk
      obtain ⟨us, ws, hu, hw, hle, hub⟩ := h.left hp hb
      refine exists_halves hu hw hle ?_
      rw [List.getElem?_append_left (by rw [hu.length_eq]; exact hlt), hub]
    · rename_i hge
      rw [rights, List.getElem?_map] at hk
      obtain ⟨⟨x, y⟩, hp, rfl⟩ := Option.map_eq_some_iff.1 hk
      obtain ⟨us, ws, hu, hw, hle, hwb⟩ := h.right hp hb
      refine exists_halves hu hw hle ?_
      rw [List.getElem?_append_right (by rw [hu.length_eq]; omega), hu.length_eq, hwb]
  obtain ⟨us, ws, hu, hw, hle⟩ := h.solvable
  refine ⟨⟨us ++ ws, hu.append hw, ?_⟩, fun hk => attained hk (.inl rfl),
    fun hk => attained hk (.inr rfl)⟩
  exact (holds_append_iff (length_eq_of_mem hu hw)).2 hle

/-- **One run leaves the smallest box around the ordered assignments.** -/
theorem exact (parameters : List Int) :
    Exact (fun is => .ok (propagate is)) (Constraint.lexicographicLeq.Holds · parameters)
      Posed where
  closed := by
    rintro is js ⟨heven, hf, hfit⟩ hw hfj
    refine ⟨by rw [hw.length_eq]; exact heven, hfj, fun j hj => ?_⟩
    obtain ⟨i, hi, hij⟩ := hw.exists_of_mem hj
    exact (hfit i hi).of_within hij (hfj j hj)
  within := by
    rintro is _ hp ⟨⟩ hs
    obtain ⟨ps, rfl, -, he⟩ := hp.halves
    rw [he]
    exact (narrow_within ps).1.append (narrow_within ps).2
  keeps := by
    rintro is _ vs hp ⟨⟩ hm hP
    obtain ⟨ps, rfl, hs, he⟩ := hp.halves
    obtain ⟨us, ws, rfl, hu, hw, hlen⟩ := mem_halves_iff.1 hm
    obtain ⟨hn, hu', hw'⟩ := narrow_keeps hs hu hw ((holds_append_iff hlen).1 hP)
    rw [he]
    exact ⟨hn, hu'.append hw'⟩
  tight := by
    rintro is _ hp ⟨⟩ hs
    obtain ⟨ps, rfl, hsides, he⟩ := hp.halves
    rw [he] at hs ⊢
    exact (narrow_reached hsides hs).tight
  entailed := by
    rintro is _ vs hp ⟨⟩ hs hm
    obtain ⟨ps, rfl, hsides, he⟩ := hp.halves
    rw [he] at hs hm
    obtain ⟨us, ws, rfl, hu, hw, hlen⟩ := mem_halves_iff.1 hm
    have hne : (narrow ps).1 ≠ .inconsistent := fun h => Status.noConfusion (hs.symm.trans h)
    exact (holds_append_iff hlen).2 (lexLe_of_mayExceed hu hw ((narrow_entailed_iff hne).1 hs))
  again _ _ _ _ _ := ⟨_, rfl⟩

end Lexicographic
end BoundsSolver
