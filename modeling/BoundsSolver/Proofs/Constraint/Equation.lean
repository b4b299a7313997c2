/-
# The linear equation

Every variable is confined to what the ranges of the other terms leave of the
right-hand side, in passes that follow the range of the sum.  A box is `Fitted`
if no term varies by more than the right-hand side is away from either end of
that range: these are the boxes that a pass leaves as they are
(`fitted_of_stable`), and no pass over a larger box loses one (`sweep_covers`).
Values that satisfy the equation are such a box, so nothing else is needed to
see that no solution is lost.
-/

import BoundsSolver.Proofs.Constraint.Inequality

namespace BoundsSolver
namespace Affine

variable {a rhs low high l h least most x : Int} {i j : Interval} {as vs parameters : List Int}
  {is js ks : List Interval}

/-! ### One term -/

/-- A variable whose term is confined to the values from `least` to `most`. -/
def fitted (least most a : Int) (i : Interval) : Interval :=
  if 0 < a then (i.tightenMin (Width.value.clamp (-Int.fdiv (-least) a))).tightenMax
    (Width.value.clamp (Int.fdiv most a))
  else (i.tightenMin (Width.value.clamp (-Int.fdiv (-most) a))).tightenMax
    (Width.value.clamp (Int.fdiv least a))

theorem fitTerm_eq_ok (hj : fitTerm rhs a i low high = .ok j) :
    j = fitted (rhs - (high - termMax a i)) (rhs - (low - termMin a i)) a i := by
  unfold fitTerm at hj
  obtain ⟨o, ho, hj⟩ := bind_eq_ok.1 hj
  obtain ⟨p, hp, hj⟩ := bind_eq_ok.1 hj
  obtain ⟨q, hq, hj⟩ := bind_eq_ok.1 hj
  obtain ⟨t, ht, hj⟩ := bind_eq_ok.1 hj
  obtain ⟨-, rfl⟩ := Width.sub_eq_ok.1 ho
  obtain ⟨-, rfl⟩ := Width.sub_eq_ok.1 hp
  obtain ⟨-, rfl⟩ := Width.sub_eq_ok.1 hq
  obtain ⟨-, rfl⟩ := Width.sub_eq_ok.1 ht
  unfold fitted
  split at hj
  · obtain ⟨c, hc, hj⟩ := bind_eq_ok.1 hj
    obtain ⟨d, hd, hj⟩ := bind_eq_ok.1 hj
    obtain ⟨-, rfl⟩ := Width.check_eq_ok.1 hc
    obtain ⟨-, rfl⟩ := Width.check_eq_ok.1 hd
    rw [if_pos ‹_›]
    exact (Except.ok.inj hj).symm
  · obtain ⟨c, hc, hj⟩ := bind_eq_ok.1 hj
    obtain ⟨d, hd, hj⟩ := bind_eq_ok.1 hj
    obtain ⟨-, rfl⟩ := Width.check_eq_ok.1 hc
    obtain ⟨-, rfl⟩ := Width.check_eq_ok.1 hd
    rw [if_neg ‹_›]
    exact (Except.ok.inj hj).symm

/-- The values whose terms fit stay, and no others do. -/
theorem mem_fitted_iff (ha : a ≠ 0) (hi : i.Fits) (hx : i.min ≤ x ∧ x ≤ i.max)
    (hleast : least ≤ termMax a i) (hmost : termMin a i ≤ most) :
    (fitted least most a i).min ≤ x ∧ x ≤ (fitted least most a i).max ↔
      least ≤ a * x ∧ a * x ≤ most := by
  obtain ⟨hlo, hhi⟩ := hi
  have hw : Width.value.lo ≤ Width.value.hi := by decide
  unfold termMax at hleast
  unfold termMin at hmost
  unfold fitted
  split
  · rename_i hpos
    rw [if_pos (by omega), ← le_floorDiv hpos] at hmost
    rw [if_pos (by omega), ← ceilDiv_le hpos] at hleast
    rw [Interval.tightenMax_min, Interval.tightenMax_max, Interval.tightenMin_min,
      Interval.tightenMin_max, ← le_floorDiv hpos, ← ceilDiv_le hpos,
      ← le_clamp_iff (Int.le_trans hx.2 hhi.2) (Int.le_trans hlo.1 hmost),
      ← clamp_le_iff (Int.le_trans hlo.1 hx.1) (Int.le_trans hleast hhi.2) hw]
    omega
  · rename_i hneg
    have hneg : a < 0 := by omega
    rw [if_neg (by omega), ← ceilDiv_le_of_neg hneg] at hmost
    rw [if_neg (by omega), ← le_floorDiv_of_neg hneg] at hleast
    rw [Interval.tightenMax_min, Interval.tightenMax_max, Interval.tightenMin_min,
      Interval.tightenMin_max, ← ceilDiv_le_of_neg hneg, ← le_floorDiv_of_neg hneg,
      ← le_clamp_iff (Int.le_trans hx.2 hhi.2) (Int.le_trans hlo.1 hleast),
      ← clamp_le_iff (Int.le_trans hlo.1 hx.1) (Int.le_trans hmost hhi.2) hw]
    omega

/-- Confining a term keeps exactly the values that the other terms can complete. -/
theorem mem_fitTerm_iff (hj : fitTerm rhs a i low high = .ok j) (ha : a ≠ 0) (hi : i.Fits)
    (hlow : low ≤ rhs) (hhigh : rhs ≤ high) (hx : i.min ≤ x ∧ x ≤ i.max) :
    j.min ≤ x ∧ x ≤ j.max ↔
      rhs - (high - termMax a i) ≤ a * x ∧ a * x ≤ rhs - (low - termMin a i) := by
  rw [fitTerm_eq_ok hj]
  exact mem_fitted_iff ha hi hx (by omega) (by omega)

/-! ### One pass -/

/-- What a pass does at one term. -/
theorem sweep_cons {s : Sweep} (hs : sweep rhs (a :: as) (i :: is) low high = .ok s) :
    a = 0 ∧ (∃ t, sweep rhs as is low high = .ok t ∧ s = t.cons i) ∨
      a ≠ 0 ∧ ∃ j, fitTerm rhs a i low high = .ok j ∧
        (j.max < j.min ∧ s = .emptied (j :: is) ∨ j.min ≤ j.max ∧
          ∃ t, sweep rhs as is (low + (termMin a j - termMin a i))
            (high + (termMax a j - termMax a i)) = .ok t ∧ s = t.cons j) := by
  unfold sweep at hs
  split at hs
  · rename_i ha
    obtain ⟨t, ht, hs⟩ := bind_eq_ok.1 hs
    exact .inl ⟨ha, t, ht, (Except.ok.inj hs).symm⟩
  · rename_i ha
    obtain ⟨j, hj, hs⟩ := bind_eq_ok.1 hs
    refine .inr ⟨ha, j, hj, ?_⟩
    split at hs
    · rename_i he
      exact .inl ⟨Interval.isEmpty_iff.1 he, (Except.ok.inj hs).symm⟩
    · rename_i he
      rw [Bool.not_eq_true, Interval.isEmpty_eq_false_iff] at he
      obtain ⟨d, hd, hs⟩ := bind_eq_ok.1 hs
      obtain ⟨low', hlow, hs⟩ := bind_eq_ok.1 hs
      obtain ⟨e, he', hs⟩ := bind_eq_ok.1 hs
      obtain ⟨high', hhigh, hs⟩ := bind_eq_ok.1 hs
      obtain ⟨t, ht, hdone⟩ := bind_eq_ok.1 hs
      obtain ⟨-, rfl⟩ := Width.sub_eq_ok.1 hd
      obtain ⟨-, rfl⟩ := Width.add_eq_ok.1 hlow
      obtain ⟨-, rfl⟩ := Width.sub_eq_ok.1 he'
      obtain ⟨-, rfl⟩ := Width.add_eq_ok.1 hhigh
      exact .inr ⟨he, t, ht, (Except.ok.inj hdone).symm⟩

/-- A pass leaves the first interval as it is if and only if the term does, and then it leaves
the two sums as they are. -/
theorem sweep_cons_self_iff : sweep rhs (a :: as) (i :: is) low high = .ok (.swept (i :: js) l h) ↔
    sweep rhs as is low high = .ok (.swept js l h) ∧
      (a ≠ 0 → i.min ≤ i.max ∧ fitTerm rhs a i low high = .ok i ∧ Width.sum.Fits low ∧
        Width.sum.Fits high) := by
  have hsub (x : Int) : Width.sum.sub x x = .ok 0 :=
    Width.sub_eq_ok.2 ⟨by rw [Int.sub_self]; decide, Int.sub_self x⟩
  have hadd {x : Int} : Width.sum.add x 0 = .ok x ↔ Width.sum.Fits x := by
    rw [Width.add_eq_ok, Int.add_zero, and_iff_left rfl]
  constructor
  · intro hs
    rcases sweep_cons hs with ⟨ha, t, ht, he⟩ | ⟨ha, j, hj, ⟨-, he⟩ | ⟨hle, t, ht, he⟩⟩
    · obtain ⟨ks, rfl, hks⟩ := Sweep.cons_eq_swept.1 he.symm
      obtain ⟨-, rfl⟩ := List.cons.inj hks
      exact ⟨ht, absurd ha⟩
    · cases he
    · obtain ⟨ks, rfl, hks⟩ := Sweep.cons_eq_swept.1 he.symm
      obtain ⟨rfl, rfl⟩ := List.cons.inj hks
      rw [Int.sub_self, Int.sub_self, Int.add_zero, Int.add_zero] at ht
      unfold sweep at hs
      rw [if_neg ha, bind_of_ok hj,
        if_neg (by rw [Bool.not_eq_true, Interval.isEmpty_eq_false_iff]; exact hle),
        bind_of_ok (hsub _)] at hs
      obtain ⟨low', hlow, hs⟩ := bind_eq_ok.1 hs
      rw [bind_of_ok (hsub _)] at hs
      obtain ⟨high', hhigh, -⟩ := bind_eq_ok.1 hs
      obtain ⟨hlfit, -⟩ := Width.add_eq_ok.1 hlow
      obtain ⟨hhfit, -⟩ := Width.add_eq_ok.1 hhigh
      rw [Int.add_zero] at hlfit hhfit
      exact ⟨ht, fun _ => ⟨hle, hj, hlfit, hhfit⟩⟩
  · rintro ⟨ht, hfit⟩
    unfold sweep
    split
    · exact bind_eq_ok.2 ⟨_, ht, rfl⟩
    · rename_i ha
      obtain ⟨hle, hj, hlfit, hhfit⟩ := hfit ha
      rw [bind_of_ok hj,
        if_neg (by rw [Bool.not_eq_true, Interval.isEmpty_eq_false_iff]; exact hle),
        bind_of_ok (hsub _), bind_of_ok (hadd.2 hlfit), bind_of_ok (hsub _),
        bind_of_ok (hadd.2 hhfit)]
      exact bind_eq_ok.2 ⟨_, ht, rfl⟩

theorem sweep_nil_left : sweep rhs [] is low high = .ok (.swept is low high) := by
  rw [sweep]
  exact fun _ _ _ _ h => by cases h

theorem sweep_nil_right : sweep rhs as [] low high = .ok (.swept [] low high) := by
  rw [sweep]
  exact fun _ _ _ _ _ h => by cases h

/-- A pass narrows, and the two sums follow. -/
theorem sweep_spec (hs : sweep rhs as is low high = .ok (.swept js l h)) (hf : Filled is) :
    Within js is ∧ Filled js ∧ l = low + (sumOf termMin as js - sumOf termMin as is) ∧
      h = high + (sumOf termMax as js - sumOf termMax as is) := by
  induction as generalizing is js low high with
  | nil =>
    rw [sweep_nil_left] at hs
    cases hs
    exact ⟨.refl _, hf, by omega, by omega⟩
  | cons a as ih =>
    cases is with
    | nil =>
      rw [sweep_nil_right] at hs
      cases hs
      exact ⟨.refl _, hf, by omega, by omega⟩
    | cons i is =>
      rw [Filled.cons_iff] at hf
      rcases sweep_cons hs with ⟨-, t, ht, he⟩ | ⟨-, j, hj, ⟨-, he⟩ | ⟨hle, t, ht, he⟩⟩
      · obtain ⟨js, rfl, rfl⟩ := Sweep.cons_eq_swept.1 he.symm
        obtain ⟨hw, hf', hl, hh⟩ := ih ht hf.2
        simp only [sumOf]
        exact ⟨.cons (Interval.isWithin_refl i) hw, Filled.cons_iff.2 ⟨hf.1, hf'⟩, by omega,
          by omega⟩
      · cases he
      · obtain ⟨js, rfl, rfl⟩ := Sweep.cons_eq_swept.1 he.symm
        obtain ⟨hw, hf', hl, hh⟩ := ih ht hf.2
        simp only [sumOf]
        exact ⟨.cons (fitTerm_isWithin hj) hw, Filled.cons_iff.2 ⟨hle, hf'⟩, by omega, by omega⟩

/-- No term varies by more than the right-hand side is away from the ends of the range of
the sum. -/
structure Fitted (rhs : Int) (as : List Int) (is : List Interval) : Prop where
  low : sumOf termMin as is ≤ rhs
  high : rhs ≤ sumOf termMax as is
  below : Roomy (rhs - sumOf termMin as is) as is
  above : Roomy (sumOf termMax as is - rhs) as is

/-- **A box fitted for the whole sum survives a pass.**  `l` and `h` are the sums over
longer lists, of which the parts before these lie in the same order. -/
theorem sweep_covers {s : Sweep} (hs : sweep rhs as is low high = .ok s)
    (hi : ∀ i ∈ is, i.Fits) (hw : Within ks is) (hf : Filled ks)
    (hlow : low - sumOf termMin as is ≤ l - sumOf termMin as ks)
    (hhigh : h - sumOf termMax as ks ≤ high - sumOf termMax as is)
    (hbelow : Roomy (rhs - l) as ks) (habove : Roomy (h - rhs) as ks) :
    ∃ js low' high', s = .swept js low' high' ∧ Within ks js := by
  induction as generalizing is ks low high s with
  | nil =>
    rw [sweep_nil_left] at hs
    exact ⟨is, low, high, (Except.ok.inj hs).symm, hw⟩
  | cons a as ih =>
    cases is with
    | nil =>
      rw [sweep_nil_right] at hs
      exact ⟨[], low, high, (Except.ok.inj hs).symm, hw⟩
    | cons i is =>
      cases hw with
      | @cons k _ ks _ hk hw =>
        rw [Filled.cons_iff] at hf
        rw [roomy_cons_iff] at hbelow habove
        rw [Interval.isWithin_iff] at hk
        have hfits := fun i h => hi i (List.mem_cons_of_mem _ h)
        have hmin := sumMin_le_of_within as hw hf.2
        have hmax := sumMax_le_of_within as hw hf.2
        simp only [sumOf] at hlow hhigh
        rcases sweep_cons hs with ⟨rfl, t, ht, rfl⟩ | ⟨ha, j, hj, hcase⟩
        · simp only [termMin_zero, termMax_zero] at hlow hhigh
          obtain ⟨js, low', high', rfl, hjs⟩ :=
            ih ht hfits hw hf.2 (by omega) (by omega) hbelow.2 habove.2
          exact ⟨_, _, _, rfl, .cons (Interval.isWithin_iff.2 hk) hjs⟩
        · have hmin' := termMin_mono a hk hf.1
          have hmax' := termMax_mono a hk hf.1
          have hkeep {x : Int} (hx : k.min ≤ x ∧ x ≤ k.max) : j.min ≤ x ∧ x ≤ j.max := by
            have hge := termMin_le (a := a) hx.1 hx.2
            have hle := le_termMax (a := a) hx.1 hx.2
            refine (mem_fitTerm_iff hj ha (hi i List.mem_cons_self) (by omega) (by omega)
              (by omega)).2 (by omega)
          have hkj : j.min ≤ k.min ∧ k.max ≤ j.max :=
            ⟨(hkeep ⟨Int.le_refl _, hf.1⟩).1, (hkeep ⟨hf.1, Int.le_refl _⟩).2⟩
          rcases hcase with ⟨hlt, rfl⟩ | ⟨hle, t, ht, rfl⟩
          · omega
          · have hjmin := termMin_mono a hkj hf.1
            have hjmax := termMax_mono a hkj hf.1
            obtain ⟨js, low', high', rfl, hjs⟩ :=
              ih ht hfits hw hf.2 (by omega) (by omega) hbelow.2 habove.2
            exact ⟨_, _, _, rfl, .cons (Interval.isWithin_iff.2 hkj) hjs⟩

/-- A term that a pass leaves as it is varies by no more than the room on either side. -/
theorem roomy_of_fitTerm (hi' : fitTerm rhs a i low high = .ok i) (ha : a ≠ 0) (hi : i.Fits)
    (hf : i.min ≤ i.max) (hlow : low ≤ rhs) (hhigh : rhs ≤ high) :
    termMax a i - termMin a i ≤ rhs - low ∧ termMax a i - termMin a i ≤ high - rhs := by
  obtain ⟨x, hx, hmin⟩ := exists_termMin a hf
  obtain ⟨y, hy, hmax⟩ := exists_termMax a hf
  have h₁ := (mem_fitTerm_iff hi' ha hi hlow hhigh hx).1 hx
  have h₂ := (mem_fitTerm_iff hi' ha hi hlow hhigh hy).1 hy
  omega

/-- A pass that changes nothing leaves every term its room. -/
theorem roomy_of_sweep (hs : sweep rhs as is low high = .ok (.swept is l h))
    (hi : ∀ i ∈ is, i.Fits) (hf : Filled is) (hlow : low ≤ rhs) (hhigh : rhs ≤ high) :
    Roomy (rhs - low) as is ∧ Roomy (high - rhs) as is := by
  induction as generalizing is with
  | nil => exact ⟨fun t ht => absurd ht List.not_mem_nil, fun t ht => absurd ht List.not_mem_nil⟩
  | cons a as ih =>
    cases is with
    | nil =>
      rw [Roomy, Roomy, List.zip_nil_right]
      exact ⟨fun t ht => absurd ht List.not_mem_nil, fun t ht => absurd ht List.not_mem_nil⟩
    | cons i is =>
      rw [Filled.cons_iff] at hf
      have hfits := fun i h => hi i (List.mem_cons_of_mem _ h)
      rw [roomy_cons_iff, roomy_cons_iff]
      obtain ⟨ht, hfit⟩ := sweep_cons_self_iff.1 hs
      obtain ⟨hbelow, habove⟩ := ih ht hfits hf.2
      by_cases ha : a = 0
      · subst ha
        rw [termMin_zero, termMax_zero]
        exact ⟨⟨by omega, hbelow⟩, by omega, habove⟩
      · obtain ⟨-, hj, -, -⟩ := hfit ha
        obtain ⟨h₁, h₂⟩ := roomy_of_fitTerm hj ha (hi i List.mem_cons_self) hf.1 hlow hhigh
        exact ⟨⟨h₁, hbelow⟩, h₂, habove⟩

/-! ### Passes to the end -/

/-- How passes end: with nothing left to choose, or with one that changes nothing. -/
theorem settle_final {r : Narrowing} (hr : settle rhs as is low high = .ok r)
    (hs : r.status ≠ .inconsistent) (hf : Filled is) (hlow : low = sumOf termMin as is)
    (hhigh : high = sumOf termMax as is) :
    Within r.bounds is ∧ Filled r.bounds ∧ sumOf termMin as r.bounds ≤ rhs ∧
      rhs ≤ sumOf termMax as r.bounds ∧
      (sumOf termMin as r.bounds = sumOf termMax as r.bounds ∧ r.status = .entailed ∨
        sumOf termMin as r.bounds ≠ sumOf termMax as r.bounds ∧ r.status = .consistent ∧
          sweep rhs as r.bounds (sumOf termMin as r.bounds) (sumOf termMax as r.bounds) =
            .ok (.swept r.bounds (sumOf termMin as r.bounds) (sumOf termMax as r.bounds))) := by
  fun_induction settle rhs as is low high with
  | case1 =>
    obtain rfl := Except.ok.inj hr
    exact absurd rfl hs
  | case2 is low hout =>
    obtain rfl := Except.ok.inj hr
    subst hlow
    dsimp only
    exact ⟨.refl _, hf, by omega, by omega, .inl ⟨by omega, rfl⟩⟩
  | case3 => cases hr
  | case4 =>
    obtain rfl := Except.ok.inj hr
    exact absurd rfl hs
  | case5 low high hout hne js l h hsweep =>
    obtain rfl := Except.ok.inj hr
    obtain ⟨-, -, hl, hh⟩ := sweep_spec hsweep hf
    have hl : l = low := by omega
    have hh : h = high := by omega
    subst hlow hhigh hl hh
    exact ⟨.refl _, hf, by dsimp only; omega, by dsimp only; omega, .inr ⟨hne, rfl, hsweep⟩⟩
  | case6 is low high hout hne js l h hsweep hjs ih =>
    obtain ⟨hw, hf', hl, hh⟩ := sweep_spec hsweep hf
    obtain ⟨hw', hrest⟩ := ih hr hf' (by omega) (by omega)
    exact ⟨hw'.trans hw, hrest⟩

/-- **No passes lose a fitted box.** -/
theorem settle_covers {r : Narrowing} (hr : settle rhs as is low high = .ok r)
    (hi : ∀ i ∈ is, i.Fits) (hf : Filled is) (hlow : low = sumOf termMin as is)
    (hhigh : high = sumOf termMax as is) (hw : Within ks is) (hk : Filled ks)
    (hfit : Fitted rhs as ks) : r.status ≠ .inconsistent ∧ Within ks r.bounds := by
  fun_induction settle rhs as is low high with
  | case1 is low high hout =>
    have := hfit.low
    have := hfit.high
    have := sumMin_le_of_within as hw hk
    have := sumMax_le_of_within as hw hk
    omega
  | case2 is low hout =>
    obtain rfl := Except.ok.inj hr
    exact ⟨Status.noConfusion, hw⟩
  | case3 => cases hr
  | case4 is low high hout hne js hsweep =>
    obtain ⟨js, l, h, he, -⟩ := sweep_covers hsweep hi hw hk (by omega) (by omega) hfit.below
      hfit.above
    cases he
  | case5 low high hout hne js l h hsweep =>
    obtain rfl := Except.ok.inj hr
    exact ⟨Status.noConfusion, hw⟩
  | case6 is low high hout hne js l h hsweep hjs ih =>
    obtain ⟨hw', hf', hl, hh⟩ := sweep_spec hsweep hf
    obtain ⟨js', l', h', he, hkj⟩ := sweep_covers hsweep hi hw hk (by omega) (by omega)
      hfit.below hfit.above
    cases he
    refine ih hr (fun j hj => ?_) hf' (by omega) (by omega) hkj
    obtain ⟨i, hi', hb⟩ := hw'.exists_of_mem hj
    exact (hi i hi').of_within hb (hf' j hj)

/-! ### Runs -/

theorem equal_eq_ok {r : Narrowing} : equal is parameters = .ok r ↔
    total termMin parameters.dropLast is = .ok (sumOf termMin parameters.dropLast is) ∧
      total termMax parameters.dropLast is = .ok (sumOf termMax parameters.dropLast is) ∧
      settle (parameters.getLastD 0) parameters.dropLast is
        (sumOf termMin parameters.dropLast is) (sumOf termMax parameters.dropLast is) = .ok r := by
  unfold equal split
  rw [bind_eq_ok]
  constructor
  · rintro ⟨low, hlow, h⟩
    obtain ⟨high, hhigh, h⟩ := bind_eq_ok.1 h
    obtain rfl := total_eq hlow
    obtain rfl := total_eq hhigh
    exact ⟨hlow, hhigh, h⟩
  · rintro ⟨hlow, hhigh, h⟩
    exact ⟨_, hlow, bind_eq_ok.2 ⟨_, hhigh, h⟩⟩

/-- A stable box is fitted. -/
theorem fitted_of_stable (hp : Posed parameters is) (hst : Stable (equal · parameters) is) :
    Fitted (parameters.getLastD 0) parameters.dropLast is := by
  obtain ⟨r, hr, hs, hb⟩ := hst
  obtain ⟨-, hf, hlow, hhigh, hfinal⟩ := settle_final (equal_eq_ok.1 hr).2.2 hs hp.2.1 rfl rfl
  rw [hb] at hlow hhigh hfinal
  rcases hfinal with ⟨heq, -⟩ | ⟨-, -, hsweep⟩
  · have hroom := roomy_of_sumMax_le parameters.dropLast hp.2.1
    exact ⟨hlow, hhigh, fun t ht => Int.le_trans (hroom t ht) (by omega),
      fun t ht => Int.le_trans (hroom t ht) (by omega)⟩
  · obtain ⟨hbelow, habove⟩ := roomy_of_sweep hsweep hp.2.2 hp.2.1 hlow hhigh
    exact ⟨hlow, hhigh, hbelow, habove⟩

/-- A run on a box with more than one sum that a pass leaves as it is. -/
theorem equal_of_sweep
    (hmin : total termMin parameters.dropLast is = .ok (sumOf termMin parameters.dropLast is))
    (hmax : total termMax parameters.dropLast is = .ok (sumOf termMax parameters.dropLast is))
    (hlow : sumOf termMin parameters.dropLast is ≤ parameters.getLastD 0)
    (hhigh : parameters.getLastD 0 ≤ sumOf termMax parameters.dropLast is)
    (hne : sumOf termMin parameters.dropLast is ≠ sumOf termMax parameters.dropLast is)
    (hsweep : sweep (parameters.getLastD 0) parameters.dropLast is
      (sumOf termMin parameters.dropLast is) (sumOf termMax parameters.dropLast is) =
      .ok (.swept is (sumOf termMin parameters.dropLast is)
        (sumOf termMax parameters.dropLast is))) :
    equal is parameters = .ok ⟨.consistent, is⟩ := by
  refine equal_eq_ok.2 ⟨hmin, hmax, ?_⟩
  rw [settle, if_neg (by omega), if_neg hne]
  split
  · rename_i he
    rw [hsweep] at he
    cases he
  · rename_i he
    rw [hsweep] at he
    cases he
  · rename_i js l h he
    rw [hsweep] at he
    cases he
    exact if_pos rfl

/-- A box is stable if its sums stay in range and, unless nothing is left to choose, a
pass leaves it as it is. -/
theorem stable_equal
    (hmin : total termMin parameters.dropLast is = .ok (sumOf termMin parameters.dropLast is))
    (hmax : total termMax parameters.dropLast is = .ok (sumOf termMax parameters.dropLast is))
    (hlow : sumOf termMin parameters.dropLast is ≤ parameters.getLastD 0)
    (hhigh : parameters.getLastD 0 ≤ sumOf termMax parameters.dropLast is)
    (hsweep : sumOf termMin parameters.dropLast is ≠ sumOf termMax parameters.dropLast is →
      sweep (parameters.getLastD 0) parameters.dropLast is
        (sumOf termMin parameters.dropLast is) (sumOf termMax parameters.dropLast is) =
        .ok (.swept is (sumOf termMin parameters.dropLast is)
          (sumOf termMax parameters.dropLast is))) : Stable (equal · parameters) is := by
  by_cases heq : sumOf termMin parameters.dropLast is = sumOf termMax parameters.dropLast is
  · refine ⟨⟨.entailed, is⟩, equal_eq_ok.2 ⟨hmin, hmax, ?_⟩, Status.noConfusion, rfl⟩
    rw [settle, if_neg (by omega), if_pos heq]
  · have hr := equal_of_sweep hmin hmax hlow hhigh heq (hsweep heq)
    exact ⟨⟨.consistent, is⟩, hr, Status.noConfusion, rfl⟩

/-- **What a search relies on in a linear equation.** -/
theorem equal_contract (parameters : List Int) :
    Contract (equal · parameters) (Constraint.affineEq.Holds · parameters)
      (Posed parameters) where
  shrinks hp hr hs := by
    obtain ⟨hw, hf, -⟩ := settle_final (equal_eq_ok.1 hr).2.2 hs hp.2.1 rfl rfl
    exact ⟨hw, hf⟩
  keeps {is r vs} hp hr hm hP := by
    have hP : dot parameters.dropLast vs = parameters.getLastD 0 := hP
    have hmin := sumOf_singletons termMin_singleton parameters.dropLast vs
    have hmax := sumOf_singletons termMax_singleton parameters.dropLast vs
    rw [mem_iff_within] at hm ⊢
    have hroom := roomy_of_sumMax_le parameters.dropLast (filled_singletons vs)
    refine settle_covers (equal_eq_ok.1 hr).2.2 hp.2.2 hp.2.1 rfl rfl hm (filled_singletons vs)
      ⟨by omega, by omega, fun t ht => ?_, fun t ht => ?_⟩
    · exact Int.le_trans (hroom t ht) (by omega)
    · exact Int.le_trans (hroom t ht) (by omega)
  covers hp hr hw hf hst :=
    settle_covers (equal_eq_ok.1 hr).2.2 hp.2.2 hp.2.1 rfl rfl hw hf
      (fitted_of_stable (hp.of_within hw hf) hst)
  settles hp hr hs := by
    obtain ⟨hmin, hmax, hr⟩ := equal_eq_ok.1 hr
    obtain ⟨hw, hf, hlow, hhigh, hfinal⟩ := settle_final hr hs hp.2.1 rfl rfl
    obtain ⟨hmin', hmax'⟩ := total_of_within hw hf hmin hmax
    refine stable_equal hmin' hmax' hlow hhigh fun hne => ?_
    rcases hfinal with ⟨heq, -⟩ | ⟨-, -, hsweep⟩
    · exact absurd heq hne
    · exact hsweep
  entails {is js r} hp hr he hw hf := by
    obtain ⟨hmin, hmax, hr⟩ := equal_eq_ok.1 hr
    have hs : r.status ≠ .inconsistent := by rw [he]; exact Status.noConfusion
    obtain ⟨hw', hf', hlow, hhigh, hfinal⟩ := settle_final hr hs hp.2.1 rfl rfl
    obtain ⟨hmin', hmax'⟩ := total_of_within (hw.trans hw') hf hmin hmax
    have h₁ := sumMin_le_of_within parameters.dropLast hw hf
    have h₂ := sumMax_le_of_within parameters.dropLast hw hf
    have h₃ := sumMin_le_sumMax parameters.dropLast hf
    rcases hfinal with ⟨heq, -⟩ | ⟨-, hst, -⟩
    · exact stable_equal hmin' hmax' (by omega) (by omega) fun hne => absurd (by omega) hne
    · rw [hst] at he
      cases he
  holds {vs} hp hst := by
    have hfit := fitted_of_stable hp hst
    have hlow := hfit.low
    have hhigh := hfit.high
    rw [sumOf_singletons termMin_singleton] at hlow
    rw [sumOf_singletons termMax_singleton] at hhigh
    exact Int.le_antisymm hlow hhigh

/-! ### Triggers -/

theorem eq_of_quiet (hq : ∀ b, (Constraint.equationTriggers a).on b = true → j.get b = i.get b)
    (ha : a ≠ 0) : j = i := by
  rw [Constraint.equationTriggers, if_neg ha] at hq
  exact Interval.ext (hq .min rfl) (hq .max rfl)

theorem term_of_quiet {term : Int → Interval → Int} (hzero : ∀ i, term 0 i = 0)
    (hq : ∀ b, (Constraint.equationTriggers a).on b = true → j.get b = i.get b) :
    term a j = term a i := by
  by_cases ha : a = 0
  · rw [ha, hzero, hzero]
  · rw [eq_of_quiet hq ha]

theorem sumOf_of_quiet {term : Int → Interval → Int} (hzero : ∀ i, term 0 i = 0)
    (hq : Quiet (as.map Constraint.equationTriggers) is js) (hlen : js.length = is.length) :
    sumOf term as js = sumOf term as is := by
  induction as generalizing is js with
  | nil => rfl
  | cons a as ih =>
    cases is with
    | nil => rw [List.length_eq_zero_iff.1 hlen]
    | cons i is =>
      cases js with
      | nil => cases hlen
      | cons j js =>
        obtain ⟨hterm, hq⟩ := Quiet.of_cons hq
        rw [sumOf, sumOf, term_of_quiet hzero hterm, ih hq (Nat.succ.inj hlen)]

theorem sweep_of_quiet (hs : sweep rhs as is low high = .ok (.swept is l h))
    (hq : Quiet (as.map Constraint.equationTriggers) is js) (hlen : js.length = is.length) :
    sweep rhs as js low high = .ok (.swept js l h) := by
  induction as generalizing is js low high with
  | nil =>
    rw [sweep_nil_left] at hs ⊢
    cases hs
    rfl
  | cons a as ih =>
    cases is with
    | nil =>
      rw [List.length_eq_zero_iff.1 hlen]
      exact hs
    | cons i is =>
      cases js with
      | nil => cases hlen
      | cons j js =>
        obtain ⟨hterm, hquiet⟩ := Quiet.of_cons hq
        obtain ⟨ht, hfit⟩ := sweep_cons_self_iff.1 hs
        refine sweep_cons_self_iff.2 ⟨ih ht hquiet (Nat.succ.inj hlen), fun ha => ?_⟩
        obtain rfl := eq_of_quiet hterm ha
        exact hfit ha

/-- **A stable equation stays so until a trigger fires.** -/
theorem equal_quiet (hp : Posed parameters is) (hst : Stable (equal · parameters) is)
    (hw : Within js is) (hf : Filled js)
    (hq : Quiet (parameters.dropLast.map Constraint.equationTriggers) is js) :
    Stable (equal · parameters) js := by
  have hfit := fitted_of_stable hp hst
  obtain ⟨r, hr, hs, hb⟩ := hst
  obtain ⟨hmin, hmax, hr⟩ := equal_eq_ok.1 hr
  obtain ⟨hmin', hmax'⟩ := total_of_within hw hf hmin hmax
  have h₁ := sumOf_of_quiet termMin_zero hq hw.length_eq
  have h₂ := sumOf_of_quiet termMax_zero hq hw.length_eq
  obtain ⟨-, -, -, -, hfinal⟩ := settle_final hr hs hp.2.1 rfl rfl
  rw [hb] at hfinal
  refine stable_equal hmin' hmax' (h₁ ▸ hfit.low) (h₂ ▸ hfit.high) fun hne => ?_
  rw [h₁, h₂] at hne ⊢
  rcases hfinal with ⟨heq, -⟩ | ⟨-, -, hsweep⟩
  · exact absurd heq hne
  · exact sweep_of_quiet hsweep hq hw.length_eq

end Affine
end BoundsSolver
