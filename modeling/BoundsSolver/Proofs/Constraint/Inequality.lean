/-
# The linear inequality

Every variable is confined to what the least values of the other terms leave of
the right-hand side, which does not change the least value of its own term.  A
box is stable once that room holds the greatest value of each term (`Roomy`); a
box within it has no less room and no wider terms, so it survives a run on the
larger one (`capTerms_covers`).
-/

import BoundsSolver.Proofs.Constraint.Affine

namespace BoundsSolver
namespace Affine

variable {a b rhs low s x : Int} {i j : Interval} {as vs parameters : List Int}
  {is js ks : List Interval}

/-! ### Quotients -/

theorem le_floorDiv (ha : 0 < a) : x ≤ Int.fdiv s a ↔ a * x ≤ s := by
  rw [Int.fdiv_eq_ediv_of_nonneg _ (Int.le_of_lt ha), Int.le_ediv_iff_mul_le ha, Int.mul_comm]

theorem ceilDiv_le (ha : 0 < a) : -Int.fdiv (-s) a ≤ x ↔ s ≤ a * x := by
  have := le_floorDiv (s := -s) (x := -x) ha
  rw [Int.mul_neg] at this
  omega

theorem le_floorDiv_of_neg (ha : a < 0) : x ≤ Int.fdiv s a ↔ s ≤ a * x := by
  have := le_floorDiv (a := -a) (s := -s) (x := x) (by omega)
  rw [Int.neg_fdiv_neg, Int.neg_mul] at this
  omega

theorem ceilDiv_le_of_neg (ha : a < 0) : -Int.fdiv (-s) a ≤ x ↔ a * x ≤ s := by
  have := le_floorDiv_of_neg (s := -s) (x := -x) ha
  rw [Int.mul_neg] at this
  omega

theorem le_clamp_iff {w : Width} (hx : x ≤ w.hi) (hs : w.lo ≤ s) : x ≤ w.clamp s ↔ x ≤ s := by
  unfold Width.clamp
  omega

theorem clamp_le_iff {w : Width} (hx : w.lo ≤ x) (hs : s ≤ w.hi) (hw : w.lo ≤ w.hi) :
    w.clamp s ≤ x ↔ s ≤ x := by
  unfold Width.clamp
  omega

/-! ### One term -/

/-- A variable whose term is confined to at most `slack`. -/
def capped (slack a : Int) (i : Interval) : Interval :=
  if 0 < a then i.tightenMax (Width.value.clamp (Int.fdiv slack a))
  else i.tightenMin (Width.value.clamp (-Int.fdiv (-slack) a))

theorem capTerm_eq_ok (ha : a ≠ 0) (h : capTerm rhs low a i = .ok j) :
    j = capped (rhs - (low - termMin a i)) a i := by
  unfold capTerm at h
  rw [if_neg ha] at h
  obtain ⟨o, ho, h⟩ := bind_eq_ok.1 h
  obtain ⟨t, ht, h⟩ := bind_eq_ok.1 h
  obtain ⟨-, rfl⟩ := Width.sub_eq_ok.1 ho
  obtain ⟨-, rfl⟩ := Width.sub_eq_ok.1 ht
  unfold capped
  split at h
  · obtain ⟨q, hq, h⟩ := bind_eq_ok.1 h
    obtain ⟨-, rfl⟩ := Width.check_eq_ok.1 hq
    rw [if_pos ‹_›]
    exact (Except.ok.inj h).symm
  · obtain ⟨q, hq, h⟩ := bind_eq_ok.1 h
    obtain ⟨-, rfl⟩ := Width.check_eq_ok.1 hq
    rw [if_neg ‹_›]
    exact (Except.ok.inj h).symm

/-- Whether a term can be confined depends on its least value only. -/
theorem capTerm_congr (h : capTerm rhs low a i = .ok j) (i' : Interval)
    (hi : a ≠ 0 → termMin a i' = termMin a i) :
    ∃ j', capTerm rhs low a i' = .ok j' := by
  unfold capTerm at h ⊢
  split
  · exact ⟨_, rfl⟩
  · rename_i ha
    rw [if_neg ha] at h
    rw [hi ha]
    obtain ⟨o, ho, h⟩ := bind_eq_ok.1 h
    obtain ⟨t, ht, h⟩ := bind_eq_ok.1 h
    simp only [ho, ht, bind, Except.bind] at h ⊢
    split
    · rename_i hpos
      rw [if_pos hpos] at h
      obtain ⟨q, hq, -⟩ := bind_eq_ok.1 h
      exact ⟨_, bind_eq_ok.2 ⟨q, hq, rfl⟩⟩
    · rename_i hneg
      rw [if_neg hneg] at h
      obtain ⟨q, hq, -⟩ := bind_eq_ok.1 h
      exact ⟨_, bind_eq_ok.2 ⟨q, hq, rfl⟩⟩

/-- A value whose term is at most the slack stays, and no other does. -/
theorem mem_capped_iff (ha : a ≠ 0) (hi : i.Fits) (hx : i.min ≤ x ∧ x ≤ i.max)
    (hs : termMin a i ≤ s) :
    (capped s a i).min ≤ x ∧ x ≤ (capped s a i).max ↔ a * x ≤ s := by
  obtain ⟨hlo, hhi⟩ := hi
  have hw : Width.value.lo ≤ Width.value.hi := by decide
  unfold termMin at hs
  unfold capped
  split
  · rename_i hpos
    rw [if_pos (by omega), ← le_floorDiv hpos] at hs
    rw [Interval.tightenMax_min, Interval.tightenMax_max, ← le_floorDiv hpos,
      ← le_clamp_iff (Int.le_trans hx.2 hhi.2) (Int.le_trans hlo.1 hs)]
    omega
  · rename_i hneg
    rw [if_neg (by omega), ← ceilDiv_le_of_neg (by omega)] at hs
    rw [Interval.tightenMin_min, Interval.tightenMin_max, ← ceilDiv_le_of_neg (by omega),
      ← clamp_le_iff (Int.le_trans hlo.1 hx.1) (Int.le_trans hs hhi.2) hw]
    omega

theorem capped_isWithin (s a : Int) (i : Interval) : (capped s a i).isWithin i := by
  unfold capped
  split
  · exact Interval.tightenMax_isWithin _ _
  · exact Interval.tightenMin_isWithin _ _

/-- Confining a term from above does not change its least value. -/
theorem termMin_capped (ha : a ≠ 0) : termMin a (capped s a i) = termMin a i := by
  unfold termMin capped
  split
  · rw [if_pos (by omega), Interval.tightenMax_min]
  · rw [if_neg (by omega), Interval.tightenMin_max]

/-! ### All terms -/

/-- No term varies by more than `room`. -/
def Roomy (room : Int) (as : List Int) (is : List Interval) : Prop :=
  ∀ t ∈ as.zip is, termMax t.1 t.2 - termMin t.1 t.2 ≤ room

theorem roomy_cons_iff {room : Int} : Roomy room (a :: as) (i :: is) ↔
    termMax a i - termMin a i ≤ room ∧ Roomy room as is := by
  rw [Roomy, List.zip_cons_cons, List.forall_mem_cons]
  rfl

/-- No term varies by more than the sum does. -/
theorem roomy_of_sumMax_le (as : List Int) (hf : Filled is) :
    Roomy (sumOf termMax as is - sumOf termMin as is) as is := by
  have widen {m n : Int} {as : List Int} {is : List Interval} (h : Roomy m as is) (hle : m ≤ n) :
      Roomy n as is := fun t ht => Int.le_trans (h t ht) hle
  induction as generalizing is with
  | nil => exact fun t ht => absurd ht List.not_mem_nil
  | cons a as ih =>
    cases is with
    | nil => exact fun t ht => absurd ht List.not_mem_nil
    | cons i is =>
      rw [Filled.cons_iff] at hf
      have hterm := termMin_le_termMax a hf.1
      have hsum := sumMin_le_sumMax as hf.2
      rw [roomy_cons_iff]
      simp only [sumOf]
      exact ⟨by omega, widen (ih hf.2) (by omega)⟩

theorem capTerm_isWithin (h : capTerm rhs low a i = .ok j) : j.isWithin i := by
  by_cases ha : a = 0
  · subst ha
    rw [capTerm, if_pos rfl] at h
    obtain rfl := Except.ok.inj h
    exact Interval.isWithin_refl _
  · rw [capTerm_eq_ok ha h]
    exact capped_isWithin _ _ _

theorem termMin_capTerm (h : capTerm rhs low a i = .ok j) : termMin a j = termMin a i := by
  by_cases ha : a = 0
  · subst ha
    rw [termMin_zero, termMin_zero]
  · rw [capTerm_eq_ok ha h]
    exact termMin_capped ha

/-- What confining a term leaves of a filled interval. -/
theorem capTerm_spec (h : capTerm rhs low a i = .ok j) (hle : low ≤ rhs) (hi : i.Fits)
    (hf : i.min ≤ i.max) : j.min ≤ j.max ∧ termMax a j - termMin a j ≤ rhs - low := by
  by_cases ha : a = 0
  · subst ha
    rw [capTerm, if_pos rfl] at h
    obtain rfl := Except.ok.inj h
    rw [termMax_zero, termMin_zero]
    omega
  · have hw := Interval.isWithin_iff.1 (capTerm_isWithin h)
    rw [termMin_capTerm h]
    rw [capTerm_eq_ok ha h] at hw ⊢
    have hs : termMin a i ≤ rhs - (low - termMin a i) := by omega
    obtain ⟨x, hx, he⟩ := exists_termMin a hf
    have hj := (mem_capped_iff ha hi hx hs).2 (by omega)
    refine ⟨by omega, ?_⟩
    obtain ⟨y, hy, he'⟩ := exists_termMax a
      (i := capped (rhs - (low - termMin a i)) a i) (by omega)
    have := (mem_capped_iff (x := y) ha hi (by omega) hs).1 hy
    omega

/-- Confining a term keeps the values that leave enough for the others. -/
theorem capTerm_keeps (h : capTerm rhs low a i = .ok j) (hle : low ≤ rhs) (hi : i.Fits)
    (hx : i.min ≤ x ∧ x ≤ i.max) (hs : a * x ≤ rhs - (low - termMin a i)) :
    j.min ≤ x ∧ x ≤ j.max := by
  by_cases ha : a = 0
  · subst ha
    rw [capTerm, if_pos rfl] at h
    obtain rfl := Except.ok.inj h
    exact hx
  · rw [capTerm_eq_ok ha h]
    exact (mem_capped_iff ha hi hx (by omega)).2 hs

/-- A term with room enough stays as it is. -/
theorem capTerm_eq_self (h : capTerm rhs low a i = .ok j) (hle : low ≤ rhs) (hi : i.Fits)
    (hf : i.min ≤ i.max) (hroom : termMax a i - termMin a i ≤ rhs - low) : j = i := by
  have hw := Interval.isWithin_iff.1 (capTerm_isWithin h)
  have hmin := capTerm_keeps h hle hi ⟨Int.le_refl _, hf⟩
    (by have := le_termMax (a := a) (Int.le_refl i.min) hf; omega)
  have hmax := capTerm_keeps h hle hi ⟨hf, Int.le_refl _⟩
    (by have := le_termMax (a := a) hf (Int.le_refl i.max); omega)
  exact Interval.ext (by omega) (by omega)

theorem capTerms_cons (h : capTerms rhs low (a :: as) (i :: is) = .ok ks) :
    ∃ j js, ks = j :: js ∧ capTerm rhs low a i = .ok j ∧ capTerms rhs low as is = .ok js := by
  rw [capTerms] at h
  obtain ⟨j, hj, h⟩ := bind_eq_ok.1 h
  obtain ⟨js, hjs, h⟩ := bind_eq_ok.1 h
  exact ⟨j, js, (Except.ok.inj h).symm, hj, hjs⟩

theorem capTerms_nil_left : capTerms rhs low [] is = .ok is := by
  rw [capTerms]
  exact fun _ _ _ _ h => by cases h

theorem capTerms_nil_right : capTerms rhs low as [] = .ok [] := by
  rw [capTerms]
  exact fun _ _ _ _ _ h => by cases h

theorem capTerms_within (h : capTerms rhs low as is = .ok js) :
    Within js is ∧ as.zipWith termMin js = as.zipWith termMin is := by
  induction as generalizing is js with
  | nil =>
    rw [capTerms_nil_left] at h
    obtain rfl := Except.ok.inj h
    exact ⟨.refl _, rfl⟩
  | cons a as ih =>
    cases is with
    | nil =>
      rw [capTerms_nil_right] at h
      obtain rfl := Except.ok.inj h
      exact ⟨.refl _, rfl⟩
    | cons i is =>
      obtain ⟨j, js, rfl, hj, hjs⟩ := capTerms_cons h
      obtain ⟨hw, hz⟩ := ih hjs
      rw [List.zipWith_cons_cons, List.zipWith_cons_cons, hz, termMin_capTerm hj]
      exact ⟨.cons (capTerm_isWithin hj) hw, rfl⟩

theorem capTerms_spec (h : capTerms rhs low as is = .ok js) (hle : low ≤ rhs)
    (hi : ∀ i ∈ is, i.Fits) (hf : Filled is) : Filled js ∧ Roomy (rhs - low) as js := by
  induction as generalizing is js with
  | nil =>
    rw [capTerms_nil_left] at h
    obtain rfl := Except.ok.inj h
    exact ⟨hf, fun t ht => absurd ht List.not_mem_nil⟩
  | cons a as ih =>
    cases is with
    | nil =>
      rw [capTerms_nil_right] at h
      obtain rfl := Except.ok.inj h
      exact ⟨hf, fun t ht => absurd ht (by rw [List.zip_nil_right]; exact List.not_mem_nil)⟩
    | cons i is =>
      obtain ⟨j, js, rfl, hj, hjs⟩ := capTerms_cons h
      rw [Filled.cons_iff] at hf
      obtain ⟨hj₁, hj₂⟩ := capTerm_spec hj hle (hi i List.mem_cons_self) hf.1
      obtain ⟨hjs₁, hjs₂⟩ := ih hjs (fun i h => hi i (List.mem_cons_of_mem _ h)) hf.2
      exact ⟨Filled.cons_iff.2 ⟨hj₁, hjs₁⟩, roomy_cons_iff.2 ⟨hj₂, hjs₂⟩⟩

/-- **A roomy box within survives.**  `low` and `low'` are sums over longer lists, of
which the parts before these lie in the same order. -/
theorem capTerms_covers {low' : Int} (h : capTerms rhs low as is = .ok js) (hle : low ≤ rhs)
    (hi : ∀ i ∈ is, i.Fits) (hw : Within ks is) (hf : Filled ks)
    (hbefore : low - sumOf termMin as is ≤ low' - sumOf termMin as ks)
    (hroom : Roomy (rhs - low') as ks) : Within ks js := by
  induction as generalizing is js ks with
  | nil =>
    rw [capTerms_nil_left] at h
    obtain rfl := Except.ok.inj h
    exact hw
  | cons a as ih =>
    cases is with
    | nil =>
      rw [capTerms_nil_right] at h
      obtain rfl := Except.ok.inj h
      exact hw
    | cons i is =>
      obtain ⟨j, js, rfl, hj, hjs⟩ := capTerms_cons h
      cases hw with
      | @cons k _ ks _ hk hw =>
        rw [Filled.cons_iff] at hf
        rw [roomy_cons_iff] at hroom
        rw [Interval.isWithin_iff] at hk
        have hmin := termMin_mono a hk hf.1
        have hrest := sumMin_le_of_within as hw hf.2
        simp only [sumOf] at hbefore
        have hfit := hi i List.mem_cons_self
        have hlow := capTerm_keeps hj hle hfit (x := k.min) (by omega)
          (by have := le_termMax (a := a) (Int.le_refl k.min) hf.1; omega)
        have hhigh := capTerm_keeps hj hle hfit (x := k.max) (by omega)
          (by have := le_termMax (a := a) hf.1 (Int.le_refl k.max); omega)
        exact .cons (Interval.isWithin_iff.2 ⟨hlow.1, hhigh.2⟩)
          (ih hjs (fun i h => hi i (List.mem_cons_of_mem _ h)) hw hf.2 (by omega) hroom.2)

/-- A box with the same least values, and room for all terms, is left as it is. -/
theorem capTerms_eq_self (h : capTerms rhs low as is = .ok js) (hle : low ≤ rhs)
    (hk : ∀ k ∈ ks, k.Fits) (hf : Filled ks)
    (hsame : as.zipWith termMin ks = as.zipWith termMin is) (hlen : ks.length = is.length)
    (hroom : Roomy (rhs - low) as ks) : capTerms rhs low as ks = .ok ks := by
  induction as generalizing is js ks with
  | nil => exact capTerms_nil_left
  | cons a as ih =>
    cases ks with
    | nil => exact capTerms_nil_right
    | cons k ks =>
      cases is with
      | nil => cases hlen
      | cons i is =>
        obtain ⟨j, js, rfl, hj, hjs⟩ := capTerms_cons h
        rw [Filled.cons_iff] at hf
        rw [roomy_cons_iff] at hroom
        rw [List.zipWith_cons_cons, List.zipWith_cons_cons] at hsame
        obtain ⟨hmin, hsame⟩ := List.cons.inj hsame
        have hrest := ih hjs (fun i h => hk i (List.mem_cons_of_mem _ h)) hf.2 hsame
          (Nat.succ.inj hlen) hroom.2
        obtain ⟨k', hk'⟩ := capTerm_congr hj k fun _ => hmin
        obtain rfl := capTerm_eq_self hk' hle (hk k List.mem_cons_self) hf.1 hroom.1
        rw [capTerms]
        exact bind_eq_ok.2 ⟨k', hk', bind_eq_ok.2 ⟨ks, hrest, rfl⟩⟩

/-! ### Runs -/

/-- What a run does. -/
theorem atMost_cases {r : Narrowing} (h : atMost is parameters = .ok r) :
    total termMin parameters.dropLast is = .ok (sumOf termMin parameters.dropLast is) ∧
      (parameters.getLastD 0 < sumOf termMin parameters.dropLast is ∧ r = ⟨.inconsistent, is⟩ ∨
        sumOf termMin parameters.dropLast is ≤ parameters.getLastD 0 ∧
          total termMax parameters.dropLast is = .ok (sumOf termMax parameters.dropLast is) ∧
          (sumOf termMax parameters.dropLast is ≤ parameters.getLastD 0 ∧ r = ⟨.entailed, is⟩ ∨
            parameters.getLastD 0 < sumOf termMax parameters.dropLast is ∧
              ∃ js, capTerms (parameters.getLastD 0) (sumOf termMin parameters.dropLast is)
                parameters.dropLast is = .ok js ∧ r = ⟨.consistent, js⟩)) := by
  unfold atMost split at h
  obtain ⟨low, hlow, h⟩ := bind_eq_ok.1 h
  obtain rfl := total_eq hlow
  refine ⟨hlow, ?_⟩
  split at h
  · rename_i hlt
    exact .inl ⟨hlt, (Except.ok.inj h).symm⟩
  · rename_i hle
    obtain ⟨high, hhigh, h⟩ := bind_eq_ok.1 h
    obtain rfl := total_eq hhigh
    refine .inr ⟨by omega, hhigh, ?_⟩
    split at h
    · rename_i hmax
      exact .inl ⟨hmax, (Except.ok.inj h).symm⟩
    · rename_i hmax
      obtain ⟨js, hjs, h⟩ := bind_eq_ok.1 h
      exact .inr ⟨by omega, js, hjs, (Except.ok.inj h).symm⟩

/-- A box on which the sums stay in range, and which leaves every term its room, is stable
unless a term cannot be confined. -/
theorem stable_atMost
    (hlow : total termMin parameters.dropLast is = .ok (sumOf termMin parameters.dropLast is))
    (hhigh : total termMax parameters.dropLast is = .ok (sumOf termMax parameters.dropLast is))
    (hle : sumOf termMin parameters.dropLast is ≤ parameters.getLastD 0)
    (hcap : sumOf termMax parameters.dropLast is ≤ parameters.getLastD 0 ∨
      capTerms (parameters.getLastD 0) (sumOf termMin parameters.dropLast is)
        parameters.dropLast is = .ok is) : Stable (atMost · parameters) is := by
  by_cases hmax : sumOf termMax parameters.dropLast is ≤ parameters.getLastD 0
  · refine ⟨⟨.entailed, is⟩, ?_, Status.noConfusion, rfl⟩
    refine bind_eq_ok.2 ⟨_, hlow, ?_⟩
    rw [if_neg (Int.not_lt.2 hle)]
    refine bind_eq_ok.2 ⟨_, hhigh, ?_⟩
    exact if_pos hmax
  · refine ⟨⟨.consistent, is⟩, ?_, Status.noConfusion, rfl⟩
    refine bind_eq_ok.2 ⟨_, hlow, ?_⟩
    rw [if_neg (Int.not_lt.2 hle)]
    refine bind_eq_ok.2 ⟨_, hhigh, ?_⟩
    rw [if_neg hmax]
    exact bind_eq_ok.2 ⟨_, hcap.resolve_left hmax, rfl⟩

theorem roomy_of_stable (hp : Posed parameters is) (h : Stable (atMost · parameters) is) :
    sumOf termMin parameters.dropLast is ≤ parameters.getLastD 0 ∧
      Roomy (parameters.getLastD 0 - sumOf termMin parameters.dropLast is)
        parameters.dropLast is := by
  obtain ⟨r, hr, hs, hb⟩ := h
  obtain ⟨-, ⟨-, rfl⟩ | ⟨hle, -, ⟨hmax, rfl⟩ | ⟨-, js, hjs, rfl⟩⟩⟩ := atMost_cases hr
  · exact absurd rfl hs
  · exact ⟨hle, fun t ht => Int.le_trans (roomy_of_sumMax_le _ hp.2.1 t ht) (by omega)⟩
  · obtain rfl : js = is := hb
    exact ⟨hle, (capTerms_spec hjs hle hp.2.2 hp.2.1).2⟩

/-- After an accepted run, every smaller box with the same least values is stable once all
terms have room. -/
theorem stable_of_same {r : Narrowing} (hp : Posed parameters is)
    (hr : atMost is parameters = .ok r) (hs : r.status ≠ .inconsistent) (hw : Within js is)
    (hf : Filled js)
    (hsame : parameters.dropLast.zipWith termMin js = parameters.dropLast.zipWith termMin is)
    (hroom : Roomy (parameters.getLastD 0 - sumOf termMin parameters.dropLast is)
      parameters.dropLast js) : Stable (atMost · parameters) js := by
  have hsum : sumOf termMin parameters.dropLast js = sumOf termMin parameters.dropLast is := by
    rw [sumOf_eq_sum, hsame, ← sumOf_eq_sum]
  have hmax := sumMax_le_of_within parameters.dropLast hw hf
  obtain ⟨hlow, hcase⟩ := atMost_cases hr
  rcases hcase with ⟨-, rfl⟩ | ⟨hle, hhigh, hcase⟩
  · exact absurd rfl hs
  · obtain ⟨hlow', hhigh'⟩ := total_of_within hw hf hlow hhigh
    refine stable_atMost hlow' hhigh' (by omega) ?_
    rcases hcase with ⟨hle', -⟩ | ⟨-, cs, hcs, -⟩
    · exact .inl (by omega)
    · rw [hsum]
      exact .inr (capTerms_eq_self hcs hle (hp.of_within hw hf).2.2 hf hsame hw.length_eq hroom)

/-- **A run loses no roomy box.** -/
theorem atMost_covers {r : Narrowing} (hp : Posed parameters is)
    (hr : atMost is parameters = .ok r) (hw : Within ks is) (hf : Filled ks)
    (hle : sumOf termMin parameters.dropLast ks ≤ parameters.getLastD 0)
    (hroom : Roomy (parameters.getLastD 0 - sumOf termMin parameters.dropLast ks)
      parameters.dropLast ks) : r.status ≠ .inconsistent ∧ Within ks r.bounds := by
  have hmin := sumMin_le_of_within parameters.dropLast hw hf
  obtain ⟨-, ⟨hlt, rfl⟩ | ⟨hle', -, ⟨-, rfl⟩ | ⟨-, js, hjs, rfl⟩⟩⟩ := atMost_cases hr
  · omega
  · exact ⟨Status.noConfusion, hw⟩
  · exact ⟨Status.noConfusion, capTerms_covers hjs hle' hp.2.2 hw hf (by omega) hroom⟩

/-- **What a search relies on in a linear inequality.** -/
theorem atMost_contract (parameters : List Int) :
    Contract (atMost · parameters) (Constraint.affineLeq.Holds · parameters)
      (Posed parameters) where
  shrinks hp hr hs := by
    obtain ⟨-, ⟨-, rfl⟩ | ⟨hle, -, ⟨-, rfl⟩ | ⟨-, js, hjs, rfl⟩⟩⟩ := atMost_cases hr
    · exact absurd rfl hs
    · exact ⟨.refl _, hp.2.1⟩
    · exact ⟨(capTerms_within hjs).1, (capTerms_spec hjs hle hp.2.2 hp.2.1).1⟩
  keeps {is r vs} hp hr hm hP := by
    have hP : dot parameters.dropLast vs ≤ parameters.getLastD 0 := hP
    have hsum := sumOf_singletons termMin_singleton parameters.dropLast vs
    rw [mem_iff_within] at hm ⊢
    refine atMost_covers hp hr hm (filled_singletons vs) (hsum ▸ hP) fun t ht => ?_
    obtain ⟨x, -, hx⟩ := List.mem_map.1 (List.of_mem_zip ht).2
    rw [hsum, ← hx, termMin_singleton, termMax_singleton]
    omega
  covers hp hr hw hf hst := by
    obtain ⟨hle, hroom⟩ := roomy_of_stable (hp.of_within hw hf) hst
    exact atMost_covers hp hr hw hf hle hroom
  settles hp hr hs := by
    obtain ⟨hlow, ⟨-, rfl⟩ | ⟨hle, hhigh, ⟨hmax, rfl⟩ | ⟨-, js, hjs, rfl⟩⟩⟩ := atMost_cases hr
    · exact absurd rfl hs
    · exact stable_atMost hlow hhigh hle (.inl hmax)
    · obtain ⟨hw, hsame⟩ := capTerms_within hjs
      obtain ⟨hf, hroom⟩ := capTerms_spec hjs hle hp.2.2 hp.2.1
      exact stable_of_same hp hr hs hw hf hsame hroom
  entails hp hr he hw hf := by
    obtain ⟨hlow, ⟨-, rfl⟩ | ⟨hle, hhigh, ⟨hmax, rfl⟩ | ⟨-, js, hjs, rfl⟩⟩⟩ := atMost_cases hr
    · cases he
    · obtain ⟨hlow', hhigh'⟩ := total_of_within hw hf hlow hhigh
      have hmax' := Int.le_trans (sumMax_le_of_within parameters.dropLast hw hf) hmax
      have hle' := sumMin_le_sumMax parameters.dropLast hf
      exact stable_atMost hlow' hhigh' (by omega) (.inl hmax')
    · cases he
  holds {vs} hp hst := by
    obtain ⟨hle, -⟩ := roomy_of_stable hp hst
    rw [sumOf_singletons termMin_singleton] at hle
    exact hle

/-! ### Triggers -/

/-- Off its trigger, a bound does not enter the least value of its term. -/
theorem termMin_of_quiet (h : ∀ b, (Constraint.inequalityTriggers a).on b = true →
    j.get b = i.get b) : termMin a j = termMin a i := by
  rcases Int.lt_trichotomy a 0 with ha | rfl | ha
  · have := h .max (by
      rw [Constraint.inequalityTriggers, if_neg (by omega), if_neg (by omega)]
      rfl)
    have hmax : j.max = i.max := this
    rw [termMin, termMin, if_neg (by omega), if_neg (by omega), hmax]
  · rw [termMin_zero, termMin_zero]
  · have := h .min (by
      rw [Constraint.inequalityTriggers, if_neg (by omega), if_pos ha]
      rfl)
    have hmin : j.min = i.min := this
    rw [termMin, termMin, if_pos (by omega), if_pos (by omega), hmin]

theorem zipWith_of_quiet (hq : Quiet (as.map Constraint.inequalityTriggers) is js)
    (hlen : js.length = is.length) : as.zipWith termMin js = as.zipWith termMin is := by
  induction as generalizing is js with
  | nil => rfl
  | cons a as ih =>
    cases is with
    | nil =>
      rw [List.length_eq_zero_iff.1 hlen]
    | cons i is =>
      cases js with
      | nil => cases hlen
      | cons j js =>
        obtain ⟨hterm, hq⟩ := Quiet.of_cons hq
        rw [List.zipWith_cons_cons, List.zipWith_cons_cons, termMin_of_quiet hterm,
          ih hq (Nat.succ.inj hlen)]

theorem roomy_of_within {room : Int} (h : Roomy room as is) (hw : Within js is)
    (hf : Filled js) : Roomy room as js := by
  induction hw generalizing as with
  | nil => exact h
  | @cons j i js is hj _ ih =>
    cases as with
    | nil => exact fun t ht => absurd ht List.not_mem_nil
    | cons a as =>
      rw [Filled.cons_iff] at hf
      rw [roomy_cons_iff] at h ⊢
      have hmin := termMin_mono a (Interval.isWithin_iff.1 hj) hf.1
      have hmax := termMax_mono a (Interval.isWithin_iff.1 hj) hf.1
      exact ⟨by omega, ih h.2 hf.2⟩

/-- **A stable inequality stays so until a trigger fires.** -/
theorem atMost_quiet (hp : Posed parameters is) (hst : Stable (atMost · parameters) is)
    (hw : Within js is) (hf : Filled js)
    (hq : Quiet (parameters.dropLast.map Constraint.inequalityTriggers) is js) :
    Stable (atMost · parameters) js := by
  obtain ⟨-, hroom⟩ := roomy_of_stable hp hst
  obtain ⟨r, hr, hs, -⟩ := hst
  exact stable_of_same hp hr hs hw hf (zipWith_of_quiet hq hw.length_eq)
    (roomy_of_within hroom hw hf)

end Affine
end BoundsSolver
