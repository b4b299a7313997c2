/-
# Tight boxes within stable ones

A box is tight for a constraint if each of its bounds is taken by an assignment that
satisfies the constraint.  Within a box on which a run succeeded and changed nothing, a
tight box is stable as well (`Constraint.stable_of_tight`): there is nothing that a run
could take away, and whatever it computes keeps between what it computed on the larger
box and values of the assignments.

This is why a constraint that all assignments of a stable box satisfy needs no further
run, whether or not its propagator has noticed.
-/

import BoundsSolver.Proofs.Constraint.Contract
import Mathlib.Tactic.Linarith

namespace BoundsSolver

/-- Every parameter is a value. -/
def ParametersFit (parameters : List Int) : Prop := ∀ x ∈ parameters, Width.value.Fits x

theorem ParametersFit.dropLast {parameters : List Int} (h : ParametersFit parameters) :
    ∀ x ∈ parameters.dropLast, Width.value.Fits x :=
  fun x hx => h x (List.mem_of_mem_dropLast hx)

theorem ParametersFit.getLastD {parameters : List Int} (h : ParametersFit parameters) :
    Width.value.Fits (parameters.getLastD 0) := by
  rcases parameters.eq_nil_or_concat with rfl | ⟨as, x, rfl⟩
  · decide
  · rw [List.concat_eq_append, List.getLastD_concat]
    exact h x (by rw [List.concat_eq_append]; exact List.mem_concat_self)

theorem Interval.Fits.get {i : Interval} (h : i.Fits) (b : Bound) : Width.value.Fits (i.get b) := by
  cases b with
  | min => exact h.1
  | max => exact h.2

theorem Tight.imp {P Q : List Int → Prop} {is : List Interval} (h : Tight P is)
    (hPQ : ∀ vs, P vs → Q vs) : Tight Q is where
  solvable := by
    obtain ⟨vs, hm, hP⟩ := h.solvable
    exact ⟨vs, hm, hPQ vs hP⟩
  least hi := by
    obtain ⟨vs, hm, hP, hk⟩ := h.least hi
    exact ⟨vs, hm, hPQ vs hP, hk⟩
  greatest hi := by
    obtain ⟨vs, hm, hP, hk⟩ := h.greatest hi
    exact ⟨vs, hm, hPQ vs hP, hk⟩

/-- Each of the two bounds is taken. -/
theorem Tight.bound {P : List Int → Prop} {is : List Interval} (h : Tight P is) {k : Nat}
    {i : Interval} (hi : is[k]? = some i) (b : Bound) :
    ∃ vs, Mem vs is ∧ P vs ∧ vs[k]? = some (i.get b) := by
  cases b with
  | min => exact h.least hi
  | max => exact h.greatest hi

/-- An exact propagator that is stable is so on every tight box within. -/
theorem Exact.stable_of_within {f : List Interval → Checked Narrowing} {P : List Int → Prop}
    {A : List Interval → Prop} {is js : List Interval} (h : Exact f P A) (hA : A is)
    (hst : Stable f is) (hw : Within js is) (ht : Tight P js) : Stable f js := by
  obtain ⟨r, hr, hs, rfl⟩ := hst
  obtain ⟨r', hr'⟩ := h.again hA hr hs hw ht
  exact h.stable_of_tight (h.closed hA hw ht.filled) hr' ht

namespace Affine

variable {a rhs low high low' high' l h x s u : Int} {i j k : Interval} {n : Nat}
  {as vs parameters : List Int} {is js ks : List Interval}

/-! ### What tightness says about sums -/

/-- The least value of a term is taken at one of the bounds. -/
theorem exists_termMin_bound (a : Int) (i : Interval) : ∃ b, a * i.get b = termMin a i := by
  unfold termMin
  split
  · exact ⟨.min, rfl⟩
  · exact ⟨.max, rfl⟩

/-- The greatest value of a term is taken at one of the bounds. -/
theorem exists_termMax_bound (a : Int) (i : Interval) : ∃ b, a * i.get b = termMax a i := by
  unfold termMax
  split
  · exact ⟨.max, rfl⟩
  · exact ⟨.min, rfl⟩

/-- The value of an assignment lies between the two sums. -/
theorem dot_bounds (as : List Int) (hm : Mem vs is) :
    sumOf termMin as is ≤ dot as vs ∧ dot as vs ≤ sumOf termMax as is := by
  rw [mem_iff_within] at hm
  have hmin := sumMin_le_of_within as hm (filled_singletons vs)
  have hmax := sumMax_le_of_within as hm (filled_singletons vs)
  rw [sumOf_singletons termMin_singleton] at hmin
  rw [sumOf_singletons termMax_singleton] at hmax
  exact ⟨hmin, hmax⟩

/-- No term is further from its ends than the whole sum is. -/
theorem term_le_dot (hm : Mem vs is) (ha : as[n]? = some a) (hi : is[n]? = some i)
    (hx : vs[n]? = some x) :
    a * x - termMin a i ≤ dot as vs - sumOf termMin as is ∧
      termMax a i - a * x ≤ sumOf termMax as is - dot as vs := by
  induction hm generalizing as n with
  | nil => cases hi
  | @cons v j vs is hmin hmax hm ih =>
    cases as with
    | nil => cases ha
    | cons c as =>
      obtain ⟨hlow, hhigh⟩ := dot_bounds as hm
      have hge := termMin_le (a := c) hmin hmax
      have hle := le_termMax (a := c) hmin hmax
      rw [dot, sumOf, sumOf]
      cases n with
      | zero =>
        obtain rfl := Option.some.inj ha
        obtain rfl := Option.some.inj hi
        obtain rfl := Option.some.inj hx
        omega
      | succ n =>
        rw [List.getElem?_cons_succ] at ha hi hx
        obtain ⟨hlow', hhigh'⟩ := ih ha hi hx
        omega

/-- A box that is tight for an inequality leaves every term its room. -/
theorem roomy_of_tight (ht : Tight (fun vs => dot as vs ≤ rhs) is) :
    sumOf termMin as is ≤ rhs ∧ Roomy (rhs - sumOf termMin as is) as is := by
  obtain ⟨vs, hm, hle⟩ := ht.solvable
  refine ⟨Int.le_trans (dot_bounds as hm).1 hle, fun t hmem => ?_⟩
  obtain ⟨n, hn⟩ := List.mem_iff_getElem?.1 hmem
  obtain ⟨ha, hi⟩ := List.getElem?_zip_eq_some.1 hn
  obtain ⟨b, hb⟩ := exists_termMax_bound t.1 t.2
  obtain ⟨ws, hws, hsum, hx⟩ := ht.bound hi b
  have := (term_le_dot hws ha hi hx).1
  omega

/-- A box that is tight for an equation is fitted. -/
theorem fitted_of_tight (ht : Tight (fun vs => dot as vs = rhs) is) : Fitted rhs as is := by
  obtain ⟨hlow, hbelow⟩ := roomy_of_tight (ht.imp fun _ h => Int.le_of_eq h)
  obtain ⟨vs, hm, heq⟩ := ht.solvable
  refine ⟨hlow, heq ▸ (dot_bounds as hm).2, hbelow, fun t hmem => ?_⟩
  obtain ⟨n, hn⟩ := List.mem_iff_getElem?.1 hmem
  obtain ⟨ha, hi⟩ := List.getElem?_zip_eq_some.1 hn
  obtain ⟨b, hb⟩ := exists_termMin_bound t.1 t.2
  obtain ⟨ws, hws, hsum, hx⟩ := ht.bound hi b
  have := (term_le_dot hws ha hi hx).2
  omega

/-! ### Quotients between quotients -/

/-- A quotient rounded down between a term and a larger dividend. -/
theorem floorDiv_of_pos (ha : 0 < a) (hx : Width.sum.Fits x) (hax : a * x ≤ s) (hsu : s ≤ u)
    (hu : Width.sum.Fits (Int.fdiv u a)) : Width.sum.floorDiv s a = .ok (Int.fdiv s a) := by
  refine Width.check_eq_ok.2 ⟨⟨?_, ?_⟩, rfl⟩
  · exact Int.le_trans hx.1 ((le_floorDiv ha).2 hax)
  · refine Int.le_trans ((le_floorDiv ha).2 ?_) hu.2
    exact Int.le_trans ((le_floorDiv ha).1 (Int.le_refl _)) hsu

/-- A quotient rounded up between a smaller dividend and a term. -/
theorem ceilDiv_of_pos (ha : 0 < a) (hx : Width.sum.Fits x) (hax : s ≤ a * x) (hus : u ≤ s)
    (hu : Width.sum.Fits (-Int.fdiv (-u) a)) :
    Width.sum.ceilDiv s a = .ok (-Int.fdiv (-s) a) := by
  refine Width.check_eq_ok.2 ⟨⟨?_, ?_⟩, rfl⟩
  · refine Int.le_trans hu.1 ((ceilDiv_le ha).2 ?_)
    exact Int.le_trans hus ((ceilDiv_le ha).1 (Int.le_refl _))
  · exact Int.le_trans ((ceilDiv_le ha).2 hax) hx.2

theorem floorDiv_of_neg (ha : a < 0) (hx : Width.sum.Fits x) (hax : s ≤ a * x) (hus : u ≤ s)
    (hu : Width.sum.Fits (Int.fdiv u a)) : Width.sum.floorDiv s a = .ok (Int.fdiv s a) := by
  refine Width.check_eq_ok.2 ⟨⟨?_, ?_⟩, rfl⟩
  · exact Int.le_trans hx.1 ((le_floorDiv_of_neg ha).2 hax)
  · refine Int.le_trans ((le_floorDiv_of_neg ha).2 ?_) hu.2
    exact Int.le_trans hus ((le_floorDiv_of_neg ha).1 (Int.le_refl _))

theorem ceilDiv_of_neg (ha : a < 0) (hx : Width.sum.Fits x) (hax : a * x ≤ s) (hsu : s ≤ u)
    (hu : Width.sum.Fits (-Int.fdiv (-u) a)) :
    Width.sum.ceilDiv s a = .ok (-Int.fdiv (-s) a) := by
  refine Width.check_eq_ok.2 ⟨⟨?_, ?_⟩, rfl⟩
  · refine Int.le_trans hu.1 ((ceilDiv_le_of_neg ha).2 ?_)
    exact Int.le_trans ((ceilDiv_le_of_neg ha).1 (Int.le_refl _)) hsu
  · exact Int.le_trans ((ceilDiv_le_of_neg ha).2 hax) hx.2

theorem sum_fits_of_value (hx : Width.value.Fits x) : Width.sum.Fits x := by
  simp only [Width.Fits, Width.value, Width.sum] at *
  omega

/-- A term of values is never below half the least sum. -/
theorem le_termMax_of_fits (ha : Width.value.Fits a) (hk : k.Fits) :
    -4611686018427387904 ≤ termMax a k := by
  obtain ⟨b, hb⟩ := exists_termMax_bound a k
  have hx : Width.value.Fits (k.get b) := by
    cases b with
    | min => exact hk.1
    | max => exact hk.2
  simp only [Width.Fits, Width.value] at ha hx
  rw [← hb]
  nlinarith

/-! ### Inequalities -/

/-- A term can be confined on a smaller box if it can on a larger one. -/
theorem exists_capTerm (h : capTerm rhs low a i = .ok j) (ha : Width.value.Fits a)
    (hr : Width.value.Fits rhs) (hk : k.Fits) (hrest : low - termMin a i ≤ low' - termMin a k)
    (hroom : termMax a k - termMin a k ≤ rhs - low') : ∃ k', capTerm rhs low' a k = .ok k' := by
  have hleast := le_termMax_of_fits ha hk
  obtain ⟨b, hb⟩ := exists_termMax_bound a k
  have hx : Width.sum.Fits (k.get b) := sum_fits_of_value (hk.get b)
  unfold capTerm at h ⊢
  split
  · exact ⟨k, rfl⟩
  rename_i hne
  rw [if_neg hne] at h
  obtain ⟨o, ho, h⟩ := bind_eq_ok.1 h
  obtain ⟨t, ht, h⟩ := bind_eq_ok.1 h
  obtain ⟨hofit, rfl⟩ := Width.sub_eq_ok.1 ho
  obtain ⟨htfit, rfl⟩ := Width.sub_eq_ok.1 ht
  have hother : Width.sum.Fits (low' - termMin a k) := by
    simp only [Width.Fits, Width.sum, Width.value] at hofit hr ⊢
    omega
  have hslack : Width.sum.Fits (rhs - (low' - termMin a k)) := by
    simp only [Width.Fits, Width.sum] at htfit ⊢
    omega
  have hsub : Width.sum.sub rhs (low' - termMin a k) = .ok _ := Width.sub_eq_ok.2 ⟨hslack, rfl⟩
  rw [bind_of_ok (Width.sub_eq_ok.2 ⟨hother, rfl⟩), bind_of_ok hsub]
  split
  · rename_i hpos
    rw [if_pos hpos] at h
    obtain ⟨q, hq, -⟩ := bind_eq_ok.1 h
    obtain ⟨hqfit, -⟩ := Width.check_eq_ok.1 hq
    exact ⟨_, bind_of_ok (floorDiv_of_pos hpos hx (by omega) (by omega) hqfit)⟩
  · rename_i hnpos
    rw [if_neg hnpos] at h
    obtain ⟨q, hq, -⟩ := bind_eq_ok.1 h
    obtain ⟨hqfit, -⟩ := Width.check_eq_ok.1 hq
    exact ⟨_, bind_of_ok (ceilDiv_of_neg (by omega) hx (by omega) (by omega) hqfit)⟩

/-- **A roomy box within can be run on** and is left as it is.  `low` and `low'` are sums
over longer lists, of which the parts before these lie in the same order. -/
theorem capTerms_of_within (h : capTerms rhs low as is = .ok js)
    (has : ∀ a ∈ as, Width.value.Fits a) (hr : Width.value.Fits rhs) (hw : Within ks is)
    (hf : Filled ks) (hk : ∀ k ∈ ks, k.Fits) (hle : low' ≤ rhs)
    (hbefore : low - sumOf termMin as is ≤ low' - sumOf termMin as ks)
    (hroom : Roomy (rhs - low') as ks) : capTerms rhs low' as ks = .ok ks := by
  induction as generalizing is js ks with
  | nil => exact capTerms_nil_left
  | cons a as ih =>
    cases hw with
    | nil => exact capTerms_nil_right
    | @cons k i ks is hki hw =>
      obtain ⟨j, js, rfl, hj, hjs⟩ := capTerms_cons h
      rw [Filled.cons_iff] at hf
      rw [roomy_cons_iff] at hroom
      rw [List.forall_mem_cons] at has hk
      have hmin := termMin_mono a (Interval.isWithin_iff.1 hki) hf.1
      have hrest := sumMin_le_of_within as hw hf.2
      rw [sumOf, sumOf] at hbefore
      obtain ⟨k', hk'⟩ := exists_capTerm hj has.1 hr hk.1 (by omega) hroom.1
      obtain rfl := capTerm_eq_self hk' hle hk.1 hf.1 hroom.1
      have := ih hjs has.2 hw hf.2 hk.2 (by omega) hroom.2
      exact bind_eq_ok.2 ⟨k', hk', bind_eq_ok.2 ⟨ks, this, rfl⟩⟩

/-- A tight box within a stable one is stable. -/
theorem atMost_stable_of_tight (hp : Posed parameters is) (hfit : ParametersFit parameters)
    (hst : Stable (atMost · parameters) is) (hw : Within js is)
    (ht : Tight (Constraint.affineLeq.Holds · parameters) js) :
    Stable (atMost · parameters) js := by
  obtain ⟨hle, hroom⟩ := roomy_of_tight ht
  obtain ⟨r, hr, hs, -⟩ := hst
  have hmin := sumMin_le_of_within parameters.dropLast hw ht.filled
  have hmax := sumMax_le_of_within parameters.dropLast hw ht.filled
  obtain ⟨hlow, ⟨-, rfl⟩ | ⟨-, hhigh, hcase⟩⟩ := atMost_cases hr
  · exact absurd rfl hs
  · obtain ⟨hlow', hhigh'⟩ := total_of_within hw ht.filled hlow hhigh
    refine stable_atMost hlow' hhigh' hle ?_
    rcases hcase with ⟨hle', -⟩ | ⟨-, cs, hcs, -⟩
    · exact .inl (by omega)
    · exact .inr (capTerms_of_within hcs hfit.dropLast hfit.getLastD hw ht.filled
        (hp.of_within hw ht.filled).2.2 hle (by omega) hroom)

/-! ### Equations -/

/-- A term can be confined on a smaller box if it can on a larger one. -/
theorem exists_fitTerm (h : fitTerm rhs a i low high = .ok j) (ha : a ≠ 0) (hk : k.Fits)
    (hf : k.min ≤ k.max) (hrest : low - termMin a i ≤ low' - termMin a k)
    (hrest' : high' - termMax a k ≤ high - termMax a i) (hlow : low' ≤ rhs)
    (hhigh : rhs ≤ high') (hbelow : termMax a k - termMin a k ≤ rhs - low')
    (habove : termMax a k - termMin a k ≤ high' - rhs) :
    ∃ k', fitTerm rhs a k low' high' = .ok k' := by
  have hterm := termMin_le_termMax a hf
  obtain ⟨b, hb⟩ := exists_termMin_bound a k
  obtain ⟨c, hc⟩ := exists_termMax_bound a k
  have hxb : Width.sum.Fits (k.get b) := sum_fits_of_value (hk.get b)
  have hxc : Width.sum.Fits (k.get c) := sum_fits_of_value (hk.get c)
  unfold fitTerm at h ⊢
  obtain ⟨o, ho, h⟩ := bind_eq_ok.1 h
  obtain ⟨p, hp, h⟩ := bind_eq_ok.1 h
  obtain ⟨q, hq, h⟩ := bind_eq_ok.1 h
  obtain ⟨t, ht, h⟩ := bind_eq_ok.1 h
  obtain ⟨hofit, rfl⟩ := Width.sub_eq_ok.1 ho
  obtain ⟨hpfit, rfl⟩ := Width.sub_eq_ok.1 hp
  obtain ⟨hqfit, rfl⟩ := Width.sub_eq_ok.1 hq
  obtain ⟨htfit, rfl⟩ := Width.sub_eq_ok.1 ht
  have ho' : Width.sum.sub high' (termMax a k) = .ok _ := Width.sub_eq_ok.2 ⟨by
    simp only [Width.Fits, Width.sum] at hofit hqfit ⊢
    omega, rfl⟩
  have hp' : Width.sum.sub rhs (high' - termMax a k) = .ok _ := Width.sub_eq_ok.2 ⟨by
    simp only [Width.Fits, Width.sum] at hpfit htfit ⊢
    omega, rfl⟩
  have hq' : Width.sum.sub low' (termMin a k) = .ok _ := Width.sub_eq_ok.2 ⟨by
    simp only [Width.Fits, Width.sum] at hofit hqfit ⊢
    omega, rfl⟩
  have ht' : Width.sum.sub rhs (low' - termMin a k) = .ok _ := Width.sub_eq_ok.2 ⟨by
    simp only [Width.Fits, Width.sum] at hpfit htfit ⊢
    omega, rfl⟩
  rw [bind_of_ok ho', bind_of_ok hp', bind_of_ok hq', bind_of_ok ht']
  split
  · rename_i hpos
    rw [if_pos hpos] at h
    obtain ⟨d, hd, h⟩ := bind_eq_ok.1 h
    obtain ⟨e, he, -⟩ := bind_eq_ok.1 h
    rw [bind_of_ok (ceilDiv_of_pos hpos hxb (by omega) (by omega) (Width.check_eq_ok.1 hd).1)]
    exact ⟨_, bind_of_ok
      (floorDiv_of_pos hpos hxc (by omega) (by omega) (Width.check_eq_ok.1 he).1)⟩
  · rename_i hnpos
    rw [if_neg hnpos] at h
    obtain ⟨d, hd, h⟩ := bind_eq_ok.1 h
    obtain ⟨e, he, -⟩ := bind_eq_ok.1 h
    have hneg : a < 0 := by omega
    rw [bind_of_ok (ceilDiv_of_neg hneg hxc (by omega) (by omega) (Width.check_eq_ok.1 hd).1)]
    exact ⟨_, bind_of_ok
      (floorDiv_of_neg hneg hxb (by omega) (by omega) (Width.check_eq_ok.1 he).1)⟩

/-- It stays as it is if it has room enough. -/
theorem fitTerm_of_within (h : fitTerm rhs a i low high = .ok j) (ha : a ≠ 0) (hk : k.Fits)
    (hf : k.min ≤ k.max) (hrest : low - termMin a i ≤ low' - termMin a k)
    (hrest' : high' - termMax a k ≤ high - termMax a i) (hlow : low' ≤ rhs)
    (hhigh : rhs ≤ high') (hbelow : termMax a k - termMin a k ≤ rhs - low')
    (habove : termMax a k - termMin a k ≤ high' - rhs) : fitTerm rhs a k low' high' = .ok k := by
  obtain ⟨k', hk'⟩ := exists_fitTerm h ha hk hf hrest hrest' hlow hhigh hbelow habove
  have hkeep {x : Int} (hx : k.min ≤ x ∧ x ≤ k.max) : k'.min ≤ x ∧ x ≤ k'.max := by
    have hge := termMin_le (a := a) hx.1 hx.2
    have hle := le_termMax (a := a) hx.1 hx.2
    exact (mem_fitTerm_iff hk' ha hk hlow hhigh hx).2 (by omega)
  have hw := Interval.isWithin_iff.1 (fitTerm_isWithin hk')
  have hmin := hkeep ⟨Int.le_refl _, hf⟩
  have hmax := hkeep ⟨hf, Int.le_refl _⟩
  rw [hk', show k' = k from Interval.ext (by omega) (by omega)]

/-- **A pass leaves a fitted box as it is** if it leaves a box around it as it is.  The
sums are over longer lists, of which the parts before these lie in the same order. -/
theorem sweep_of_within (hs : sweep rhs as is low high = .ok (.swept is l h)) (hw : Within ks is)
    (hf : Filled ks) (hk : ∀ k ∈ ks, k.Fits) (hlow : low' ≤ rhs) (hhigh : rhs ≤ high')
    (hbefore : low - sumOf termMin as is ≤ low' - sumOf termMin as ks)
    (hbefore' : high' - sumOf termMax as ks ≤ high - sumOf termMax as is)
    (hbelow : Roomy (rhs - low') as ks) (habove : Roomy (high' - rhs) as ks) :
    sweep rhs as ks low' high' = .ok (.swept ks low' high') := by
  induction as generalizing is ks with
  | nil => exact sweep_nil_left
  | cons a as ih =>
    cases hw with
    | nil => exact sweep_nil_right
    | @cons k i ks is hki hw =>
      rw [Filled.cons_iff] at hf
      rw [roomy_cons_iff] at hbelow habove
      rw [List.forall_mem_cons] at hk
      have hmin := termMin_mono a (Interval.isWithin_iff.1 hki) hf.1
      have hmax := termMax_mono a (Interval.isWithin_iff.1 hki) hf.1
      have hrest := sumMin_le_of_within as hw hf.2
      have hrest' := sumMax_le_of_within as hw hf.2
      rw [sumOf, sumOf] at hbefore hbefore'
      obtain ⟨ht, hfit⟩ := sweep_cons_self_iff.1 hs
      have := ih ht hw hf.2 hk.2 (by omega) (by omega) hbelow.2 habove.2
      refine sweep_cons_self_iff.2 ⟨this, fun ha => ?_⟩
      obtain ⟨-, hj, hlfit, hhfit⟩ := hfit ha
      refine ⟨hf.1, fitTerm_of_within hj ha hk.1 hf.1 (by omega) (by omega) hlow hhigh hbelow.1
        habove.1, ⟨Int.le_trans hlfit.1 (by omega), Int.le_trans (b := high) (by omega) hhfit.2⟩,
        ⟨Int.le_trans (b := low) hlfit.1 (by omega), Int.le_trans (by omega) hhfit.2⟩⟩

/-- A tight box within a stable one is stable. -/
theorem equal_stable_of_tight (hp : Posed parameters is) (hst : Stable (equal · parameters) is)
    (hw : Within js is) (ht : Tight (Constraint.affineEq.Holds · parameters) js) :
    Stable (equal · parameters) js := by
  obtain ⟨hlow, hhigh, hbelow, habove⟩ := fitted_of_tight ht
  obtain ⟨r, hr, hs, hb⟩ := hst
  obtain ⟨hmin, hmax, hr⟩ := equal_eq_ok.1 hr
  obtain ⟨hmin', hmax'⟩ := total_of_within hw ht.filled hmin hmax
  have h₁ := sumMin_le_of_within parameters.dropLast hw ht.filled
  have h₂ := sumMax_le_of_within parameters.dropLast hw ht.filled
  obtain ⟨-, -, -, -, hfinal⟩ := settle_final hr hs hp.2.1 rfl rfl
  rw [hb] at hfinal
  refine stable_equal hmin' hmax' hlow hhigh fun hne => ?_
  rcases hfinal with ⟨heq, -⟩ | ⟨-, -, hsweep⟩
  · omega
  · exact sweep_of_within hsweep hw ht.filled (hp.of_within hw ht.filled).2.2 hlow hhigh
      (by omega) (by omega) hbelow habove

end Affine

namespace Constraint

variable {c : Constraint} {is js : List Interval} {parameters : List Int}

/-- **A tight box within a stable one is stable.** -/
theorem stable_of_tight (hp : c.Posed parameters is) (hfit : ParametersFit parameters)
    (hst : Stable (c.propagate · parameters) is) (hw : Within js is)
    (ht : Tight (c.Holds · parameters) js) : Stable (c.propagate · parameters) js := by
  cases c with
  | allDifferent =>
    exact (AllDifferent.exact parameters).stable_of_within ⟨hp.filled, hp.fits⟩ hst hw ht
  | affineEq => exact Affine.equal_stable_of_tight (affine_posed (.inl rfl) hp) hst hw ht
  | affineLeq => exact Affine.atMost_stable_of_tight (affine_posed (.inr rfl) hp) hfit hst hw ht
  | andEq =>
    obtain ⟨hlen, hT⟩ := validate_conjunction hp.valid
    refine (Conjunction.exact parameters).stable_of_within ⟨?_, hp.filled, hT⟩ hst hw ht
    rintro rfl
    cases hlen
  | elementEq =>
    exact (Element.exact parameters).stable_of_within
      ⟨validate_element hp.valid, hp.filled, hp.fits⟩ hst hw ht
  | exactlyEq =>
    obtain ⟨value, count, rfl⟩ := validate_exactly hp.valid
    exact (Exactly.exact value count).stable_of_within ⟨hp.filled, hp.fits⟩ hst hw ht
  | lexicographicLeq =>
    exact (Lexicographic.exact parameters).stable_of_within
      ⟨validate_lexicographic hp.valid, hp.filled, hp.fits⟩ hst hw ht
  | maxEq =>
    exact (Maximum.exact parameters).stable_of_within
      ⟨validate_maximum hp.valid, hp.filled⟩ hst hw ht

end Constraint
end BoundsSolver
