/-
# What the linear propagators answer

An inequality is settled by the least sum of its terms: it fails if that is too much,
and otherwise each bound is taken in an assignment that gives all other terms their
least value (`tight_of_roomy`).  So one pass leaves the hulls of the solutions, and
nothing but a least value that rises can be news (`atMost_boundsConsistent`).

An equation is not settled in that way, since its terms have to be balanced; its passes
end when every bound leaves a rest that the ranges of the other terms enclose
(`Supported`), which loses no solution and is left alone by another run (`equal_sound`).
-/

import BoundsSolver.Proofs.Constraint.Tight
import BoundsSolver.Proofs.Hull

namespace BoundsSolver
namespace Affine

variable {a c rhs low high x : Int} {i : Interval} {k : Nat} {as vs parameters : List Int}
  {is js : List Interval} {term : Int → Interval → Int} {r : Narrowing}

/-! ### Sums over assignments -/

/-- A sum without one of its terms. -/
theorem sumOf_eraseIdx (term : Int → Interval → Int) (ha : as[k]? = some a)
    (hi : is[k]? = some i) :
    sumOf term (as.eraseIdx k) (is.eraseIdx k) = sumOf term as is - term a i := by
  induction as generalizing is k with
  | nil => cases ha
  | cons b as ih =>
    cases is with
    | nil => cases hi
    | cons j is =>
      cases k with
      | zero =>
        obtain rfl := Option.some.inj ha
        obtain rfl := Option.some.inj hi
        rw [List.eraseIdx_zero, List.eraseIdx_zero, List.tail_cons, List.tail_cons, sumOf]
        omega
      | succ k =>
        rw [List.getElem?_cons_succ] at ha hi
        rw [List.eraseIdx_cons_succ, List.eraseIdx_cons_succ, sumOf, sumOf, ih ha hi]
        omega

/-- Values of all terms that are taken are taken together. -/
theorem exists_dot_eq_sumOf (as : List Int) (hf : Filled is) (hterm : ∀ a i, i.min ≤ i.max →
      ∃ x, (i.min ≤ x ∧ x ≤ i.max) ∧ a * x = term a i) :
    ∃ vs, Mem vs is ∧ dot as vs = sumOf term as is := by
  induction is generalizing as with
  | nil => exact ⟨[], .nil, by cases as <;> rfl⟩
  | cons i is ih =>
    rw [Filled.cons_iff] at hf
    cases as with
    | nil => exact ⟨_, Filled.mem_mins (Filled.cons_iff.2 hf), rfl⟩
    | cons a as =>
      obtain ⟨x, hx, he⟩ := hterm a i hf.1
      obtain ⟨vs, hm, hsum⟩ := ih as hf.2
      exact ⟨x :: vs, .cons hx.1 hx.2 hm, by rw [dot, sumOf, he, hsum]⟩

/-- The least sum of the assignments with a given value at one position. -/
theorem exists_dot_at (hf : Filled is) (ha : as[k]? = some a) (hi : is[k]? = some i)
    (hx : i.min ≤ x ∧ x ≤ i.max) :
    ∃ vs, Mem vs is ∧ vs[k]? = some x ∧ dot as vs = sumOf termMin as is - termMin a i + a * x := by
  have hk := (List.getElem?_eq_some_iff.1 hi).1
  obtain ⟨vs, hm, hsum⟩ := exists_dot_eq_sumOf as
    (hf.set (j := .singleton x) (Int.le_refl x) k) fun a _ => exists_termMin a
  obtain ⟨hm, hv⟩ := hm.of_set_singleton hi hx
  have herase := sumOf_eraseIdx termMin ha (List.getElem?_set_self (a := Interval.singleton x) hk)
  rw [List.eraseIdx_set_eq, sumOf_eraseIdx termMin ha hi, termMin_singleton] at herase
  exact ⟨vs, hm, hv, by rw [hsum]; omega⟩

/-! ### The inequality -/

theorem Roomy.term_le {room : Int} (h : Roomy room as is) (ha : as[k]? = some a)
    (hi : is[k]? = some i) : termMax a i - termMin a i ≤ room :=
  h (a, i) (List.mem_of_getElem? (List.getElem?_zip_eq_some.2 ⟨ha, hi⟩))

/-- **A box in which every term has room is tight.** -/
theorem tight_of_roomy (hlen : as.length = is.length) (hf : Filled is)
    (hle : sumOf termMin as is ≤ c) (hroom : Roomy (c - sumOf termMin as is) as is) :
    Tight (dot as · ≤ c) is := by
  have taken {k : Nat} {i : Interval} {x : Int} (hi : is[k]? = some i)
      (hx : i.min ≤ x ∧ x ≤ i.max) : ∃ vs, Mem vs is ∧ dot as vs ≤ c ∧ vs[k]? = some x := by
    have hk : k < as.length := by
      rw [hlen]
      exact (List.getElem?_eq_some_iff.1 hi).1
    have ha := List.getElem?_eq_getElem hk
    obtain ⟨vs, hm, hv, hsum⟩ := exists_dot_at hf ha hi hx
    have hterm := hroom.term_le ha hi
    have hmax := le_termMax (a := as[k]) hx.1 hx.2
    exact ⟨vs, hm, by omega, hv⟩
  obtain ⟨vs, hm, hsum⟩ := exists_dot_eq_sumOf as hf fun a _ => exists_termMin a
  refine ⟨⟨vs, hm, by omega⟩, fun hi => ?_, fun hi => ?_⟩
  · exact taken hi ⟨Int.le_refl _, hf _ (List.mem_of_getElem? hi)⟩
  · exact taken hi ⟨hf _ (List.mem_of_getElem? hi), Int.le_refl _⟩

/-- A run fails exactly if the least sum exceeds the right-hand side, and is entailed exactly if
the greatest one does not. -/
theorem atMost_status (hp : Posed parameters is) (hr : atMost is parameters = .ok r) :
    (r.status = .inconsistent ↔
        parameters.getLastD 0 < sumOf termMin parameters.dropLast is) ∧
      (r.status = .entailed ↔ sumOf termMax parameters.dropLast is ≤ parameters.getLastD 0) := by
  have hle := sumMin_le_sumMax parameters.dropLast hp.2.1
  obtain ⟨-, ⟨hlt, rfl⟩ | ⟨hlow, -, ⟨hmax, rfl⟩ | ⟨hmax, js, -, rfl⟩⟩⟩ := atMost_cases hr
  · exact ⟨iff_of_true rfl hlt, iff_of_false Status.noConfusion (by omega)⟩
  · exact ⟨iff_of_false Status.noConfusion (by omega), iff_of_true rfl hmax⟩
  · exact ⟨iff_of_false Status.noConfusion (by omega), iff_of_false Status.noConfusion (by omega)⟩

theorem atMost_tight (hp : Posed parameters is) (hr : atMost is parameters = .ok r)
    (hs : r.status ≠ .inconsistent) : Tight (Constraint.affineLeq.Holds · parameters) r.bounds := by
  have hc := atMost_contract parameters
  obtain ⟨hw, hf⟩ := hc.shrinks hp hr hs
  have hp' := hp.of_within hw hf
  obtain ⟨hle, hroom⟩ := roomy_of_stable hp' (hc.settles hp hr hs)
  exact tight_of_roomy (by rw [List.length_dropLast, hp'.1]; rfl) hf hle hroom

/-- **The inequality is bounds consistent in one pass.**  It is entailed exactly if all
assignments satisfy it, and what a run leaves is stable, also after bounds have moved that do
not trigger another run. -/
theorem atMost_boundsConsistent (hp : Posed (as ++ [c]) is) (hr : atMost is (as ++ [c]) = .ok r) :
    BoundsConsistent (dot as · ≤ c) is r ∧
      (r.status = .entailed ↔ ∀ vs, Mem vs is → dot as vs ≤ c) ∧
      (r.status ≠ .inconsistent → Stable (atMost · (as ++ [c])) r.bounds ∧
        ∀ js, Within js r.bounds → Filled js →
          Quiet (Constraint.affineLeq.triggers is.length (as ++ [c])) r.bounds js →
          Stable (atMost · (as ++ [c])) js) := by
  have hc := atMost_contract (as ++ [c])
  have hholds : (Constraint.affineLeq.Holds · (as ++ [c])) = (dot as · ≤ c) := by
    funext vs
    rw [Constraint.Holds, List.dropLast_concat, List.getLastD_concat]
  have hentailed := (atMost_status hp hr).2
  rw [List.dropLast_concat, List.getLastD_concat] at hentailed
  refine ⟨?_, ?_, fun hs => ?_⟩
  · rw [← hholds]
    exact .of_tight (fun vs hm hP => hc.keeps hp hr hm hP) (fun hs => (hc.shrinks hp hr hs).1)
      (atMost_tight hp hr)
  · rw [hentailed]
    constructor
    · exact fun hmax vs hm => Int.le_trans (dot_bounds as hm).2 hmax
    · intro hall
      obtain ⟨vs, hm, hsum⟩ := exists_dot_eq_sumOf as hp.2.1 fun a _ => exists_termMax a
      exact hsum ▸ hall vs hm
  · obtain ⟨hw, hf⟩ := hc.shrinks hp hr hs
    have hst := hc.settles hp hr hs
    exact ⟨hst, fun js hw' hf' hq => atMost_quiet (hp.of_within hw hf) hst hw' hf' hq⟩

/-- A difference confined from above narrows one bound of each variable; these bounds trigger no
run, so both may move further. -/
theorem atMost_boundsConsistent_difference :
    atMost [⟨0, 5⟩, ⟨0, 5⟩] ([1, -1] ++ [-3]) = .ok ⟨.consistent, [⟨0, 2⟩, ⟨3, 5⟩]⟩ ∧
      BoundsConsistent (dot [1, -1] · ≤ -3) [⟨0, 5⟩, ⟨0, 5⟩] ⟨.consistent, [⟨0, 2⟩, ⟨3, 5⟩]⟩ ∧
      Stable (atMost · ([1, -1] ++ [-3])) [⟨0, 1⟩, ⟨4, 5⟩] := by
  have hp : Posed ([1, -1] ++ [-3]) [⟨0, 5⟩, ⟨0, 5⟩] := ⟨rfl, by unfold Filled; decide, by decide⟩
  have hr : atMost [⟨0, 5⟩, ⟨0, 5⟩] ([1, -1] ++ [-3]) =
      .ok ⟨.consistent, [⟨0, 2⟩, ⟨3, 5⟩]⟩ := by decide +kernel
  obtain ⟨hconsistent, -, hagain⟩ := atMost_boundsConsistent hp hr
  refine ⟨hr, hconsistent, (hagain Status.noConfusion).2 _ ?_ (by unfold Filled; decide) ?_⟩
  · exact .cons (by decide) (.cons (by decide) .nil)
  · rintro (_ | _ | k) t i j b ht hi hj hb
    · cases ht
      cases hi
      cases hj
      cases b with
      | min => rfl
      | max => cases hb
    · cases ht
      cases hi
      cases hj
      cases b with
      | min => cases hb
      | max => rfl
    · cases hi

/-! ### The equation -/

/-- The intervals after a pass. -/
def Sweep.bounds : Sweep → List Interval
  | .emptied is => is
  | .swept is _ _ => is

@[simp] theorem Sweep.bounds_cons (i : Interval) (s : Sweep) :
    (s.cons i).bounds = i :: s.bounds := by
  cases s <;> rfl

/-- No pass widens, whether or not it comes to its end. -/
theorem sweep_within {s : Sweep} (hs : sweep rhs as is low high = .ok s) : Within s.bounds is := by
  induction as generalizing is low high s with
  | nil =>
    rw [sweep_nil_left] at hs
    obtain rfl := Except.ok.inj hs
    exact .refl is
  | cons a as ih =>
    cases is with
    | nil =>
      rw [sweep_nil_right] at hs
      obtain rfl := Except.ok.inj hs
      exact .refl []
    | cons i is =>
      rcases sweep_cons hs with ⟨-, t, ht, rfl⟩ | ⟨-, j, hj, ⟨-, rfl⟩ | ⟨-, t, ht, rfl⟩⟩
      · rw [Sweep.bounds_cons]
        exact .cons (Interval.isWithin_refl i) (ih ht)
      · exact .cons (fitTerm_isWithin hj) (.refl is)
      · rw [Sweep.bounds_cons]
        exact .cons (fitTerm_isWithin hj) (ih ht)

theorem settle_within (hr : settle rhs as is low high = .ok r) : Within r.bounds is := by
  fun_induction settle rhs as is low high with
  | case1 | case2 =>
    obtain rfl := Except.ok.inj hr
    exact .refl _
  | case3 => cases hr
  | case4 is low high hout hne js hsweep =>
    obtain rfl := Except.ok.inj hr
    exact sweep_within hsweep
  | case5 =>
    obtain rfl := Except.ok.inj hr
    exact .refl _
  | case6 is low high hout hne js l h hsweep hjs ih => exact (ih hr).trans (sweep_within hsweep)

/-- At both bounds of every variable, the other terms enclose the rest of the right-hand side. -/
def Supported (c : Int) (as : List Int) (is : List Interval) : Prop :=
  ∀ {k : Nat} {a : Int} {i : Interval} (b : Bound), as[k]? = some a → is[k]? = some i →
    sumOf termMin (as.eraseIdx k) (is.eraseIdx k) ≤ c - a * i.get b ∧
      c - a * i.get b ≤ sumOf termMax (as.eraseIdx k) (is.eraseIdx k)

theorem Fitted.supported (h : Fitted c as is) (hf : Filled is) : Supported c as is := by
  intro k a i b ha hi
  have hi' := hf i (List.mem_of_getElem? hi)
  have hb : i.min ≤ i.get b ∧ i.get b ≤ i.max := by
    cases b with
    | min => exact ⟨Int.le_refl _, hi'⟩
    | max => exact ⟨hi', Int.le_refl _⟩
  have hbelow := h.below.term_le ha hi
  have habove := h.above.term_le ha hi
  have hge := termMin_le (a := a) hb.1 hb.2
  have hle := le_termMax (a := a) hb.1 hb.2
  rw [sumOf_eraseIdx termMin ha hi, sumOf_eraseIdx termMax ha hi]
  omega

/-- A second run after one that is not decided ends as the first one did. -/
theorem equal_again (hp : Posed parameters is) (hr : equal is parameters = .ok r)
    (hs : r.status = .consistent) : equal r.bounds parameters = .ok r := by
  obtain ⟨hmin, hmax, hr⟩ := equal_eq_ok.1 hr
  have hs' : r.status ≠ .inconsistent := by rw [hs]; exact Status.noConfusion
  obtain ⟨hw, hf, hlow, hhigh, ⟨-, he⟩ | ⟨hne, -, hsweep⟩⟩ := settle_final hr hs' hp.2.1 rfl rfl
  · rw [hs] at he
    cases he
  · obtain ⟨hmin', hmax'⟩ := total_of_within hw hf hmin hmax
    rw [equal_of_sweep hmin' hmax' hlow hhigh hne hsweep, ← hs]

/-- What an entailed run leaves satisfies the equation. -/
theorem equal_entailed (hp : Posed parameters is) (hr : equal is parameters = .ok r)
    (hs : r.status = .entailed) (hm : Mem vs r.bounds) :
    dot parameters.dropLast vs = parameters.getLastD 0 := by
  have hs' : r.status ≠ .inconsistent := by rw [hs]; exact Status.noConfusion
  obtain ⟨-, -, hlow, hhigh, ⟨heq, -⟩ | ⟨-, he, -⟩⟩ :=
    settle_final (equal_eq_ok.1 hr).2.2 hs' hp.2.1 rfl rfl
  · obtain ⟨hge, hle⟩ := dot_bounds parameters.dropLast hm
    omega
  · rw [hs] at he
    cases he

/-- Without a choice, a run decides the equation. -/
theorem equal_of_allFixed (hfix : allFixed is = true) (hr : equal is parameters = .ok r) :
    r.status = if dot parameters.dropLast (is.map Interval.min) = parameters.getLastD 0
      then .entailed else .inconsistent := by
  have heq : (is.map Interval.min).map Interval.singleton = is := by
    rw [List.map_map]
    refine (List.map_congr_left fun i hi => ?_).trans (List.map_id is)
    exact Interval.ext rfl (Interval.isFixed_iff.1 (List.all_eq_true.1 hfix i hi))
  have hmin := sumOf_singletons termMin_singleton parameters.dropLast (is.map Interval.min)
  have hmax := sumOf_singletons termMax_singleton parameters.dropLast (is.map Interval.min)
  rw [heq] at hmin hmax
  obtain ⟨-, -, hr⟩ := equal_eq_ok.1 hr
  rw [settle, hmin, hmax] at hr
  split at hr
  · obtain rfl := Except.ok.inj hr
    rw [if_neg (by omega)]
  · rw [if_pos rfl] at hr
    obtain rfl := Except.ok.inj hr
    rw [if_pos (by omega)]

/-- **The passes of an equation lose no solution, and end where the bounds support each other.**
A run never widens, what it decides is so, and what it leaves undecided another run leaves as
it is. -/
theorem equal_sound (hp : Posed (as ++ [c]) is) (hr : equal is (as ++ [c]) = .ok r) :
    Within r.bounds is ∧
      (∀ vs, Mem vs is → dot as vs = c → r.status ≠ .inconsistent ∧ Mem vs r.bounds) ∧
      (r.status = .entailed → ∀ vs, Mem vs r.bounds → dot as vs = c) ∧
      (r.status = .consistent →
        Filled r.bounds ∧ equal r.bounds (as ++ [c]) = .ok r ∧ Supported c as r.bounds) ∧
      (allFixed is = true →
        r.status = if dot as (is.map Interval.min) = c then .entailed else .inconsistent) := by
  have hc := equal_contract (as ++ [c])
  have hdrop : (as ++ [c]).dropLast = as := List.dropLast_concat
  have hlast : (as ++ [c]).getLastD 0 = c := List.getLastD_concat
  refine ⟨settle_within (equal_eq_ok.1 hr).2.2, fun vs hm hsum => hc.keeps hp hr hm ?_,
    fun hs vs hm => ?_, fun hs => ?_, fun hfix => ?_⟩
  · rwa [Constraint.Holds, hdrop, hlast]
  · have := equal_entailed hp hr hs hm
    rwa [hdrop, hlast] at this
  · have hs' : r.status ≠ .inconsistent := by rw [hs]; exact Status.noConfusion
    obtain ⟨hw, hf⟩ := hc.shrinks hp hr hs'
    have hfit := fitted_of_stable (hp.of_within hw hf) (hc.settles hp hr hs')
    rw [hdrop, hlast] at hfit
    exact ⟨hf, equal_again hp hr hs, hfit.supported hf⟩
  · have := equal_of_allFixed hfix hr
    rwa [hdrop, hlast] at this

/-- The rounding of a quotient follows the sign of the coefficient. -/
theorem equal_sound_rounding :
    equal [⟨0, 10⟩, ⟨0, 3⟩] ([2, -3] ++ [1]) = .ok ⟨.consistent, [⟨2, 5⟩, ⟨1, 3⟩]⟩ ∧
      Supported 1 [2, -3] [⟨2, 5⟩, ⟨1, 3⟩] := by
  have hp : Posed ([2, -3] ++ [1]) [⟨0, 10⟩, ⟨0, 3⟩] := ⟨rfl, by unfold Filled; decide, by decide⟩
  have hr : equal [⟨0, 10⟩, ⟨0, 3⟩] ([2, -3] ++ [1]) =
      .ok ⟨.consistent, [⟨2, 5⟩, ⟨1, 3⟩]⟩ := by decide +kernel
  obtain ⟨-, -, -, hconsistent, -⟩ := equal_sound hp hr
  exact ⟨hr, (hconsistent rfl).2.2⟩

end Affine
end BoundsSolver
