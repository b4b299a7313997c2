/-
# The maximum is exact

A round loses no assignment in which the last value is the greatest of the
others.  Once a round changes nothing, no element starts above the maximum or
ends above it, and some element reaches its least value; if that is a single one,
it is itself confined to the maximum (`Settled`).  An element put at one of its
bounds then stands beside another one at the least value of the maximum, or is the
maximum itself (`tight_of_unchanged`).
-/

import BoundsSolver.Proofs.Contract

namespace BoundsSolver
namespace Maximum

/-- The intervals on which the maximum can be propagated. -/
def Posed (is : List Interval) : Prop := 2 ≤ is.length ∧ Filled is

variable {es fs : List Interval} {m n : Interval} {us vs : List Int} {v : Int}

theorem holds_concat_iff {parameters : List Int} :
    Constraint.maxEq.Holds (us ++ [v]) parameters ↔ v ∈ us ∧ ∀ u ∈ us, u ≤ v := by
  simp only [Constraint.Holds, List.getLast?_concat, List.dropLast_concat, Option.mem_def,
    Option.some.injEq, forall_eq']
  exact List.max?_eq_some_iff

theorem Posed.eq_concat {is : List Interval} (h : Posed is) :
    ∃ es m, is = es ++ [m] ∧ es ≠ [] ∧ Filled es ∧ m.min ≤ m.max := by
  obtain ⟨hlen, hf⟩ := h
  have hne : is ≠ [] := by rintro rfl; simp at hlen
  have he := List.dropLast_append_getLast hne
  have hlen' := @List.length_dropLast _ is
  rw [← he, Filled.append_iff] at hf
  refine ⟨is.dropLast, is.getLast hne, he.symm, ?_, hf.1, hf.2 _ (List.mem_singleton_self _)⟩
  intro h
  rw [h, List.length_nil] at hlen'
  omega

theorem propagate_concat (hne : es ≠ []) : propagate (es ++ [m]) = settle es m := by
  unfold propagate
  rw [List.getLast?_concat, List.dropLast_concat]
  exact if_neg (by rw [List.isEmpty_iff]; exact hne)

/-! ### The parts of a round -/

/-- The maximum starts no lower than any element and ends no higher than some element. -/
theorem cover_bounds (hne : es ≠ []) (m : Interval) :
    (∀ e ∈ es, e.min ≤ (cover es m).min) ∧ (∃ e ∈ es, (cover es m).max ≤ e.max) := by
  have hmins : es.map Interval.min ≠ [] := by rw [ne_eq, List.map_eq_nil_iff]; exact hne
  have hmaxs : es.map Interval.max ≠ [] := by rw [ne_eq, List.map_eq_nil_iff]; exact hne
  obtain ⟨a, ha⟩ := Option.isSome_iff_exists.1 (List.isSome_max?_of_ne_nil hmins)
  obtain ⟨b, hb⟩ := Option.isSome_iff_exists.1 (List.isSome_max?_of_ne_nil hmaxs)
  have ha' := List.max?_eq_some_iff.1 ha
  have hb' := List.max?_eq_some_iff.1 hb
  simp only [cover, ha, hb, Option.getD_some]
  constructor
  · intro e he
    have := ha'.2 e.min (List.mem_map_of_mem he)
    rw [Interval.tightenMax_min, Interval.tightenMin_min]
    omega
  · obtain ⟨e, he, hmax⟩ := List.mem_map.1 hb'.1
    refine ⟨e, he, ?_⟩
    rw [Interval.tightenMax_max, Interval.tightenMin_max]
    omega

theorem cover_keeps (hu : Mem us es) (hv : m.min ≤ v ∧ v ≤ m.max) (hin : v ∈ us)
    (hle : ∀ u ∈ us, u ≤ v) : (cover es m).min ≤ v ∧ v ≤ (cover es m).max := by
  obtain ⟨e, he, hev⟩ := hu.exists_interval hin
  have hmins : es.map Interval.min ≠ [] := List.ne_nil_of_mem (List.mem_map_of_mem he)
  have hmaxs : es.map Interval.max ≠ [] := List.ne_nil_of_mem (List.mem_map_of_mem he)
  obtain ⟨a, ha⟩ := Option.isSome_iff_exists.1 (List.isSome_max?_of_ne_nil hmins)
  obtain ⟨b, hb⟩ := Option.isSome_iff_exists.1 (List.isSome_max?_of_ne_nil hmaxs)
  obtain ⟨ha', -⟩ := List.max?_eq_some_iff.1 ha
  have hb' := (List.max?_eq_some_iff.1 hb).2 e.max (List.mem_map_of_mem he)
  obtain ⟨d, hd, rfl⟩ := List.mem_map.1 ha'
  obtain ⟨u, hu', hdu⟩ := hu.exists_value hd
  have := hle u hu'
  simp only [cover, ha, hb, Option.getD_some, Interval.tightenMax_min, Interval.tightenMax_max,
    Interval.tightenMin_min, Interval.tightenMin_max]
  omega

theorem capAll_within (value : Int) (es : List Interval) : Within (capAll value es).2 es := by
  induction es with
  | nil => exact .refl _
  | cons e es ih =>
    simp only [capAll]
    split
    · exact .cons (Interval.tightenMax_isWithin _ _) (.refl _)
    · exact .cons (Interval.tightenMax_isWithin _ _) ih

theorem capAll_max_le {value : Int} (h : capAll value es = (true, fs)) :
    ∀ f ∈ fs, f.max ≤ value := by
  induction es generalizing fs with
  | nil =>
    obtain rfl := (Prod.mk.inj h).2
    exact fun f hf => absurd hf List.not_mem_nil
  | cons e es ih =>
    simp only [capAll] at h
    split at h
    · cases (Prod.mk.inj h).1
    · obtain ⟨hk, rfl⟩ := Prod.mk.inj h
      intro f hf
      rcases List.mem_cons.1 hf with rfl | hf
      · rw [Interval.tightenMax_max]
        omega
      · exact ih (Prod.ext hk rfl) f hf

theorem capAll_keeps (value : Int) (hu : Mem us es) (hle : ∀ u ∈ us, u ≤ value) :
    (capAll value es).1 = true ∧ Mem us (capAll value es).2 := by
  induction hu with
  | nil => exact ⟨rfl, .nil⟩
  | cons hmin hmax _ ih =>
    have hv := hle _ List.mem_cons_self
    obtain ⟨hk, hm⟩ := ih fun u hu => hle u (List.mem_cons_of_mem _ hu)
    simp only [capAll]
    rw [if_neg (by
      rw [Bool.not_eq_true, Interval.isEmpty_eq_false_iff, Interval.tightenMax_min,
        Interval.tightenMax_max]
      omega)]
    exact ⟨hk, .cons (by rw [Interval.tightenMax_min]; exact hmin)
      (by rw [Interval.tightenMax_max]; omega) hm⟩

theorem raiseFirst_within (m : Interval) (es : List Interval) : Within (raiseFirst m es) es := by
  induction es with
  | nil => exact .refl _
  | cons e es ih =>
    unfold raiseFirst
    split
    · exact .cons (Interval.tightenMin_isWithin _ _) (.refl _)
    · exact .cons (Interval.isWithin_refl _) ih

theorem raiseFirst_filled (hf : Filled es) : Filled (raiseFirst m es) := by
  induction es with
  | nil => exact hf
  | cons e es ih =>
    rw [Filled.cons_iff] at hf
    unfold raiseFirst
    split
    · rename_i h
      have : m.min ≤ e.max := of_decide_eq_true h
      exact Filled.cons_iff.2
        ⟨by rw [Interval.tightenMin_min, Interval.tightenMin_max]; omega, hf.2⟩
    · exact Filled.cons_iff.2 ⟨hf.1, ih hf.2⟩

/-- The only element that reaches the maximum takes the value that does. -/
theorem raiseFirst_keeps (hu : Mem us es) (hone : es.countP (reaches m) = 1)
    (hhigh : ∃ u ∈ us, m.min ≤ u) : Mem us (raiseFirst m es) := by
  induction hu with
  | nil => exact .nil
  | @cons u e us es hmin hmax h ih =>
    unfold raiseFirst
    rw [List.countP_cons] at hone
    split
    · rename_i he
      rw [if_pos he] at hone
      have hnone : ∀ d ∈ es, ¬ reaches m d = true := List.countP_eq_zero.1 (by omega)
      have hu0 : m.min ≤ u := by
        obtain ⟨w, hw, hw0⟩ := hhigh
        rcases List.mem_cons.1 hw with rfl | hw
        · exact hw0
        · obtain ⟨d, hd, hdw⟩ := h.exists_interval hw
          exact absurd (decide_eq_true (by omega)) (hnone d hd)
      exact .cons (by rw [Interval.tightenMin_min]; omega)
        (by rw [Interval.tightenMin_max]; exact hmax) h
    · rename_i he
      rw [if_neg he] at hone
      refine .cons hmin hmax (ih hone ?_)
      obtain ⟨w, hw, hw0⟩ := hhigh
      rcases List.mem_cons.1 hw with rfl | hw
      · exact absurd (decide_eq_true (by omega)) he
      · exact ⟨w, hw, hw0⟩

/-- Raising leaves the elements as they are only if the one that reaches the maximum is
confined to it. -/
theorem raiseFirst_eq_self (h : raiseFirst m es = es) (hone : es.countP (reaches m) = 1) :
    ∀ e ∈ es, m.min ≤ e.max → m.min ≤ e.min := by
  induction es with
  | nil => exact fun e he => absurd he List.not_mem_nil
  | cons d es ih =>
    unfold raiseFirst at h
    rw [List.countP_cons] at hone
    intro e he hle
    split at h
    · rename_i hd
      rw [if_pos hd] at hone
      rcases List.mem_cons.1 he with rfl | he
      · have := congrArg Interval.min (List.cons.inj h).1
        rw [Interval.tightenMin_min] at this
        omega
      · have hnone : es.countP (reaches m) = 0 := by omega
        exact absurd (decide_eq_true hle) (List.countP_eq_zero.1 hnone e he)
    · rename_i hd
      rw [if_neg hd] at hone
      rcases List.mem_cons.1 he with rfl | he
      · exact absurd (decide_eq_true hle) hd
      · exact ih (List.cons.inj h).2 hone e he hle

/-! ### Rounds -/

/-- What a round does if every variable keeps a value. -/
theorem round_eq_true (h : round es m = (true, fs, n)) :
    n = cover es m ∧ n.min ≤ n.max ∧ ∃ cs, capAll n.max es = (true, cs) ∧
      (cs.countP (reaches n) = 1 ∧ fs = raiseFirst n cs ∨ 2 ≤ cs.countP (reaches n) ∧ fs = cs) := by
  unfold round at h
  simp only at h
  split at h
  · cases (Prod.mk.inj h).1
  · rename_i he
    rw [Bool.not_eq_true, Interval.isEmpty_eq_false_iff] at he
    split at h
    · cases (Prod.mk.inj h).1
    · rename_i cs hcap
      split at h
      · cases (Prod.mk.inj h).1
      · rename_i hone
        obtain ⟨-, h⟩ := Prod.mk.inj h
        obtain ⟨rfl, rfl⟩ := Prod.mk.inj h
        exact ⟨rfl, he, cs, hcap, .inl ⟨hone, rfl⟩⟩
      · rename_i hzero hone
        obtain ⟨-, h⟩ := Prod.mk.inj h
        obtain ⟨rfl, rfl⟩ := Prod.mk.inj h
        refine ⟨rfl, he, cs, hcap, .inr ⟨?_, rfl⟩⟩
        rcases hc : cs.countP (reaches (cover es m)) with _ | _ | k
        · exact absurd hc hzero
        · exact absurd hc hone
        · omega

theorem round_within (h : round es m = (true, fs, n)) : Within fs es ∧ n.isWithin m := by
  obtain ⟨rfl, -, cs, hcap, hf⟩ := round_eq_true h
  have hcs : Within cs es := by
    have := capAll_within (cover es m).max es
    rwa [hcap] at this
  refine ⟨?_, cover_isWithin es m⟩
  rcases hf with ⟨-, rfl⟩ | ⟨-, rfl⟩
  · exact (raiseFirst_within _ cs).trans hcs
  · exact hcs

theorem round_filled (h : round es m = (true, fs, n)) : Filled fs := by
  obtain ⟨rfl, -, cs, hcap, hf⟩ := round_eq_true h
  have hcs : Filled cs := fun c hc =>
    Interval.isEmpty_eq_false_iff.1 (nonempty_of_capAll hcap c hc)
  rcases hf with ⟨-, rfl⟩ | ⟨-, rfl⟩
  · exact raiseFirst_filled hcs
  · exact hcs

/-- A round loses no assignment. -/
theorem round_keeps (hu : Mem us es) (hv : m.min ≤ v ∧ v ≤ m.max) (hin : v ∈ us)
    (hle : ∀ u ∈ us, u ≤ v) : (round es m).1 = true ∧ Mem us (round es m).2.1 ∧
      (round es m).2.2.min ≤ v ∧ v ≤ (round es m).2.2.max := by
  have hc := cover_keeps hu hv hin hle
  obtain ⟨hk, hcap⟩ := capAll_keeps (cover es m).max hu
    fun u hu => Int.le_trans (hle u hu) hc.2
  unfold round
  simp only
  rw [if_neg (by rw [Bool.not_eq_true, Interval.isEmpty_eq_false_iff]; omega)]
  split
  · rename_i he
    rw [he] at hk
    cases hk
  · rename_i cs he
    rw [he] at hcap
    split
    · rename_i hzero
      obtain ⟨c, hc', hcv⟩ := hcap.exists_interval hin
      exact absurd (decide_eq_true (by omega)) (List.countP_eq_zero.1 hzero c hc')
    · rename_i hone
      exact ⟨rfl, raiseFirst_keeps hcap hone ⟨v, hin, hc.1⟩, hc⟩
    · exact ⟨rfl, hcap, hc⟩

/-- Two elements put at values of their own, all others at their lower bounds, which are
no greater. -/
theorem exists_max {j k : Nat} {e i : Interval} {x b : Int} (hf : Filled es)
    (hj : es[j]? = some e) (hx : e.min ≤ x ∧ x ≤ e.max) (hk : es[k]? = some i)
    (hb : i.min ≤ b ∧ b ≤ i.max) (hlow : ∀ e ∈ es, e.min ≤ x) (hjk : j = k → x ≤ b) :
    ∃ us, Mem us es ∧ us[k]? = some b ∧ max x b ∈ us ∧ ∀ u ∈ us, u ≤ max x b := by
  have hlen : (es.map Interval.min).length = es.length := List.length_map _
  have hkl := (List.getElem?_eq_some_iff.1 hk).1
  have hjl := (List.getElem?_eq_some_iff.1 hj).1
  have hk' : (((es.map Interval.min).set j x).set k b)[k]? = some b :=
    List.getElem?_set_self (by rw [List.length_set, hlen]; exact hkl)
  refine ⟨((es.map Interval.min).set j x).set k b,
    (hf.mem_mins.set hj hx.1 hx.2).set hk hb.1 hb.2, hk', ?_, fun u hu => ?_⟩
  · by_cases hlt : b < x
    · rw [show max x b = x by omega]
      have hne : k ≠ j := fun h => by have := hjk h.symm; omega
      refine List.mem_of_getElem? (i := j) ?_
      rw [List.getElem?_set_ne hne, List.getElem?_set_self (by rw [hlen]; exact hjl)]
    · rw [show max x b = b by omega]
      exact List.mem_of_getElem? hk'
  · rcases List.mem_or_eq_of_mem_set hu with hu | rfl
    · rcases List.mem_or_eq_of_mem_set hu with hu | rfl
      · obtain ⟨e', he', rfl⟩ := List.mem_map.1 hu
        have := hlow e' he'
        omega
      · omega
    · omega

/-- Beside an element at one of its bounds, some element reaches the maximum. -/
theorem exists_reaching {k : Nat} {i : Interval} (hk : es[k]? = some i)
    (h : es.countP (reaches m) = 1 ∧ raiseFirst m es = es ∨ 2 ≤ es.countP (reaches m)) :
    ∃ j e, es[j]? = some e ∧ m.min ≤ e.max ∧ (j = k → m.min ≤ i.min) := by
  rcases h with ⟨hone, hraise⟩ | htwo
  · obtain ⟨e, he, hr⟩ := List.countP_pos_iff.1 (show 0 < es.countP (reaches m) by omega)
    have hr : m.min ≤ e.max := of_decide_eq_true hr
    obtain ⟨j, hj⟩ := List.mem_iff_getElem?.1 he
    refine ⟨j, e, hj, hr, ?_⟩
    rintro rfl
    obtain rfl := Option.some.inj (hk.symm.trans hj)
    exact raiseFirst_eq_self hraise hone _ he hr
  · have hkl := (List.getElem?_eq_some_iff.1 hk).1
    have hset := List.countP_set (p := reaches m) (a := ⟨m.min - 1, m.min - 1⟩) hkl
    have hout : ¬ reaches m ⟨m.min - 1, m.min - 1⟩ = true := fun h => by
      have : m.min ≤ m.min - 1 := of_decide_eq_true h
      omega
    rw [if_neg hout] at hset
    have hpos : 0 < (es.set k ⟨m.min - 1, m.min - 1⟩).countP (reaches m) := by
      rw [hset]
      split <;> omega
    obtain ⟨e, he, hr⟩ := List.countP_pos_iff.1 hpos
    obtain ⟨j, hj⟩ := List.mem_iff_getElem?.1 he
    have hjk : k ≠ j := by
      rintro rfl
      rw [List.getElem?_set_self hkl] at hj
      obtain rfl := Option.some.inj hj
      exact hout hr
    rw [List.getElem?_set_ne hjk] at hj
    exact ⟨j, e, hj, of_decide_eq_true hr, fun h => absurd h.symm hjk⟩

/-- What a round leaves alone. -/
structure Settled (es : List Interval) (m : Interval) : Prop where
  filled : m.min ≤ m.max
  least : ∀ e ∈ es, e.min ≤ m.min
  greatest : ∀ e ∈ es, e.max ≤ m.max
  top : ∃ e ∈ es, m.max ≤ e.max
  reaching : es.countP (reaches m) = 1 ∧ raiseFirst m es = es ∨ 2 ≤ es.countP (reaches m)

theorem settled_of_unchanged (h : round es m = (true, es, m)) (hne : es ≠ []) : Settled es m := by
  obtain ⟨hcov, hm, cs, hcap, hcase⟩ := round_eq_true h
  obtain ⟨hlow, htop⟩ := cover_bounds hne m
  rw [← hcov] at hlow htop
  have hcs : cs = es := by
    have hw := capAll_within m.max es
    rw [hcap] at hw
    rcases hcase with ⟨-, he⟩ | ⟨-, he⟩
    · have hback := raiseFirst_within m cs
      rw [← he] at hback
      exact hw.antisymm hback
    · exact he.symm
  subst hcs
  exact ⟨hm, hlow, capAll_max_le hcap, htop, hcase.imp (fun h => ⟨h.1, h.2.symm⟩) And.left⟩

/-- An element takes each of its values, beside a maximum at that value or at its own least. -/
theorem Settled.exists_element (parameters : List Int) (h : Settled es m) (hf : Filled es)
    {k : Nat} {i : Interval} (hk : es[k]? = some i) {b : Int} (hb : i.min ≤ b ∧ b ≤ i.max) :
    ∃ vs, Mem vs (es ++ [m]) ∧ Constraint.maxEq.Holds vs parameters ∧ vs[k]? = some b := by
  obtain ⟨j, e, hj, hr, hjk⟩ := exists_reaching hk h.reaching
  have hm := h.filled
  have hele := h.least e (List.mem_of_getElem? hj)
  have hile := h.greatest i (List.mem_of_getElem? hk)
  obtain ⟨us, hu, hkb, hin, hle⟩ := exists_max (x := m.min) hf hj ⟨hele, hr⟩ hk hb h.least
    fun h => Int.le_trans (hjk h) hb.1
  refine ⟨us ++ [max m.min b], hu.append (mem_singleton_iff.2 ⟨_, rfl, by omega, by omega⟩),
    holds_concat_iff.2 ⟨hin, hle⟩, ?_⟩
  rw [List.getElem?_append_left (List.getElem?_eq_some_iff.1 hkb).1]
  exact hkb

/-- The maximum takes each of its values that is one of some element. -/
theorem Settled.exists_maximum (parameters : List Int) (h : Settled es m) (hf : Filled es)
    {e : Interval} (he : e ∈ es) {b : Int} (hb : e.min ≤ b ∧ b ≤ e.max)
    (hbm : m.min ≤ b ∧ b ≤ m.max) :
    ∃ vs, Mem vs (es ++ [m]) ∧ Constraint.maxEq.Holds vs parameters ∧ vs[es.length]? = some b := by
  obtain ⟨j, hj⟩ := List.mem_iff_getElem?.1 he
  obtain ⟨us, hu, -, hin, hle⟩ := exists_max (x := b) hf hj hb hj hb
    (fun d hd => Int.le_trans (h.least d hd) hbm.1) fun _ => Int.le_refl b
  rw [Int.max_self] at hin hle
  refine ⟨us ++ [b], hu.append (mem_singleton_iff.2 ⟨_, rfl, hbm⟩),
    holds_concat_iff.2 ⟨hin, hle⟩, ?_⟩
  rw [← hu.length_eq, List.getElem?_concat_length]

/-- **A round that changes nothing leaves a tight box.** -/
theorem tight_of_unchanged {parameters : List Int} (h : round es m = (true, es, m))
    (hf : Filled es) (hne : es ≠ []) :
    Tight (Constraint.maxEq.Holds · parameters) (es ++ [m]) := by
  have hs := settled_of_unchanged h hne
  have hreach := hs.reaching
  obtain ⟨e, he, hr⟩ := List.countP_pos_iff.1 (show 0 < es.countP (reaches m) by omega)
  have hmin := hs.exists_maximum parameters hf he (b := m.min)
    ⟨hs.least e he, of_decide_eq_true hr⟩ ⟨Int.le_refl _, hs.filled⟩
  obtain ⟨top, hetop, htop⟩ := hs.top
  have hmax := hs.exists_maximum parameters hf hetop (b := m.max)
    ⟨Int.le_trans (hs.least _ hetop) hs.filled, htop⟩ ⟨hs.filled, Int.le_refl _⟩
  have hlast {k : Nat} {i : Interval} (hk : (es ++ [m])[k]? = some i) :
      es[k]? = some i ∨ k = es.length ∧ m = i := by
    rw [List.getElem?_append] at hk
    split at hk
    · exact .inl hk
    · rename_i hkl
      rw [List.getElem?_singleton] at hk
      split at hk
      · exact .inr ⟨by omega, Option.some.inj hk⟩
      · cases hk
  refine ⟨?_, fun {k i} hk => ?_, fun {k i} hk => ?_⟩
  · obtain ⟨vs, hv, hP, -⟩ := hmin
    exact ⟨vs, hv, hP⟩
  · rcases hlast hk with hk | ⟨rfl, rfl⟩
    · exact hs.exists_element parameters hf hk ⟨Int.le_refl _, hf i (List.mem_of_getElem? hk)⟩
    · exact hmin
  · rcases hlast hk with hk | ⟨rfl, rfl⟩
    · exact hs.exists_element parameters hf hk ⟨hf i (List.mem_of_getElem? hk), Int.le_refl _⟩
    · exact hmax

theorem settle_within (es : List Interval) (m : Interval) :
    (settle es m).status ≠ .inconsistent → Within (settle es m).bounds (es ++ [m]) := by
  fun_induction settle es m with
  | case1 => exact fun h => absurd rfl h
  | case2 es m fs n h e =>
    obtain ⟨rfl, rfl⟩ := List.cons.inj e
    exact fun _ => .refl _
  | case3 es m fs n h _ ih =>
    have hw := round_within h
    exact fun hs => (ih hs).trans (hw.1.append (.cons hw.2 (.refl _)))

theorem settle_keeps (hu : Mem us es) (hv : m.min ≤ v ∧ v ≤ m.max) (hin : v ∈ us)
    (hle : ∀ u ∈ us, u ≤ v) :
    (settle es m).status ≠ .inconsistent ∧ Mem (us ++ [v]) (settle es m).bounds := by
  fun_induction settle es m with
  | case1 es m fs n h =>
    have := (round_keeps hu hv hin hle).1
    rw [h] at this
    cases this
  | case2 es m fs n h e =>
    obtain ⟨rfl, rfl⟩ := List.cons.inj e
    refine ⟨?_, hu.append (mem_singleton_iff.2 ⟨v, rfl, hv⟩)⟩
    dsimp only
    split <;> exact Status.noConfusion
  | case3 es m fs n h _ ih =>
    have hk := round_keeps hu hv hin hle
    rw [h] at hk
    exact ih hk.2.1 hk.2.2

theorem settle_tight (parameters : List Int) (hf : Filled es) (hne : es ≠ [])
    (hs : (settle es m).status ≠ .inconsistent) :
    Tight (Constraint.maxEq.Holds · parameters) (settle es m).bounds ∧
      ((settle es m).status = .entailed → allFixed (settle es m).bounds = true) := by
  fun_induction settle es m with
  | case1 => exact absurd rfl hs
  | case2 es m fs n h e =>
    obtain ⟨rfl, rfl⟩ := List.cons.inj e
    refine ⟨tight_of_unchanged h hf hne, fun he => ?_⟩
    dsimp only at he ⊢
    split at he
    · rename_i hfix
      rw [Bool.and_eq_true] at hfix
      simp only [allFixed, List.all_append, List.all_cons, List.all_nil, Bool.and_true,
        Bool.and_eq_true]
      exact ⟨hfix.2, hfix.1⟩
    · cases he
  | case3 es m fs n h _ ih =>
    refine ih (round_filled h) ?_ hs
    rintro rfl
    exact hne (List.length_eq_zero_iff.1 (round_within h).1.length_eq.symm)

/-- **Rounds leave the smallest box around the assignments with that maximum.** -/
theorem exact (parameters : List Int) :
    Exact (fun is => .ok (propagate is)) (Constraint.maxEq.Holds · parameters) Posed where
  closed h hw hf := ⟨by rw [hw.length_eq]; exact h.1, hf⟩
  within := by
    rintro is _ hp ⟨⟩ hs
    obtain ⟨es, m, rfl, hne, -, -⟩ := hp.eq_concat
    rw [propagate_concat hne] at hs ⊢
    exact settle_within es m hs
  keeps := by
    rintro is _ vs hp ⟨⟩ hm hP
    obtain ⟨es, m, rfl, hne, -, -⟩ := hp.eq_concat
    obtain ⟨us, ws, rfl, hu, hw⟩ := mem_append_iff.1 hm
    obtain ⟨v, rfl, hv⟩ := mem_singleton_iff.1 hw
    rw [holds_concat_iff] at hP
    rw [propagate_concat hne]
    exact settle_keeps hu hv hP.1 hP.2
  tight := by
    rintro is _ hp ⟨⟩ hs
    obtain ⟨es, m, rfl, hne, hf, -⟩ := hp.eq_concat
    rw [propagate_concat hne] at hs ⊢
    exact (settle_tight _ hf hne hs).1
  entailed := by
    rintro is _ vs hp ⟨⟩ he hm
    obtain ⟨es, m, rfl, hne, hf, -⟩ := hp.eq_concat
    rw [propagate_concat hne] at he hm
    have ht := settle_tight parameters hf hne
      (by rw [he]; exact Status.noConfusion)
    exact ht.1.holds_of_fixed (ht.2 he) hm
  again _ _ _ _ _ := ⟨_, rfl⟩

end Maximum
end BoundsSolver
