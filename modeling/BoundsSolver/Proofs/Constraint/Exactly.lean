/-
# Counting a value is exact

The assignments of a box take the value at least as often as it is `assigned` and
at most as often as it is `possible`, and every number in between is taken
(`exists_count_eq`).  So a bound of a variable is taken by a counted assignment if
fixing the variable there leaves the count between these two numbers, which is
what a pass that changes nothing guarantees (`tight_of_unchanged`).
-/

import BoundsSolver.Proofs.Contract

namespace BoundsSolver
namespace Exactly

/-- The intervals on which the count can be propagated. -/
def Posed (is : List Interval) : Prop := Filled is ∧ ∀ i ∈ is, i.Fits

variable {value count : Int} {is js : List Interval} {vs : List Int}

/-- An interval that holds the value and others. -/
def isOpen (value : Int) (i : Interval) : Bool := i.contains value && !i.isFixed

theorem isOpen_iff {i : Interval} :
    isOpen value i = true ↔ (i.min ≤ value ∧ value ≤ i.max) ∧ i.min ≠ i.max := by
  simp only [isOpen, Bool.and_eq_true, Interval.contains_iff, Bool.not_eq_true',
    Interval.isFixed, decide_eq_false_iff_not, ne_eq]

theorem assigned_cons (i : Interval) (is : List Interval) :
    assigned value (i :: is) = assigned value is + if i.min = i.max ∧ i.min = value then 1 else 0 := by
  rw [assigned, assigned, List.countP_cons]
  simp only [Interval.isFixed, Bool.and_eq_true, decide_eq_true_eq]

theorem possible_cons (i : Interval) (is : List Interval) :
    possible value (i :: is) = possible value is + if i.min ≤ value ∧ value ≤ i.max then 1 else 0 := by
  rw [possible, possible, List.countP_cons]
  simp only [Interval.contains_iff]

/-- The value is taken wherever it must be and nowhere where it cannot. -/
theorem count_bounds (value : Int) (h : Mem vs is) :
    assigned value is ≤ vs.count value ∧ vs.count value ≤ possible value is := by
  induction h with
  | nil => exact ⟨Nat.le_refl _, Nat.le_refl _⟩
  | cons hmin hmax _ ih =>
    rw [assigned_cons, possible_cons, List.count_cons]
    simp only [beq_iff_eq]
    constructor <;> split <;> split <;> omega

/-- Every number between the two is the count of some assignment. -/
theorem exists_count_eq (value : Int) (hf : Filled is) {n : Nat} (hlow : assigned value is ≤ n)
    (hhigh : n ≤ possible value is) : ∃ vs, Mem vs is ∧ vs.count value = n := by
  induction is generalizing n with
  | nil => exact ⟨[], .nil, by rw [List.count_nil]; exact (Nat.le_zero.1 hhigh).symm⟩
  | cons i is ih =>
    rw [Filled.cons_iff] at hf
    rw [assigned_cons] at hlow
    rw [possible_cons] at hhigh
    have skip {v : Int} (hv : v ≠ value) (hmin : i.min ≤ v) (hmax : v ≤ i.max)
        (hn : assigned value is ≤ n ∧ n ≤ possible value is) :
        ∃ vs, Mem vs (i :: is) ∧ vs.count value = n := by
      obtain ⟨vs, hm, hc⟩ := ih hf.2 hn.1 hn.2
      exact ⟨v :: vs, .cons hmin hmax hm, by rw [List.count_cons_of_ne hv, hc]⟩
    by_cases hin : i.min ≤ value ∧ value ≤ i.max
    · rw [if_pos hin] at hhigh
      -- the value is taken here unless the rest already reaches the number
      rcases Nat.lt_or_ge (assigned value is) n with hlt | hge
      · obtain ⟨vs, hm, hc⟩ := ih hf.2 (n := n - 1) (by omega) (by omega)
        exact ⟨value :: vs, .cons hin.1 hin.2 hm, by rw [List.count_cons_self, hc]; omega⟩
      · split at hlow
        · omega
        · rename_i hne
          have hpos : n ≤ possible value is := by
            have := (count_bounds value hf.2.mem_mins)
            omega
          by_cases hmin : i.min = value
          · exact skip (v := i.max) (by omega) hf.1 (Int.le_refl _) ⟨by omega, hpos⟩
          · exact skip (v := i.min) hmin (Int.le_refl _) hf.1 ⟨by omega, hpos⟩
    · rw [if_neg hin] at hhigh
      split at hlow
      · omega
      · exact skip (v := i.min) (by omega) (Int.le_refl _) hf.1 ⟨by omega, by omega⟩

/-! ### One pass -/

theorem revise_isWithin {forced spent : Bool} {i j : Interval}
    (h : revise value forced spent i = .ok j) : j.isWithin i := by
  unfold revise at h
  split at h
  · obtain rfl := Except.ok.inj h
    exact Interval.isWithin_refl _
  · split at h
    · obtain rfl := Except.ok.inj h
      exact Interval.isWithin_trans (Interval.tightenMax_isWithin _ _)
        (Interval.tightenMin_isWithin _ _)
    · split at h
      · exact without_isWithin h
      · obtain rfl := Except.ok.inj h
        exact Interval.isWithin_refl _

theorem pass_within {forced spent : Bool} (h : pass value forced spent is = .ok js) :
    Within js is := by
  induction is generalizing js with
  | nil =>
    obtain rfl := Except.ok.inj h
    exact .refl _
  | cons i is ih =>
    obtain ⟨j, hj, h⟩ := bind_eq_ok.1 h
    obtain ⟨ks, hks, h⟩ := bind_eq_ok.1 h
    obtain rfl := Except.ok.inj h
    exact .cons (revise_isWithin hj) (ih hks)

/-- A pass keeps a value that is the one sought where it is forced to be and another
one where it is spent. -/
theorem revise_keeps {forced spent : Bool} {i j : Interval} {v : Int}
    (h : revise value forced spent i = .ok j) (hv : i.min ≤ v ∧ v ≤ i.max)
    (hforced : forced = true → isOpen value i = true → v = value)
    (hspent : spent = true → isOpen value i = true → v ≠ value) : j.min ≤ v ∧ v ≤ j.max := by
  unfold revise at h
  split at h
  · obtain rfl := Except.ok.inj h
    exact hv
  · rename_i hopen
    have hopen : isOpen value i = true := by
      simpa only [isOpen, Bool.or_eq_true, Bool.not_eq_true', not_or, Bool.not_eq_false,
        Bool.and_eq_true, Bool.not_eq_true] using hopen
    split at h
    · rename_i hforced'
      obtain rfl := hforced hforced' hopen
      obtain rfl := Except.ok.inj h
      rw [Interval.tightenMax_min, Interval.tightenMax_max, Interval.tightenMin_min,
        Interval.tightenMin_max]
      omega
    · split at h
      · rename_i hspent'
        have hne := hspent hspent' hopen
        unfold without at h
        split at h
        · obtain ⟨w, hw, h⟩ := bind_eq_ok.1 h
          obtain ⟨_, rfl⟩ := Width.add_eq_ok.1 hw
          obtain rfl := Except.ok.inj h
          rw [Interval.tightenMin_min, Interval.tightenMin_max]
          omega
        · split at h
          · obtain ⟨w, hw, h⟩ := bind_eq_ok.1 h
            obtain ⟨_, rfl⟩ := Width.sub_eq_ok.1 hw
            obtain rfl := Except.ok.inj h
            rw [Interval.tightenMax_min, Interval.tightenMax_max]
            omega
          · obtain rfl := Except.ok.inj h
            exact hv
      · obtain rfl := Except.ok.inj h
        exact hv

/-- If the value is taken as often as possible, it is taken by every open variable, and
if it is taken only where it is assigned, by none. -/
theorem pass_keeps {forced spent : Bool} (h : pass value forced spent is = .ok js)
    (hm : Mem vs is) (hforced : forced = true → vs.count value = possible value is)
    (hspent : spent = true → vs.count value = assigned value is) : Mem vs js := by
  induction hm generalizing js with
  | nil =>
    obtain rfl := Except.ok.inj h
    exact .nil
  | @cons v i vs is hmin hmax hm ih =>
    obtain ⟨j, hj, h⟩ := bind_eq_ok.1 h
    obtain ⟨ks, hks, h⟩ := bind_eq_ok.1 h
    obtain rfl := Except.ok.inj h
    have hb := count_bounds value hm
    rw [possible_cons, List.count_cons] at hforced
    rw [assigned_cons, List.count_cons] at hspent
    simp only [beq_iff_eq] at hforced hspent
    have hkeep := revise_keeps hj ⟨hmin, hmax⟩
      (fun hf hopen => by
        have := hforced hf
        simp only [isOpen, Bool.and_eq_true, Interval.contains_iff] at hopen
        rw [if_pos hopen.1] at this
        split at this
        · assumption
        · omega)
      (fun hs hopen hv => by
        have := hspent hs
        simp only [isOpen, Bool.and_eq_true, Bool.not_eq_true', Interval.isFixed,
          decide_eq_false_iff_not] at hopen
        rw [if_pos hv, if_neg fun h => hopen.2 h.1] at this
        omega)
    refine .cons hkeep.1 hkeep.2 (ih hks (fun hf => ?_) fun hs => ?_)
    · have := hforced hf
      split at this <;> split at this <;> omega
    · have := hspent hs
      split at this <;> split at this <;> omega

/-- A value that is a bound of an open interval can be removed from it: the number next to it
is another bound or lies between the two. -/
theorem exists_without {i : Interval} (hlt : i.min < i.max) (hfit : i.Fits) :
    ∃ j, without value i = .ok j ∧ j.min ≤ j.max := by
  have hi : Width.value.Fits i.min ∧ Width.value.Fits i.max := hfit
  simp only [Width.Fits, Width.value] at hi
  unfold without
  split
  · have hv : Width.value.Fits (value + 1) := by
      simp only [Width.Fits, Width.value]
      omega
    refine ⟨_, bind_eq_ok.2 ⟨_, Width.add_eq_ok.2 ⟨hv, rfl⟩, rfl⟩, ?_⟩
    rw [Interval.tightenMin_min, Interval.tightenMin_max]
    omega
  · split
    · have hv : Width.value.Fits (value - 1) := by
        simp only [Width.Fits, Width.value]
        omega
      refine ⟨_, bind_eq_ok.2 ⟨_, Width.sub_eq_ok.2 ⟨hv, rfl⟩, rfl⟩, ?_⟩
      rw [Interval.tightenMax_min, Interval.tightenMax_max]
      omega
    · exact ⟨i, rfl, Int.le_of_lt hlt⟩

theorem exists_revise (value : Int) (forced spent : Bool) {i : Interval} (hf : i.min ≤ i.max)
    (hfit : i.Fits) : ∃ j, revise value forced spent i = .ok j ∧ j.min ≤ j.max := by
  unfold revise
  split
  · exact ⟨i, rfl, hf⟩
  · rename_i hopen
    simp only [Bool.or_eq_true, Bool.not_eq_true', not_or, Bool.not_eq_false, Bool.not_eq_true,
      Interval.isFixed, Interval.contains_iff, decide_eq_false_iff_not] at hopen
    split
    · refine ⟨_, rfl, ?_⟩
      rw [Interval.tightenMax_min, Interval.tightenMax_max, Interval.tightenMin_min,
        Interval.tightenMin_max]
      omega
    · split
      · exact exists_without (by omega) hfit
      · exact ⟨i, rfl, hf⟩

/-- A pass over filled intervals of values always comes to an end, and keeps them filled. -/
theorem pass_total (value : Int) (forced spent : Bool) (h : Posed is) :
    ∃ js, pass value forced spent is = .ok js ∧ Filled js := by
  induction is with
  | nil => exact ⟨[], rfl, h.1⟩
  | cons i is ih =>
    obtain ⟨hf, hfit⟩ := h
    rw [Filled.cons_iff] at hf
    obtain ⟨j, hj, hfi⟩ := exists_revise value forced spent hf.1 (hfit i List.mem_cons_self)
    obtain ⟨js, hjs, hfj⟩ := ih ⟨hf.2, fun j hj => hfit j (List.mem_cons_of_mem _ hj)⟩
    exact ⟨j :: js, bind_eq_ok.2 ⟨j, hj, bind_eq_ok.2 ⟨js, hjs, rfl⟩⟩,
      Filled.cons_iff.2 ⟨hfi, hfj⟩⟩

theorem Posed.of_within (h : Posed is) (hw : Within js is) (hf : Filled js) : Posed js := by
  refine ⟨hf, fun j hj => ?_⟩
  obtain ⟨i, hi, hij⟩ := hw.exists_of_mem hj
  exact (h.2 i hi).of_within hij (hf j hj)

/-- An open variable shows in every pass that forces it. -/
theorem pass_forced_ne {spent : Bool} (h : pass value true spent is = .ok is) {i : Interval}
    (hi : i ∈ is) : isOpen value i = false := by
  induction is with
  | nil => cases hi
  | cons k is ih =>
    obtain ⟨j, hj, h⟩ := bind_eq_ok.1 h
    obtain ⟨ks, hks, h⟩ := bind_eq_ok.1 h
    obtain ⟨rfl, rfl⟩ := by simpa [pure, Except.pure] using h
    rcases List.mem_cons.1 hi with rfl | hi
    · rw [← Bool.not_eq_true]
      intro hopen
      simp only [isOpen, Bool.and_eq_true, Bool.not_eq_true', Interval.isFixed,
        decide_eq_false_iff_not] at hopen
      unfold revise at hj
      rw [if_neg (by simp [hopen.1, Interval.isFixed, hopen.2]), if_pos rfl] at hj
      have hin := Interval.contains_iff.1 hopen.1
      have he := Except.ok.inj hj
      have hmin := congrArg Interval.min he
      have hmax := congrArg Interval.max he
      rw [Interval.tightenMax_min, Interval.tightenMin_min] at hmin
      rw [Interval.tightenMax_max, Interval.tightenMin_max] at hmax
      omega
    · exact ih hks hi

/-- A pass without room for the value leaves it inside of every open variable. -/
theorem pass_spent_ne {forced : Bool} (h : pass value forced true is = .ok is)
    (hforced : forced = false) {i : Interval} (hi : i ∈ is) (hopen : isOpen value i = true) :
    i.min ≠ value ∧ i.max ≠ value := by
  induction is with
  | nil => cases hi
  | cons k is ih =>
    obtain ⟨j, hj, h⟩ := bind_eq_ok.1 h
    obtain ⟨ks, hks, h⟩ := bind_eq_ok.1 h
    obtain ⟨rfl, rfl⟩ := by simpa [pure, Except.pure] using h
    rcases List.mem_cons.1 hi with rfl | hi
    · simp only [isOpen, Bool.and_eq_true, Bool.not_eq_true', Interval.isFixed,
        decide_eq_false_iff_not] at hopen
      subst hforced
      unfold revise at hj
      rw [if_neg (by simp [hopen.1, Interval.isFixed, hopen.2]), if_neg Bool.false_ne_true,
        if_pos rfl] at hj
      unfold without at hj
      split at hj
      · obtain ⟨w, hw, hj⟩ := bind_eq_ok.1 hj
        obtain ⟨_, rfl⟩ := Width.add_eq_ok.1 hw
        have hmin := congrArg Interval.min (Except.ok.inj hj)
        rw [Interval.tightenMin_min] at hmin
        omega
      · split at hj
        · obtain ⟨w, hw, hj⟩ := bind_eq_ok.1 hj
          obtain ⟨_, rfl⟩ := Width.sub_eq_ok.1 hw
          have hmax := congrArg Interval.max (Except.ok.inj hj)
          rw [Interval.tightenMax_max] at hmax
          omega
        · exact ⟨‹_›, ‹_›⟩
    · exact ih hks hi

/-! ### All passes -/

theorem assigned_set (value : Int) {k : Nat} (hk : k < is.length) (b : Int) :
    assigned value (is.set k ⟨b, b⟩) + (if is[k].min = is[k].max ∧ is[k].min = value then 1 else 0) =
      assigned value is + if b = value then 1 else 0 := by
  have hset := List.countP_set
    (p := fun i : Interval => i.isFixed && decide (i.min = value)) (a := ⟨b, b⟩) hk
  have hle : (if is[k].min = is[k].max ∧ is[k].min = value then 1 else 0) ≤ assigned value is := by
    split
    · rename_i h
      exact List.countP_pos_iff.2 ⟨is[k], List.getElem_mem hk, by
        simp only [Interval.isFixed, Bool.and_eq_true, decide_eq_true_eq]
        exact h⟩
    · exact Nat.zero_le _
  simp only [Interval.isFixed, Bool.and_eq_true, decide_eq_true_eq, true_and] at hset
  simp only [assigned, Interval.isFixed] at hle ⊢
  omega

theorem possible_set (value : Int) {k : Nat} (hk : k < is.length) (b : Int) :
    possible value (is.set k ⟨b, b⟩) + (if is[k].min ≤ value ∧ value ≤ is[k].max then 1 else 0) =
      possible value is + if b = value then 1 else 0 := by
  have hset := List.countP_set (p := (·.contains value)) (a := Interval.mk b b) hk
  have hle : (if is[k].min ≤ value ∧ value ≤ is[k].max then 1 else 0) ≤ possible value is := by
    split
    · rename_i h
      exact List.countP_pos_iff.2 ⟨is[k], List.getElem_mem hk, Interval.contains_iff.2 h⟩
    · exact Nat.zero_le _
  have hb : (b ≤ value ∧ value ≤ b) ↔ b = value := by omega
  simp only [Interval.contains_iff, hb] at hset
  simp only [possible] at hle ⊢
  omega

/-- A bound of a variable is taken by some counted assignment if fixing the variable there
leaves the count within reach. -/
theorem exists_count_eq_at (hf : Filled is) {k : Nat} {i : Interval} (hi : is[k]? = some i)
    {b : Int} (hb : i.min ≤ b ∧ b ≤ i.max) (hlow : (assigned value (is.set k ⟨b, b⟩) : Int) ≤ count)
    (hhigh : count ≤ possible value (is.set k ⟨b, b⟩)) :
    ∃ vs, Mem vs is ∧ (vs.count value : Int) = count ∧ vs[k]? = some b := by
  have hf' : Filled (is.set k ⟨b, b⟩) := hf.set (Int.le_refl b) k
  obtain ⟨vs, hm, hc⟩ := exists_count_eq value hf' (n := count.toNat) (by omega) (by omega)
  obtain ⟨hm, hv⟩ := hm.of_set_singleton hi hb
  exact ⟨vs, hm, by omega, hv⟩

/-- A pass that changes nothing leaves the count within reach wherever an open variable
is fixed to one of its bounds. -/
theorem tight_of_unchanged (hf : Filled is) (hlow : (assigned value is : Int) ≤ count)
    (hhigh : count ≤ possible value is) (hne : assigned value is ≠ possible value is)
    (h : pass value (decide (possible value is = count)) (decide (assigned value is = count)) is
      = .ok is) :
    Tight (fun vs => (vs.count value : Int) = count) is := by
  have hopen : ∃ i ∈ is, isOpen value i = true := by
    by_contra hnone
    apply hne
    rw [assigned, possible]
    refine List.countP_congr fun i hi => ?_
    have hfix : ¬ ((i.min ≤ value ∧ value ≤ i.max) ∧ i.min ≠ i.max) :=
      fun h => hnone ⟨i, hi, isOpen_iff.2 h⟩
    have hi' := hf i hi
    rw [Bool.and_eq_true, Interval.isFixed_iff, decide_eq_true_eq, Interval.contains_iff]
    omega
  -- while a variable is open, forcing would have changed it
  have hforced : ¬ (possible value is : Int) = count := by
    intro hc
    rw [decide_eq_true hc] at h
    obtain ⟨i, hi, ho⟩ := hopen
    rw [pass_forced_ne h hi] at ho
    cases ho
  rw [decide_eq_false hforced] at h
  have reach {k : Nat} {i : Interval} (hi : is[k]? = some i) {b : Int}
      (hb : b = i.min ∨ b = i.max) :
      ∃ vs, Mem vs is ∧ (vs.count value : Int) = count ∧ vs[k]? = some b := by
    obtain ⟨hk, rfl⟩ := List.getElem?_eq_some_iff.1 hi
    have hfi := hf _ (List.getElem_mem hk)
    have ha := assigned_set value hk b
    have hp := possible_set value hk b
    -- a spent value is no bound of an open variable
    have hspent : (assigned value is : Int) = count → is[k].min ≠ is[k].max →
        is[k].min ≤ value → value ≤ is[k].max → b ≠ value := by
      intro hc hfix hmin hmax
      rw [decide_eq_true hc] at h
      have := pass_spent_ne h rfl (List.getElem_mem hk) (isOpen_iff.2 ⟨⟨hmin, hmax⟩, hfix⟩)
      rcases hb with rfl | rfl
      · exact this.1
      · exact this.2
    refine exists_count_eq_at hf hi (by omega) ?_ ?_
    · split at ha <;> split at ha <;> omega
    · split at hp <;> split at hp <;> omega
  obtain ⟨vs, hm, hc⟩ := exists_count_eq value hf (n := count.toNat) (by omega) (by omega)
  exact ⟨⟨vs, hm, by omega⟩, fun hi => reach hi (.inl rfl), fun hi => reach hi (.inr rfl)⟩

theorem settle_total (h : Posed is) : ∃ r, settle value count is = .ok r := by
  fun_induction settle value count is with
  | case1 => exact ⟨_, rfl⟩
  | case2 => exact ⟨_, rfl⟩
  | case3 is _ _ f e =>
    obtain ⟨js, hjs, -⟩ := pass_total value _ _ h
    rw [hjs] at e
    cases e
  | case4 => exact ⟨_, rfl⟩
  | case5 is _ _ js e _ ih =>
    obtain ⟨ks, hks, hf⟩ := pass_total value _ _ h
    rw [hks] at e
    obtain rfl := Except.ok.inj e
    exact ih (h.of_within (pass_within hks) hf)

theorem settle_within {r : Narrowing} (h : settle value count is = .ok r) :
    Within r.bounds is := by
  fun_induction settle value count is with
  | case1 => obtain rfl := Except.ok.inj h; exact .refl _
  | case2 => obtain rfl := Except.ok.inj h; exact .refl _
  | case3 => cases h
  | case4 => obtain rfl := Except.ok.inj h; exact .refl _
  | case5 is _ _ js e _ ih => exact (ih h).trans (pass_within e)

theorem settle_keeps {r : Narrowing} (h : settle value count is = .ok r) (hm : Mem vs is)
    (hc : (vs.count value : Int) = count) : r.status ≠ .inconsistent ∧ Mem vs r.bounds := by
  fun_induction settle value count is with
  | case1 is hfail =>
    have := count_bounds value hm
    omega
  | case2 =>
    obtain rfl := Except.ok.inj h
    exact ⟨Status.noConfusion, hm⟩
  | case3 => cases h
  | case4 =>
    obtain rfl := Except.ok.inj h
    exact ⟨Status.noConfusion, hm⟩
  | case5 is _ _ js e _ ih =>
    refine ih h (pass_keeps e hm (fun hf => ?_) fun hs => ?_)
    · have := of_decide_eq_true hf
      omega
    · have := of_decide_eq_true hs
      omega

/-- A run that does not fail leaves the count within reach, and is entailed exactly if no
variable is left open. -/
theorem settle_final {r : Narrowing} (h : settle value count is = .ok r)
    (hs : r.status ≠ .inconsistent) :
    ((assigned value r.bounds : Int) ≤ count ∧ count ≤ possible value r.bounds) ∧
      (r.status = .entailed ↔ assigned value r.bounds = possible value r.bounds) := by
  fun_induction settle value count is with
  | case1 =>
    obtain rfl := Except.ok.inj h
    exact absurd rfl hs
  | case2 is hfail he =>
    obtain rfl := Except.ok.inj h
    exact ⟨by dsimp only; omega, iff_of_true rfl he⟩
  | case3 => cases h
  | case4 is hfail hne =>
    obtain rfl := Except.ok.inj h
    exact ⟨by dsimp only; omega, iff_of_false Status.noConfusion hne⟩
  | case5 is _ _ js _ _ ih => exact ih h

theorem settle_tight {r : Narrowing} (h : settle value count is = .ok r)
    (hs : r.status ≠ .inconsistent) (hp : Posed is) :
    Tight (fun vs => (vs.count value : Int) = count) r.bounds := by
  fun_induction settle value count is with
  | case1 =>
    obtain rfl := Except.ok.inj h
    exact absurd rfl hs
  | case2 is hfail he =>
    obtain rfl := Except.ok.inj h
    have hall : ∀ vs, Mem vs is → (vs.count value : Int) = count := fun vs hm => by
      have := count_bounds value hm
      omega
    exact .of_forall hp.1 hall
  | case3 => cases h
  | case4 is hfail hne e =>
    obtain rfl := Except.ok.inj h
    have ht : Tight (fun vs => (vs.count value : Int) = count) is :=
      tight_of_unchanged hp.1 (by omega) (by omega) hne e
    exact ht
  | case5 is _ _ js e _ ih =>
    obtain ⟨ks, hks, hf⟩ := pass_total value _ _ hp
    rw [hks] at e
    obtain rfl := Except.ok.inj e
    exact ih h (hp.of_within (pass_within hks) hf)

/-- **A run that does not fail is entailed exactly if all that is left has the count.** -/
theorem settle_entailed_iff {r : Narrowing} (h : settle value count is = .ok r)
    (hs : r.status ≠ .inconsistent) (hp : Posed is) :
    r.status = .entailed ↔ ∀ vs, Mem vs r.bounds → (vs.count value : Int) = count := by
  obtain ⟨hreach, hentailed⟩ := settle_final h hs
  rw [hentailed]
  constructor
  · intro he vs hm
    have := count_bounds value hm
    omega
  · intro hall
    -- the value is also taken as rarely and as often as can be
    have hf := (settle_tight h hs hp).filled
    have hle := count_bounds value hf.mem_mins
    obtain ⟨us, hu, hlow⟩ := exists_count_eq value hf (Nat.le_refl _) (by omega)
    obtain ⟨ws, hw, hhigh⟩ := exists_count_eq value hf (by omega) (Nat.le_refl _)
    have := hall us hu
    have := hall ws hw
    omega

/-- **Passes leave the smallest box around the assignments with the count.** -/
theorem exact (value count : Int) :
    Exact (fun is => propagate is [value, count]) (Constraint.exactlyEq.Holds · [value, count])
      Posed where
  closed h hw hf := h.of_within hw hf
  within _ h _ := settle_within h
  keeps _ h hm hc := settle_keeps h hm hc
  tight hp h hs := settle_tight h hs hp
  entailed hp h he hm :=
    (settle_entailed_iff h (by rw [he]; exact Status.noConfusion) hp).1 he _ hm
  again hp h _ hw ht := settle_total (hp.of_within (hw.trans (settle_within h)) ht.filled)

end Exactly
end BoundsSolver
