/-
# Parts of a problem

Cutting an interval comes to ranges that follow one another without a gap (`Tiles`), and
never to a fault: the sums stay far within 64 bits (`partition_tiles`).  Restricting a
problem to a range of one of its variables cuts one shared domain to the range less the
offset (`restrictInitial_range`), with any offset, since the offset of a variable cuts none
of its initial values short, and takes just the assignments away that give the variable
another value (`cutTo_restricts`).  Hence every assignment within the initial box is in
exactly one part (`Division.exists_parts`).
-/

import BoundsSolver.Parallel.Division
import BoundsSolver.Proofs.Network.Narrowing
import BoundsSolver.Proofs.Search.Frontier

namespace BoundsSolver

/-- The ranges follow one another from the first value to the one before the last, and none
is empty. -/
inductive Tiles : Int → List Interval → Int → Prop
  | nil {first : Int} : Tiles first [] first
  | cons {r : Interval} {rs : List Interval} {last : Int} :
    r.min ≤ r.max → Tiles (r.max + 1) rs last → Tiles r.min (r :: rs) last

variable {p q : Problem} {i r : Interval} {rs : List Interval} {first last x : Int}
  {parts size larger : Nat} {v : View} {as : List Int} {y : VariableId} {b : Box} {d : Division}

namespace Tiles

theorem bounds (h : Tiles first rs last) :
    first ≤ last ∧ ∀ r ∈ rs, first ≤ r.min ∧ r.min ≤ r.max ∧ r.max < last := by
  induction h with
  | nil => exact ⟨Int.le_refl _, List.forall_mem_nil _⟩
  | @cons r rs last hr _ ih =>
    obtain ⟨hle, hrs⟩ := ih
    refine ⟨by omega, List.forall_mem_cons.2 ⟨⟨Int.le_refl _, hr, by omega⟩, ?_⟩⟩
    intro e he
    obtain ⟨hmin, hne, hmax⟩ := hrs e he
    exact ⟨by omega, hne, hmax⟩

/-- The ranges are in ascending order, hence apart. -/
theorem pairwise (h : Tiles first rs last) : rs.Pairwise fun r r' => r.max < r'.min := by
  induction h with
  | nil => exact .nil
  | cons _ hrs ih =>
    refine List.pairwise_cons.2 ⟨?_, ih⟩
    intro e he
    have hmin := (hrs.bounds.2 e he).1
    omega

/-- Every value is in one of the ranges. -/
theorem exists_mem (h : Tiles first rs last) (hfirst : first ≤ x) (hlast : x < last) :
    ∃ r ∈ rs, r.min ≤ x ∧ x ≤ r.max := by
  induction h with
  | nil => omega
  | @cons r rs last _ _ ih =>
    by_cases hx : x ≤ r.max
    · exact ⟨r, List.mem_cons_self, hfirst, hx⟩
    · obtain ⟨e, he, hmem⟩ := ih (by omega) hlast
      exact ⟨e, List.mem_cons_of_mem r he, hmem⟩

end Tiles

/-! ### Cutting an interval -/

/-- One range after the other: the sums stay within their width, and the bounds within that
of values. -/
theorem ranges_succ {length : Nat} (hlength : length = size + min larger 1)
    (hlo : Width.value.lo ≤ first) (hhi : first + length - 1 ≤ Width.value.hi)
    (hpos : 0 < length)
    (hrs : Interval.ranges size parts (larger - 1) (first + length) = .ok rs) :
    Interval.ranges size (parts + 1) larger first =
      .ok (⟨first, first + length - 1⟩ :: rs) := by
  simp only [Width.value] at hlo hhi
  have hsum {x : Int} (h : first ≤ x) (h' : x ≤ first + length) : Width.sum.Fits x := by
    simp only [Width.Fits, Width.sum]
    omega
  have hvalue {x : Int} (h : first ≤ x) (h' : x < first + length) : Width.value.wrap x = x :=
    Width.wrap_eq_self (by simp only [Width.Fits, Width.value]; omega)
  have hend : Width.sum.add first (length : Nat) = .ok (first + length) :=
    Width.add_eq_ok.2 ⟨hsum (by omega) (by omega), rfl⟩
  have hmax : Width.sum.sub (first + length) 1 = .ok (first + length - 1) :=
    Width.sub_eq_ok.2 ⟨hsum (by omega) (by omega), rfl⟩
  have hnext : Width.sum.add (first + length - 1) 1 = .ok (first + length) :=
    Width.add_eq_ok.2 ⟨hsum (by omega) (by omega), by omega⟩
  rw [Interval.ranges, ← hlength]
  rw [bind_of_ok hend, bind_of_ok hmax, bind_of_ok hnext, bind_of_ok hrs,
    hvalue (Int.le_refl _) (by omega), hvalue (by omega) (by omega)]
  rfl

/-- So many sizes, the first of them greater by one. -/
theorem cons_replicate_sizes (size larger parts : Nat) :
    (size + min larger 1) :: (List.replicate (min (larger - 1) parts) (size + 1) ++
        List.replicate (parts - (larger - 1)) size) =
      List.replicate (min larger (parts + 1)) (size + 1) ++
        List.replicate (parts + 1 - larger) size := by
  cases larger with
  | zero => simp [List.replicate_succ]
  | succ larger => simp [List.replicate_succ]

/-- Consecutive ranges of so many values each, and one more in the first of them. -/
theorem ranges_tiles (hsize : 0 < size) (hlo : Width.value.lo ≤ first)
    (hhi : first + (size * parts + min larger parts : Nat) - 1 ≤ Width.value.hi) :
    ∃ rs, Interval.ranges size parts larger first = .ok rs ∧
      rs.map Interval.size = List.replicate (min larger parts) (size + 1) ++
        List.replicate (parts - larger) size ∧
      Tiles first rs (first + (size * parts + min larger parts : Nat)) := by
  induction parts generalizing larger first with
  | zero =>
    refine ⟨[], rfl, ?_, ?_⟩
    · rw [Nat.min_zero, Nat.zero_sub]
      rfl
    · rw [Nat.mul_zero, Nat.min_zero, Nat.add_zero, Int.natCast_zero, Int.add_zero]
      exact .nil
  | succ parts ih =>
    obtain ⟨length, hlength⟩ : ∃ length, length = size + min larger 1 := ⟨_, rfl⟩
    have htotal : size * (parts + 1) + min larger (parts + 1) =
        length + (size * parts + min (larger - 1) parts) := by
      rw [Nat.mul_succ]
      omega
    rw [htotal] at hhi ⊢
    have hlo' : Width.value.lo ≤ first + length := by omega
    have hhi' : first + length + (size * parts + min (larger - 1) parts : Nat) - 1 ≤
        Width.value.hi := by omega
    obtain ⟨rs, hrs, hsizes, htiles⟩ := ih hlo' hhi'
    let r : Interval := ⟨first, first + length - 1⟩
    refine ⟨r :: rs, ranges_succ hlength hlo (by omega) (by omega) hrs, ?_, ?_⟩
    · have hr : r.size = size + min larger 1 := by
        simp only [r, Interval.size]
        omega
      rw [List.map_cons, hsizes, hr]
      exact cons_replicate_sizes size larger parts
    · have hrest : Tiles (r.max + 1) rs (first + (length +
          (size * parts + min (larger - 1) parts) : Nat)) := by
        rw [show r.max + 1 = first + length from by simp only [r]; omega, Int.natCast_add,
          ← Int.add_assoc]
        exact htiles
      have hr : r.min ≤ r.max := by
        simp only [r]
        omega
      exact .cons hr hrest

/-- **An interval is cut into ranges that cover it exactly**, the larger ones first. -/
theorem partition_tiles {k : Nat} (hi : i.Fits) (hne : i.min ≤ i.max) (hparts : 0 < parts)
    (hk : k = min parts i.size) :
    ∃ rs, i.partition parts = .ok rs ∧
      rs.map Interval.size = List.replicate (i.size % k) (i.size / k + 1) ++
        List.replicate (k - i.size % k) (i.size / k) ∧
      Tiles i.min rs (i.max + 1) := by
  have hsize : (i.size : Int) = i.max - i.min + 1 := by
    simp only [Interval.size]
    omega
  have hpos : 0 < k := by
    have : 0 < i.size := by omega
    omega
  have hlarger : min (i.size % k) k = i.size % k :=
    Nat.min_eq_left (Nat.le_of_lt (Nat.mod_lt i.size hpos))
  have htotal : i.size / k * k + min (i.size % k) k = i.size := by
    rw [hlarger, Nat.mul_comm]
    exact Nat.div_add_mod i.size k
  obtain ⟨hlo, hhi⟩ := hi
  have hlast : i.min + (i.size / k * k + min (i.size % k) k : Nat) - 1 ≤ Width.value.hi := by
    have := hhi.2
    rw [htotal]
    omega
  have hle : k ≤ i.size := hk ▸ Nat.min_le_right parts i.size
  obtain ⟨rs, hrs, hsizes, htiles⟩ := ranges_tiles (Nat.div_pos hle hpos) hlo.1 hlast
  rw [hlarger] at hsizes
  refine ⟨rs, ?_, hsizes, ?_⟩
  · rw [Interval.partition, if_neg ?_]
    · exact hk ▸ hrs
    · rw [Interval.isEmpty_iff]
      omega
  · rw [htotal, show i.min + (i.size : Int) = i.max + 1 by omega] at htiles
    exact htiles

/-- Whether an interval has values or not, it is cut into ascending ranges that hold just
these. -/
theorem partition_covers (hi : i.Fits) (hparts : 0 < parts) :
    ∃ rs, i.partition parts = .ok rs ∧
      (∀ r ∈ rs, i.min ≤ r.min ∧ r.min ≤ r.max ∧ r.max ≤ i.max) ∧
      (∀ {x}, i.min ≤ x → x ≤ i.max → ∃ r ∈ rs, r.min ≤ x ∧ x ≤ r.max) ∧
      rs.Pairwise fun r r' => r.max < r'.min := by
  by_cases hne : i.min ≤ i.max
  · obtain ⟨rs, hrs, -, htiles⟩ := partition_tiles hi hne hparts rfl
    refine ⟨rs, hrs, ?_, ?_, htiles.pairwise⟩
    · intro r hr
      obtain ⟨hmin, hfilled, hmax⟩ := htiles.bounds.2 r hr
      exact ⟨hmin, hfilled, Int.lt_add_one_iff.1 hmax⟩
    · intro x hmin hmax
      exact htiles.exists_mem hmin (Int.lt_add_one_iff.2 hmax)
  · refine ⟨[], ?_, List.forall_mem_nil _, ?_, .nil⟩
    · rw [Interval.partition, if_pos (.inl (Interval.isEmpty_iff.2 (Int.not_le.1 hne)))]
    · intro x hmin hmax
      omega

/-! ### Restricting a problem -/

/-- The problems differ only in that one keeps the variable within the range. -/
structure Problem.Restricts (p : Problem) (v : View) (r : Interval) (q : Problem) : Prop where
  views : q.network.views = p.network.views
  propagators : q.network.propagators = p.network.propagators
  initial : ∀ {as : List Int}, Mem as q.network.initial.toList ↔
    Mem as p.network.initial.toList ∧ r.min ≤ v.value as ∧ v.value as ≤ r.max
  current : ∀ {as : List Int}, Mem as q.current.toList ↔
    Mem as p.current.toList ∧ r.min ≤ v.value as ∧ v.value as ≤ r.max

/-- Narrowing one shared domain to an interval drops the assignments beyond it. -/
theorem mem_modify_tightenTo_iff {e : DomainId} (he : e.index < b.size) :
    Mem as (Keyed.toList (Keyed.modify b e (·.tightenTo i))) ↔
      Mem as b.toList ∧ i.min ≤ e.valueIn as ∧ e.valueIn as ≤ i.max := by
  rw [Box.mem_iff, Box.mem_iff, Keyed.size_modify, and_assoc]
  refine and_congr_right fun _ => ?_
  constructor
  · intro h
    have hown := h e
    rw [Box.entry_modify, if_pos ⟨rfl, he⟩, Interval.tightenTo_min, Interval.tightenTo_max] at hown
    refine ⟨fun e' => ?_, by omega⟩
    have hother := h e'
    rw [Box.entry_modify] at hother
    split at hother
    · simp only [Interval.tightenTo_min, Interval.tightenTo_max] at hother
      omega
    · exact hother
  · rintro ⟨h, hi⟩ e'
    have hother := h e'
    rw [Box.entry_modify]
    split
    · rename_i heq
      obtain ⟨rfl, -⟩ := heq
      simp only [Interval.tightenTo_min, Interval.tightenTo_max]
      omega
    · exact hother

/-- The range of a variable as one of its shared domain. -/
def View.back (v : View) (r : Interval) : Interval := ⟨r.min - v.offset, r.max - v.offset⟩

/-- The problem with one shared domain cut to an interval. -/
def Problem.cutTo (p : Problem) (e : DomainId) (i : Interval) : Problem :=
  { network := { p.network with initial := p.network.initial.modify e (·.tightenTo i) }
    current := p.current.modify e (·.tightenTo i) }

/-- The offset cuts no range of initial values short. -/
theorem View.restricted_eq (hn : p.network.WellFormed) (hv : p.network.Carries v)
    (hmin : (v.read p.network.initial).min ≤ r.min) (hne : r.min ≤ r.max)
    (hmax : r.max ≤ (v.read p.network.initial).max) : v.restricted p.network r = v.back r := by
  have hread := hv.read_initial
  obtain ⟨i, hi, -⟩ := hv
  have hentry : p.network.initial.entry v.domain = i := Keyed.entry_of_get? hi
  obtain ⟨hfitlo, hfithi⟩ := hn.fits i (Keyed.mem_of_get? hi)
  rw [hread, hentry] at hmin hmax
  dsimp only at hmin hmax
  have hclampmin : Width.value.clamp (r.min - v.offset) = r.min - v.offset :=
    Width.clamp_eq_self ⟨by have := hfitlo.1; omega, by have := hfithi.2; omega⟩
  have hclampmax : Width.value.clamp (r.max - v.offset) = r.max - v.offset :=
    Width.clamp_eq_self ⟨by have := hfitlo.1; omega, by have := hfithi.2; omega⟩
  rw [View.restricted, View.own, hentry, hclampmin, hclampmax]
  exact Interval.ext (by simp only [Interval.tightenTo_min, View.back]; omega)
    (by simp only [Interval.tightenTo_max, View.back]; omega)

/-- **Restricting to a range of initial values of a variable never fails.** -/
theorem restrictInitial_range (hp : p.Sound) (hy : p.network.views.get? y = some v)
    (hmin : (v.read p.network.initial).min ≤ r.min) (hne : r.min ≤ r.max)
    (hmax : r.max ≤ (v.read p.network.initial).max) :
    p.restrictInitial y r.min r.max = .ok (p.cutTo v.domain (v.back r)) := by
  have hcarries := hp.network.carried v (Keyed.mem_of_get? hy)
  have hfilled : ¬ (v.back r).isEmpty = true := by
    rw [Bool.not_eq_true, Interval.isEmpty_eq_false_iff]
    exact Int.sub_le_sub_right hne _
  rw [restrictInitial_eq hy, View.restricted_eq hp.network hcarries hmin hne hmax, if_neg hfilled]
  rfl

/-- Cutting the shared domain of a variable keeps the variable within the range. -/
theorem cutTo_restricts (hp : p.Sound) (hy : p.network.views.get? y = some v) (r : Interval) :
    p.Restricts v r (p.cutTo v.domain (v.back r)) := by
  have hlt : v.domain.index < p.network.initial.size :=
    (hp.network.carried v (Keyed.mem_of_get? hy)).has
  have hlt' : v.domain.index < p.current.size := by
    rw [hp.inside.size_eq]
    exact hlt
  have hvalue {as : List Int} :
      (v.back r).min ≤ v.domain.valueIn as ∧ v.domain.valueIn as ≤ (v.back r).max ↔
        r.min ≤ v.value as ∧ v.value as ≤ r.max := by
    simp only [View.value, View.back]
    omega
  refine ⟨rfl, rfl, ?_, ?_⟩
  · intro as
    rw [← hvalue]
    exact mem_modify_tightenTo_iff hlt
  · intro as
    rw [← hvalue]
    exact mem_modify_tightenTo_iff hlt'

/-! ### Dividing a problem -/

/-- The problems search the same constraints, and each assignment is in just one of them. -/
structure Problem.Divides (p : Problem) (ps : List Problem) : Prop where
  built : ∀ q ∈ ps, Built q
  views : ∀ q ∈ ps, q.network.views = p.network.views
  propagators : ∀ q ∈ ps, q.network.propagators = p.network.propagators
  initial : ∀ {as : List Int}, Mem as p.network.initial.toList ↔
    ∃ q ∈ ps, Mem as q.network.initial.toList
  current : ∀ {as : List Int}, Mem as p.current.toList ↔ ∃ q ∈ ps, Mem as q.current.toList
  apart : ps.Pairwise fun q q' => q.network.initial.Apart q'.network.initial

/-- Each member on the left has a partner on the right. -/
theorem forall₂_exists_right {α β : Type} {R : α → β → Prop} {xs : List α} {ys : List β}
    (h : List.Forall₂ R xs ys) : ∀ x ∈ xs, ∃ y ∈ ys, R x y := by
  induction h with
  | nil => exact List.forall_mem_nil _
  | @cons x y xs ys hxy _ ih =>
    refine List.forall_mem_cons.2 ⟨⟨y, List.mem_cons_self, hxy⟩, ?_⟩
    intro x' hx'
    obtain ⟨y', hy', hR⟩ := ih x' hx'
    exact ⟨y', List.mem_cons_of_mem y hy', hR⟩

/-- What holds of any two members on the left holds of their partners. -/
theorem pairwise_of_forall₂ {α β : Type} {R : α → β → Prop} {S : α → α → Prop} {T : β → β → Prop}
    {xs : List α} {ys : List β} (h : List.Forall₂ R xs ys) (hxs : xs.Pairwise S)
    (hT : ∀ {x x' y y'}, R x y → R x' y' → S x x' → T y y') : ys.Pairwise T := by
  induction h with
  | nil => exact .nil
  | @cons x y xs ys hxy hrest ih =>
    obtain ⟨hx, hxs⟩ := List.pairwise_cons.1 hxs
    refine List.pairwise_cons.2 ⟨?_, ih hxs⟩
    intro y' hy'
    obtain ⟨x', hx', hxy'⟩ := forall₂_exists_right hrest.flip y' hy'
    exact hT hxy hxy' (hx x' hx')

namespace Division

theorem of_eq_ok {workers : Nat} : Division.of p y workers = .ok d ↔
    0 < workers ∧ y.index < p.numVariables ∧ d = ⟨p, y, workers⟩ := by
  unfold Division.of
  by_cases hw : workers = 0
  · simp [hw]
  · by_cases hy : y.index < p.numVariables
    · rw [if_neg hw, if_pos hy]
      constructor
      · intro h
        exact ⟨Nat.pos_of_ne_zero hw, hy, (Except.ok.inj h).symm⟩
      · rintro ⟨-, -, rfl⟩
        rfl
    · simp [hw, hy]

/-- Parts in ascending ranges have no assignment in common. -/
theorem pairwise_apart {ps : List Problem} (h : List.Forall₂ (fun r q => p.Restricts v r q) rs ps)
    (hrs : rs.Pairwise fun r r' => r.max < r'.min) :
    ps.Pairwise fun q q' => q.network.initial.Apart q'.network.initial := by
  refine pairwise_of_forall₂ h hrs ?_
  intro r r' q q' hq hq' hlt as hm hm'
  have hlow := (hq.initial.1 hm).2
  have hhigh := (hq'.initial.1 hm').2
  omega

/-- Parts that keep a variable within ranges divide the problem if the ranges do. -/
theorem divides_of_restricts {ps : List Problem} (hin : p.current.Inside p.network.initial)
    (hbuilt : ∀ q ∈ ps, Built q) (h : List.Forall₂ (fun r q => p.Restricts v r q) rs ps)
    (hcovers : ∀ {as : List Int}, Mem as p.network.initial.toList →
      ∃ r ∈ rs, r.min ≤ v.value as ∧ v.value as ≤ r.max)
    (hrs : rs.Pairwise fun r r' => r.max < r'.min) : p.Divides ps := by
  have hpart := forall₂_exists_right h.flip
  refine ⟨hbuilt, ?_, ?_, ?_, ?_, pairwise_apart h hrs⟩
  · intro q hq
    obtain ⟨r, -, hr⟩ := hpart q hq
    exact hr.views
  · intro q hq
    obtain ⟨r, -, hr⟩ := hpart q hq
    exact hr.propagators
  · intro as
    constructor
    · intro hm
      obtain ⟨r, hr, hvalue⟩ := hcovers hm
      obtain ⟨q, hq, hrestricts⟩ := forall₂_exists_right h r hr
      exact ⟨q, hq, hrestricts.initial.2 ⟨hm, hvalue⟩⟩
    · rintro ⟨q, hq, hm⟩
      obtain ⟨r, -, hr⟩ := hpart q hq
      exact (hr.initial.1 hm).1
  · intro as
    constructor
    · intro hm
      obtain ⟨r, hr, hvalue⟩ := hcovers (Box.mem_of_inside hm hin)
      obtain ⟨q, hq, hrestricts⟩ := forall₂_exists_right h r hr
      exact ⟨q, hq, hrestricts.current.2 ⟨hm, hvalue⟩⟩
    · rintro ⟨q, hq, hm⟩
      obtain ⟨r, -, hr⟩ := hpart q hq
      exact (hr.current.1 hm).1

theorem ranges_eq {workers : Nat} (hd : Division.of p y workers = .ok d)
    (hv : p.network.views.get? y = some v) :
    d.ranges = (v.read p.network.initial).partition workers := by
  obtain ⟨-, -, rfl⟩ := of_eq_ok.1 hd
  exact bind_of_ok (Keyed.get_eq_ok.2 hv)

/-- Each worker gets the problem with the shared domain cut to its range. -/
theorem parts_eq {workers : Nat} (hp : Built p) (hd : Division.of p y workers = .ok d)
    (hv : p.network.views.get? y = some v)
    (hwithin : ∀ r ∈ rs, (v.read p.network.initial).min ≤ r.min ∧ r.min ≤ r.max ∧
      r.max ≤ (v.read p.network.initial).max) :
    d.parts rs = .ok (rs.map fun r => p.cutTo v.domain (v.back r)) ∧
      ∀ r ∈ rs, Built (p.cutTo v.domain (v.back r)) := by
  obtain ⟨-, -, rfl⟩ := of_eq_ok.1 hd
  have heach : ∀ r ∈ rs, p.restrictInitial y r.min r.max = .ok (p.cutTo v.domain (v.back r)) := by
    intro r hr
    obtain ⟨hmin, hfilled, hmax⟩ := hwithin r hr
    exact restrictInitial_range hp.sound hv hmin hfilled hmax
  refine ⟨?_, fun r hr => hp.restrictInitial (heach r hr)⟩
  rw [Division.parts, mapM_of_ok heach]
  rfl

/-- **A problem can be divided along each of its variables**, whatever its offset. -/
theorem exists_parts {workers : Nat} (hp : Built p) (hd : Division.of p y workers = .ok d) :
    ∃ rs ps, d.ranges = .ok rs ∧ d.parts rs = .ok ps ∧ rs.length = ps.length ∧ p.Divides ps := by
  obtain ⟨hworkers, hy, -⟩ := of_eq_ok.1 hd
  have hsound := hp.sound
  obtain ⟨v, hv⟩ : ∃ v, p.network.views.get? y = some v := by
    rw [Keyed.get?_eq_getElem?]
    exact ⟨_, List.getElem?_eq_getElem hy⟩
  have hread := (hsound.network.carried v (Keyed.mem_of_get? hv)).read_initial
  let range := v.read p.network.initial
  have hvalue {as : List Int} (hm : Mem as p.network.initial.toList) :
      range.min ≤ v.value as ∧ v.value as ≤ range.max := by
    have hbounds := Box.mem_bounds hm v.domain
    simp only [range, hread, View.value]
    omega
  obtain ⟨rs, hrs, hwithin, hcovers, hascending⟩ :=
    partition_covers (View.read_fits v p.network.initial) hworkers
  obtain ⟨hps, hbuilt⟩ := parts_eq hp hd hv hwithin
  refine ⟨rs, _, (ranges_eq hd hv).trans hrs, hps, (List.length_map _).symm, ?_⟩
  refine divides_of_restricts hsound.inside (List.forall_mem_map.2 hbuilt)
    (List.forall₂_map_right_iff.2 (List.forall₂_same.2 fun r _ => cutTo_restricts hsound hv r)) ?_
    hascending
  intro as hm
  obtain ⟨hmin, hmax⟩ := hvalue hm
  exact hcovers hmin hmax

end Division
end BoundsSolver
