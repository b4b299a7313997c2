/-
# The model of Golomb rulers is exact

A solution lists the distances of all pairs of marks (`Measures`).  Its marks are the distances
to the first one, and what is posted says that the other distances are their differences, that
no two distances are the same, and that the ruler is oriented.  The least values of the
distances and the room that they have to leave exclude nothing: they hold of every Golomb ruler.
-/

import BoundsSolver.Proofs.Model.Distances
import BoundsSolver.Proofs.Model.Ruler

namespace BoundsSolver

variable {n i j : Nat} {a : Fin n → Int} {as bs : List Int}

namespace GolombRuler

/-! ### Assignments as distances -/

/-- The distance of two marks in an assignment. -/
def distanceIn (n : Nat) (as : List Int) (i j : Nat) : Int := as.getD (distanceId n i j).index 0

/-- The assignment lists the distances between the marks. -/
structure Measures (a : Fin n → Int) (as : List Int) : Prop where
  length : as.length = (pairs n).length
  distance : ∀ {i j}, i < j → j < n → distanceIn n as i j = mark a j - mark a i

/-- The distances between the marks of a ruler. -/
def distances (a : Fin n → Int) : List Int := (pairs n).map fun (i, j) => mark a j - mark a i

theorem measures_distances (a : Fin n → Int) : Measures a (distances a) where
  length := List.length_map _
  distance hij hj := by
    rw [distanceIn, distances, List.getD_eq_getElem?_getD, List.getElem?_map, getElem?_pairs hij hj]
    rfl

theorem Measures.unique (h : Measures a as) (h' : Measures a bs) : as = bs := by
  refine List.ext_getElem (h.length.trans h'.length.symm) fun k hk hk' => ?_
  obtain ⟨i, j, hij, hj, rfl⟩ := exists_distanceId (h.length ▸ hk)
  have hsame := (h.distance hij hj).trans (h'.distance hij hj).symm
  simpa [distanceIn, hk, hk'] using hsame

/-- Distances are in the intervals of the model if they are neither too short nor too long. -/
theorem mem_intervals_iff (hlen : as.length = (pairs n).length) :
    Mem as (intervals n) ↔ ∀ i j, i < j → j < n →
      leastLength (j - i) ≤ distanceIn n as i j ∧ distanceIn n as i j ≤ (n * n : Int) := by
  have hinterval {i j : Nat} (hij : i < j) (hj : j < n) :
      (intervals n)[(distanceId n i j).index]? = some ⟨leastLength (j - i), n * n⟩ := by
    rw [intervals, List.getElem?_map, getElem?_pairs hij hj]
    rfl
  have hvalue {k : Nat} (hk : k < as.length) : as[k]? = some (as.getD k 0) := by
    simp [hk]
  rw [mem_iff_getElem?]
  constructor
  · rintro ⟨-, hall⟩ i j hij hj
    exact hall (hvalue (hlen ▸ distanceId_lt hij hj)) (hinterval hij hj)
  · intro hall
    refine ⟨hlen.trans (List.length_map _).symm, fun {k v b} hv hb => ?_⟩
    have hk : k < as.length := (List.getElem?_eq_some_iff.1 hv).1
    obtain ⟨i, j, hij, hj, rfl⟩ := exists_distanceId (hlen ▸ hk)
    obtain rfl := Option.some.inj ((hinterval hij hj).symm.trans hb)
    obtain rfl := Option.some.inj ((hvalue hk).symm.trans hv)
    exact hall i j hij hj

/-! ### What is posted -/

theorem differences_iff : (∀ t ∈ differences n, t.Holds as) ↔ ∀ i j, 0 < i → i < j → j < n →
    distanceIn n as i j + distanceIn n as 0 i = distanceIn n as 0 j := by
  have hposting (i j : Nat) :
      Posting.Holds ⟨.affineEq, [distanceId n i j, distanceId n 0 i, distanceId n 0 j],
        [1, 1, -1, 0]⟩ as ↔
      distanceIn n as i j + distanceIn n as 0 i = distanceIn n as 0 j := by
    show 1 * distanceIn n as i j + (1 * distanceIn n as 0 i + (-1 * distanceIn n as 0 j + 0)) = 0 ↔ _
    omega
  rw [differences, List.forall_mem_map]
  constructor
  · intro h i j hi hij hj
    refine (hposting i j).1 (h (i, j) (List.mem_filter.2 ⟨mem_pairs.2 ⟨hij, hj⟩, ?_⟩))
    exact decide_eq_true (Nat.ne_of_gt hi)
  · rintro h ⟨i, j⟩ hmem
    obtain ⟨hpair, hi⟩ := List.mem_filter.1 hmem
    obtain ⟨hij, hj⟩ := mem_pairs.1 hpair
    exact (hposting i j).2 (h i j (Nat.pos_of_ne_zero (of_decide_eq_true hi)) hij hj)

theorem distinct_iff : (distinct n).Holds as ↔ ∀ i j k l, i < j → j < n → k < l → l < n →
    distanceIn n as i j = distanceIn n as k l → i = k ∧ j = l := by
  have hvalues : (distinct n).Holds as ↔ ((pairs n).map fun (i, j) => distanceIn n as i j).Nodup := by
    show (((pairs n).map _).map _).Nodup ↔ _
    rw [List.map_map]
    rfl
  rw [hvalues, List.nodup_map_iff_inj_on (nodup_pairs n)]
  constructor
  · intro h i j k l hij hj hkl hl heq
    exact Prod.mk.inj (h (i, j) (mem_pairs.2 ⟨hij, hj⟩) (k, l) (mem_pairs.2 ⟨hkl, hl⟩) heq)
  · rintro h ⟨i, j⟩ hmem ⟨k, l⟩ hmem' heq
    obtain ⟨hij, hj⟩ := mem_pairs.1 hmem
    obtain ⟨hkl, hl⟩ := mem_pairs.1 hmem'
    obtain ⟨rfl, rfl⟩ := h i j k l hij hj hkl hl heq
    rfl

theorem orientation_iff : (∀ t ∈ orientation n, t.Holds as) ↔
    (3 ≤ n → distanceIn n as 0 1 < distanceIn n as (n - 2) (n - 1)) := by
  unfold orientation
  split
  · rename_i h3
    rw [List.forall_mem_singleton]
    show 1 * distanceIn n as 0 1 + (-1 * distanceIn n as (n - 2) (n - 1) + 0) ≤ -1 ↔ _
    constructor
    · intro h _
      omega
    · intro h
      have := h h3
      omega
  · rename_i h3
    exact ⟨fun _ h => absurd h h3, fun _ _ h => absurd h List.not_mem_nil⟩

theorem rooms_iff : (∀ t ∈ rooms n, t.Holds as) ↔ ∀ i j, i < j → j < n → j - i ≠ n - 1 →
    distanceIn n as i j + leastLength (n - 1 - (j - i)) ≤ distanceIn n as 0 (n - 1) := by
  have hposting (i j : Nat) :
      Posting.Holds ⟨.affineLeq, [distanceId n i j, lengthId n],
        [1, -1, -leastLength (n - 1 - (j - i))]⟩ as ↔
      distanceIn n as i j + leastLength (n - 1 - (j - i)) ≤ distanceIn n as 0 (n - 1) := by
    show 1 * distanceIn n as i j + (-1 * distanceIn n as 0 (n - 1) + 0) ≤
      -(leastLength (n - 1 - (j - i)) : Int) ↔ _
    omega
  rw [rooms, List.forall_mem_map]
  constructor
  · intro h i j hij hj hne
    exact (hposting i j).1 (h (i, j) (List.mem_filter.2 ⟨mem_pairs.2 ⟨hij, hj⟩, decide_eq_true hne⟩))
  · rintro h ⟨i, j⟩ hmem
    obtain ⟨hpair, hne⟩ := List.mem_filter.1 hmem
    obtain ⟨hij, hj⟩ := mem_pairs.1 hpair
    exact (hposting i j).2 (h i j hij hj (of_decide_eq_true hne))

/-- What is posted for a model. -/
theorem forall_postings_iff : (∀ t ∈ postings n, t.Holds as) ↔
    (∀ t ∈ differences n, t.Holds as) ∧ (distinct n).Holds as ∧
      (∀ t ∈ orientation n, t.Holds as) ∧ ∀ t ∈ rooms n, t.Holds as := by
  simp only [postings, List.forall_mem_append, List.forall_mem_singleton, and_assoc]

/-! ### Solutions -/

/-- The positions of the marks in an assignment. -/
def marksIn (n : Nat) (as : List Int) (k : Fin n) : Int :=
  if k.val = 0 then 0 else distanceIn n as 0 k

theorem mark_marksIn_zero (hn : 0 < n) : mark (marksIn n as) 0 = 0 := by
  rw [mark_of_lt hn]
  rfl

theorem mark_marksIn {k : Nat} (hpos : 0 < k) (hk : k < n) :
    mark (marksIn n as) k = distanceIn n as 0 k := by
  rw [mark_of_lt hk]
  exact if_neg (Nat.ne_of_gt hpos)

/-- Distances that are differences are those between the marks. -/
theorem measures_marksIn (hlen : as.length = (pairs n).length)
    (h : ∀ i j, 0 < i → i < j → j < n →
      distanceIn n as i j + distanceIn n as 0 i = distanceIn n as 0 j) :
    Measures (marksIn n as) as where
  length := hlen
  distance {i j} hij hj := by
    rw [mark_marksIn (Nat.zero_lt_of_lt hij) hj]
    rcases Nat.eq_zero_or_pos i with rfl | hi
    · rw [mark_marksIn_zero (hij.trans hj), sub_zero]
    · rw [mark_marksIn hi (hij.trans hj)]
      have := h i j hi hij hj
      omega

theorem leastLength_pos {m : Nat} (hm : 0 < m) : 0 < leastLength m := by
  obtain ⟨k, rfl⟩ := Nat.exists_eq_add_of_lt hm
  rw [Nat.zero_add, leastLength_succ]
  omega

/-- Distances that satisfy what is posted are those of an oriented ruler. -/
theorem exists_ruler (hn : 2 ≤ n) (hmem : Mem as (intervals n))
    (hposted : ∀ t ∈ postings n, t.Holds as) :
    ∃ a : Fin n → Int, IsGolomb a ∧ Oriented a ∧ mark a (n - 1) ≤ (n * n : Int) ∧ Measures a as := by
  rw [forall_postings_iff, differences_iff, distinct_iff, orientation_iff] at hposted
  obtain ⟨hdifferences, hdistinct, horientation, -⟩ := hposted
  have hlen : as.length = (pairs n).length := hmem.length_eq.trans (List.length_map _)
  have hbounds := (mem_intervals_iff hlen).1 hmem
  have hmeasures := measures_marksIn hlen hdifferences
  have hmark (k : Fin n) : marksIn n as k = mark (marksIn n as) k := (mark_of_lt k.isLt).symm
  refine ⟨marksIn n as, ⟨fun i hi => if_pos hi, fun i j hij => ?_, fun {i j k l} hij hkl heq => ?_⟩,
    fun h3 => ?_, ?_, hmeasures⟩
  · have hdistance := hmeasures.distance hij j.isLt
    have hleast := (hbounds i j hij j.isLt).1
    have hpos := leastLength_pos (Nat.sub_pos_of_lt hij)
    rw [hmark, hmark]
    omega
  · rw [hmark, hmark, hmark, hmark, ← hmeasures.distance hij j.isLt,
      ← hmeasures.distance hkl l.isLt] at heq
    obtain ⟨hik, hjl⟩ := hdistinct i j k l hij j.isLt hkl l.isLt heq
    exact ⟨Fin.ext hik, Fin.ext hjl⟩
  · have hshorter := horientation h3
    rwa [hmeasures.distance (by omega) (by omega), hmeasures.distance (by omega) (by omega),
      show n - 1 = n - 2 + 1 by omega] at hshorter
  · rw [mark_marksIn (by omega) (by omega)]
    exact (hbounds 0 (n - 1) (by omega) (by omega)).2

/-- The distances of an oriented ruler are in the intervals of the model, if it is not too long. -/
theorem Measures.mem_intervals (h : Measures a as) (ha : IsGolomb a)
    (hlength : mark a (n - 1) ≤ (n * n : Int)) : Mem as (intervals n) := by
  refine (mem_intervals_iff h.length).2 fun i j hij hj => ?_
  rw [h.distance hij hj]
  have hroom := ha.distance_add_leastLength_le hij.le hj
  exact ⟨ha.leastLength_le_distance hij.le hj, by omega⟩

/-- They satisfy what is posted, also what is there only to shorten the search. -/
theorem Measures.holds_postings (h : Measures a as) (hn : 2 ≤ n) (ha : IsGolomb a)
    (horiented : Oriented a) : ∀ t ∈ postings n, t.Holds as := by
  rw [forall_postings_iff, differences_iff, distinct_iff, orientation_iff, rooms_iff]
  refine ⟨fun i j hi hij hj => ?_, fun i j k l hij hj hkl hl heq => ?_, fun h3 => ?_,
    fun i j hij hj _ => ?_⟩
  · rw [h.distance hij hj, h.distance hi (hij.trans hj), h.distance (hi.trans hij) hj]
    omega
  · rw [h.distance hij hj, h.distance hkl hl] at heq
    exact ha.mark_distinct hij hj hkl hl heq
  · have hshorter := horiented h3
    rw [h.distance (by omega) (by omega), h.distance (by omega) (by omega),
      show n - 1 = n - 2 + 1 by omega]
    exact hshorter
  · rw [h.distance hij hj, h.distance (by omega) (by omega), ha.mark_zero (by omega), sub_zero]
    exact ha.distance_add_leastLength_le hij.le hj

/-! ### The model -/

theorem accepts_postings (hn : 2 ≤ n) :
    ∀ t ∈ postings n, (Problem.ofIntervals (intervals n)).Accepts t := by
  have hknown {i j : Nat} (hij : i < j) (hj : j < n) :
      (distanceId n i j).index < (Problem.ofIntervals (intervals n)).numVariables := by
    rw [Problem.numVariables_ofIntervals, intervals, List.length_map]
    exact distanceId_lt hij hj
  intro t ht
  rw [postings, List.mem_append, List.mem_append, List.mem_append, List.mem_singleton] at ht
  rcases ht with ((ht | rfl) | ht) | ht
  · obtain ⟨⟨i, j⟩, hmem, rfl⟩ := List.mem_map.1 ht
    obtain ⟨hpair, hi⟩ := List.mem_filter.1 hmem
    obtain ⟨hij, hj⟩ := mem_pairs.1 hpair
    have hi : 0 < i := Nat.pos_of_ne_zero (of_decide_eq_true hi)
    refine Problem.accepts_affine (.inl rfl) (List.cons_ne_nil _ _) rfl ?_
    simp only [List.forall_mem_cons]
    exact ⟨hknown hij hj, hknown hi (hij.trans hj), hknown (hi.trans hij) hj,
      fun _ h => absurd h List.not_mem_nil⟩
  · refine Problem.accepts_allDifferent (List.ne_nil_of_mem
      (List.mem_map_of_mem (mem_pairs.2 ⟨Nat.one_pos, hn⟩))) fun x hx => ?_
    obtain ⟨⟨i, j⟩, hmem, rfl⟩ := List.mem_map.1 hx
    obtain ⟨hij, hj⟩ := mem_pairs.1 hmem
    exact hknown hij hj
  · unfold orientation at ht
    split at ht
    · obtain rfl := List.mem_singleton.1 ht
      refine Problem.accepts_affine (.inr rfl) (List.cons_ne_nil _ _) rfl ?_
      simp only [List.forall_mem_cons]
      exact ⟨hknown Nat.one_pos (by omega), hknown (by omega) (by omega),
        fun _ h => absurd h List.not_mem_nil⟩
    · cases ht
  · obtain ⟨⟨i, j⟩, hmem, rfl⟩ := List.mem_map.1 ht
    obtain ⟨hij, hj⟩ := mem_pairs.1 (List.mem_filter.1 hmem).1
    refine Problem.accepts_affine (.inr rfl) (List.cons_ne_nil _ _) rfl ?_
    simp only [List.forall_mem_cons]
    exact ⟨hknown hij hj, hknown (by omega) (by omega), fun _ h => absurd h List.not_mem_nil⟩

theorem exists_ofMarks (hn : 2 ≤ n) (hfit : Width.value.Fits (n * n : Int)) : ∃ q,
    (Problem.ofIntervals (intervals n)).post (postings n) = .ok q ∧ ofMarks n = .ok ⟨n, q⟩ := by
  obtain ⟨q, hq⟩ := post_of_accepted (accepts_postings hn)
  have hsquare : (n : Int) ≤ n * n := by exact_mod_cast Nat.le_mul_self n
  have hparameter : ModelKind.golombRuler.parameter n = .ok n := by
    refine parameter_eq_ok_iff.2 ⟨⟨?_, hsquare.trans hfit.2⟩, rfl⟩
    simp only [Width.value]
    omega
  refine ⟨q, hq, ?_⟩
  unfold ofMarks
  dsimp only
  rw [if_neg (Nat.not_lt.2 hn)]
  refine (bind_of_ok hparameter).trans ?_
  rw [if_neg (not_not.2 hfit)]
  exact bind_of_ok (mapError_eq_ok_iff.2 hq)

section Posted

variable {q : Problem} (hq : (Problem.ofIntervals (intervals n)).post (postings n) = .ok q)

include hq

/-- The solutions are handed out as they are. -/
theorem valuesOf_model (hlen : as.length = (pairs n).length) : q.network.valuesOf as = as := by
  rw [valuesOf_post hq, valuesOf_ofIntervals]
  exact hlen.trans (List.length_map _).symm

theorem numVariables_model : q.numVariables = (pairs n).length := by
  show q.network.views.size = _
  rw [(post_agrees hq).views]
  exact (Problem.numVariables_ofIntervals _).trans (List.length_map _)

theorem built_model (hn : n * n ≤ 2147483647) : Built q := by
  refine (Built.ofIntervals fun b hb => ?_).post hq
  obtain ⟨⟨i, j⟩, hmem, rfl⟩ := List.mem_map.1 hb
  obtain ⟨hij, hj⟩ := mem_pairs.1 hmem
  have hleast : leastLength (j - i) ≤ 2147483647 :=
    (Nat.div_le_self _ _).trans (segments_le hn (by omega))
  have hsquare : (n * n : Int) = (n * n : Nat) := (Nat.cast_mul n n).symm
  simp only [Interval.Fits, Width.Fits, Width.value, hsquare]
  omega

/-- **The solutions of a model are its oriented rulers** that are not too long. -/
theorem solves_iff (hn : 2 ≤ n) : q.network.Solves as ↔
    ∃ a : Fin n → Int, IsGolomb a ∧ Oriented a ∧ mark a (n - 1) ≤ (n * n : Int) ∧ Measures a as := by
  rw [solves_post_iff hq, solves_ofIntervals_iff]
  constructor
  · rintro ⟨hmem, hposted⟩
    rw [valuesOf_ofIntervals hmem.length_eq] at hposted
    exact exists_ruler hn hmem hposted
  · rintro ⟨a, ha, horiented, hlength, h⟩
    have hmem := h.mem_intervals ha hlength
    rw [valuesOf_ofIntervals hmem.length_eq]
    exact ⟨hmem, h.holds_postings hn ha horiented⟩

theorem Measures.valueIn_eq (h : Measures a as) (hij : i < j) (hj : j < n) :
    (distanceId n i j).valueIn (q.network.valuesOf as) = .ok (mark a j - mark a i) := by
  rw [valuesOf_model hq h.length, valueIn_of_lt (h.length ▸ distanceId_lt hij hj)]
  exact congrArg Except.ok (h.distance hij hj)

theorem Measures.positions_eq (h : Measures a as) (ha : IsGolomb a) (hn : 0 < n) :
    positions ⟨n, q⟩ (q.network.valuesOf as) = .ok (List.ofFn a) := by
  have hrest : (List.range' 1 (n - 1)).mapM
      (fun j => (distanceId n 0 j).valueIn (q.network.valuesOf as)) =
        .ok ((List.range' 1 (n - 1)).map (mark a)) := by
    refine mapM_of_ok fun j hj => ?_
    obtain ⟨hpos, hlt⟩ := List.mem_range'_1.1 hj
    rw [h.valueIn_eq hq hpos (by omega), ha.mark_zero hn, sub_zero]
  have hmarks : List.ofFn a = (0 : Int) :: (List.range' 1 (n - 1)).map (mark a) := by
    have hrange : List.range n = 0 :: List.range' 1 (n - 1) := by
      obtain ⟨k, rfl⟩ : ∃ k, n = k + 1 := ⟨n - 1, (Nat.sub_add_cancel hn).symm⟩
      rw [List.range_eq_range', List.range'_succ, Nat.add_sub_cancel, Nat.zero_add]
    rw [← map_range_eq_ofFn fun k => mark_of_lt k.isLt, hrange, List.map_cons, ha.mark_zero hn]
  rw [hmarks]
  exact bind_of_ok hrest

end Posted

/-- The lengths of the solutions are those of all Golomb rulers that are not too long. -/
theorem lengths_model {q : Problem}
    (hq : (Problem.ofIntervals (intervals n)).post (postings n) = .ok q) (hn : 2 ≤ n) :
    {L | ∃ as, q.network.Solves as ∧ (lengthId n).valueIn (q.network.valuesOf as) = .ok L} =
      {L | ∃ a : Fin n → Int, IsGolomb a ∧ a (lastMark hn) = L ∧ L ≤ (n * n : Int)} := by
  have hlast (a : Fin n → Int) : mark a (n - 1) = a (lastMark hn) := mark_of_lt _
  have hlength {a : Fin n → Int} {as : List Int} (ha : IsGolomb a) (h : Measures a as) :
      (lengthId n).valueIn (q.network.valuesOf as) = .ok (a (lastMark hn)) := by
    rw [lengthId, h.valueIn_eq hq (by omega) (by omega), ha.mark_zero (by omega), sub_zero, hlast]
  refine Set.ext fun L => ⟨?_, ?_⟩
  · rintro ⟨as, has, hL⟩
    obtain ⟨a, ha, -, hle, hmeasures⟩ := (solves_iff hq hn).1 has
    obtain rfl := Except.ok.inj ((hlength ha hmeasures).symm.trans hL)
    exact ⟨a, ha, rfl, hlast a ▸ hle⟩
  · rintro ⟨a, ha, rfl, hle⟩
    -- Of the ruler and its reflection the model has one, and both have the same length.
    obtain ⟨b, hb, horiented, hsame⟩ : ∃ b : Fin n → Int, IsGolomb b ∧ Oriented b ∧
        b (lastMark hn) = a (lastMark hn) := by
      rcases ha.oriented_or_reflection hn with h | h
      · exact ⟨a, ha, h, rfl⟩
      · exact ⟨_, ha.reflected hn, h,
          (hlast _).symm.trans ((mark_reflection_last hn ha).trans (hlast a))⟩
    have hmeasures := measures_distances b
    refine ⟨_, (solves_iff hq hn).2 ⟨b, hb, horiented, ?_, hmeasures⟩, ?_⟩
    · rw [hlast, hsame]
      exact hle
    · rw [hlength hb hmeasures, hsame]

end GolombRuler

open GolombRuler in
/-- **The model of Golomb rulers is exact up to reflection.**  For at least two marks whose square
is a value the model exists, and building it meets no number that is too large.  The distances
of the pairs of marks are its variables, one for each.

The marks of a solution are a Golomb ruler and its distances are those of the marks.  The other
way round every Golomb ruler that is no longer than the square and has its shorter end segment
first is that of exactly one solution.  Reflecting the others does not change their lengths, so
that the least length of a solution is that of all Golomb rulers that are no longer than the
square. -/
theorem golombRuler_exact (hn : 2 ≤ n) (hfit : Width.value.Fits (n * n : Int)) :
    ∃ m, boundedModel n = .ok (.ok m) ∧ ofMarks n = .ok m ∧ Built m.problem ∧
      (∀ i j, i < j → j < n → ∃ x, boundedDistance n i j = .ok x ∧ m.distance i j = .ok x ∧
        x.index < m.problem.numVariables) ∧
      (∀ x : VariableId, x.index < m.problem.numVariables →
        ∃! p : Nat × Nat, p.1 < p.2 ∧ p.2 < n ∧ m.distance p.1 p.2 = .ok x) ∧
      (∀ as, m.problem.network.Solves as → ∃ a : Fin n → Int, IsGolomb a ∧
        m.positions (m.problem.network.valuesOf as) = .ok (List.ofFn a) ∧
        ∀ i j : Fin n, i < j → ∃ x, m.distance i j = .ok x ∧
          x.valueIn (m.problem.network.valuesOf as) = .ok (a j - a i)) ∧
      (∀ a : Fin n → Int, IsGolomb a → a (lastMark hn) ≤ (n * n : Int) → Oriented a →
        ∃! as, m.problem.network.Solves as ∧
          m.positions (m.problem.network.valuesOf as) = .ok (List.ofFn a)) ∧
      ∀ L, IsLeast {L | ∃ as, m.problem.network.Solves as ∧
          m.length.valueIn (m.problem.network.valuesOf as) = .ok L} L ↔
        IsLeast {L | ∃ a : Fin n → Int, IsGolomb a ∧ a (lastMark hn) = L ∧ L ≤ (n * n : Int)} L := by
  obtain ⟨q, hq, hmodel⟩ := exists_ofMarks hn hfit
  have hsquare : (n * n : Int) ≤ 2147483647 := hfit.2
  have hsquare : n * n ≤ 2147483647 := by exact_mod_cast hsquare
  have hdistance {i j : Nat} (hij : i < j) (hj : j < n) :
      GolombRuler.distance ⟨n, q⟩ i j = .ok (distanceId n i j) := if_pos ⟨hij, hj⟩
  refine ⟨⟨n, q⟩, (boundedModel_eq n).trans (congrArg _ hmodel), hmodel, built_model hq hsquare,
    fun i j hij hj => ?_, fun x hx => ?_, fun as has => ?_, fun a ha hle horiented => ?_, fun L => ?_⟩
  · refine ⟨_, boundedDistance_eq hsquare hij hj, hdistance hij hj, ?_⟩
    rw [numVariables_model hq]
    exact distanceId_lt hij hj
  · rw [numVariables_model hq] at hx
    obtain ⟨i, j, hij, hj, hindex⟩ := exists_distanceId hx
    obtain rfl : x = distanceId n i j := congrArg VariableId.mk hindex
    refine ⟨(i, j), ⟨hij, hj, hdistance hij hj⟩, ?_⟩
    rintro ⟨k, l⟩ ⟨hkl, hl, heq⟩
    have hsame := Except.ok.inj ((hdistance hkl hl).symm.trans heq)
    obtain ⟨rfl, rfl⟩ := distanceId_inj hkl hl hij hj hsame
    rfl
  · obtain ⟨a, ha, -, -, hmeasures⟩ := (solves_iff hq hn).1 has
    refine ⟨a, ha, hmeasures.positions_eq hq ha (by omega), fun i j hij => ?_⟩
    have hi : mark a i = a i := mark_of_lt i.isLt
    have hj : mark a j = a j := mark_of_lt j.isLt
    refine ⟨_, hdistance hij j.isLt, ?_⟩
    rw [← hi, ← hj]
    exact hmeasures.valueIn_eq hq hij j.isLt
  · have hmeasures := measures_distances a
    have hlast : mark a (n - 1) = a (lastMark hn) := mark_of_lt _
    refine ⟨_, ⟨(solves_iff hq hn).2 ⟨a, ha, horiented, hlast ▸ hle, hmeasures⟩,
      hmeasures.positions_eq hq ha (by omega)⟩, ?_⟩
    rintro bs ⟨hbs, hpositions⟩
    obtain ⟨b, hb, -, -, hmeasures'⟩ := (solves_iff hq hn).1 hbs
    have hsame := (hmeasures'.positions_eq hq hb (by omega)).symm.trans hpositions
    obtain rfl : b = a := List.ofFn_injective (Except.ok.inj hsame)
    exact hmeasures'.unique hmeasures
  · show IsLeast {L | ∃ as, q.network.Solves as ∧
      (lengthId n).valueIn (q.network.valuesOf as) = .ok L} L ↔ _
    rw [lengths_model hq hn]

open GolombRuler in
/-- The shortest ruler with four marks is that of one solution. -/
theorem golombRuler_exact_four : ∃ m, boundedModel 4 = .ok (.ok m) ∧
    ∃! as, m.problem.network.Solves as ∧
      m.positions (m.problem.network.valuesOf as) = .ok [0, 1, 4, 6] := by
  obtain ⟨m, hm, -, -, -, -, -, hone, -⟩ :=
    golombRuler_exact (n := 4) (by decide) (by decide)
  have hruler : IsGolomb ![0, 1, 4, 6] := by
    refine ⟨by decide, fun i j => ?_, fun {i j k l} => ?_⟩
    · revert i j
      decide
    · revert i j k l
      decide
  exact ⟨m, hm, hone ![0, 1, 4, 6] hruler (by decide) fun _ => by decide⟩

end BoundsSolver
