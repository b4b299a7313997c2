/-
# The arithmetic of the model of Golomb rulers

The distances are numbered row by row in the triangle of pairs (`getElem?_pairs`), and each of
these numbers belongs to one distance.

The model computes the numbers, intervals and parameters exactly.  A program does so with values
and positions of limited width: `boundedModel` computes them step by step and stops at the first
result that does not fit.  It never stops (`boundedModel_eq`), since a number of marks whose
square is no value is refused before anything else is computed.
-/

import Mathlib.Data.List.Nodup
import Mathlib.Tactic.Ring
import BoundsSolver.Model.GolombRuler
import BoundsSolver.Proofs.Model.Posted

namespace BoundsSolver
namespace GolombRuler

variable {n i j : Nat}

/-! ### The numbers of the distances -/

/-- The pairs with a mark as the first of the two. -/
def pairsFrom (n i : Nat) : List (Nat × Nat) :=
  (List.range' (i + 1) (n - (i + 1))).map fun j => (i, j)

/-- Before a row of the triangle come the longer ones. -/
theorem length_flatMap_pairsFrom (hi : i ≤ n) :
    ((List.range i).flatMap (pairsFrom n)).length = i * (2 * n - i - 1) / 2 := by
  refine (Nat.div_eq_of_eq_mul_right Nat.two_pos ?_).symm
  induction i with
  | zero => rw [Nat.zero_mul]; rfl
  | succ i ih =>
    obtain ⟨r, rfl⟩ := Nat.exists_eq_add_of_le hi
    have hrow : (pairsFrom (i + 1 + r) i).length = r := by
      rw [pairsFrom, List.length_map, List.length_range', Nat.add_sub_cancel_left]
    have hrows := ih (by omega)
    rw [show 2 * (i + 1 + r) - i - 1 = i + 1 + 2 * r by omega] at hrows
    rw [List.range_succ, List.flatMap_append, List.length_append, List.flatMap_singleton, hrow,
      show 2 * (i + 1 + r) - (i + 1) - 1 = i + 2 * r by omega]
    have hsplit : (i + 1) * (i + 2 * r) = i * (i + 1 + 2 * r) + 2 * r := by ring
    omega

/-- **The distances are numbered row by row.** -/
theorem getElem?_pairs (hij : i < j) (hj : j < n) :
    (pairs n)[(distanceId n i j).index]? = some (i, j) := by
  have hlen := length_flatMap_pairsFrom (hij.trans hj).le
  have hsplit : ∃ rest, pairs n = (List.range i).flatMap (pairsFrom n) ++ (pairsFrom n i ++ rest) := by
    obtain ⟨r, rfl⟩ := Nat.exists_eq_add_of_lt (hij.trans hj)
    refine ⟨((List.range r).map fun k => i + (k + 1)).flatMap (pairsFrom (i + r + 1)), ?_⟩
    rw [← List.flatMap_cons, ← List.flatMap_append]
    show (List.range (i + (r + 1))).flatMap _ = _
    rw [List.range_add, List.range_succ_eq_map, List.map_cons, List.map_map]
    rfl
  obtain ⟨rest, hsplit⟩ := hsplit
  have hrow : j - i - 1 < (pairsFrom n i).length := by
    rw [pairsFrom, List.length_map, List.length_range']
    omega
  show (pairs n)[i * (2 * n - i - 1) / 2 + (j - i - 1)]? = _
  rw [hsplit, ← hlen, List.getElem?_append_right (Nat.le_add_right _ _), Nat.add_sub_cancel_left,
    List.getElem?_append_left hrow, pairsFrom, List.getElem?_map, List.getElem?_range' (by omega)]
  simp only [Option.map_some, Nat.one_mul]
  rw [show i + 1 + (j - i - 1) = j by omega]

theorem nodup_pairs (n : Nat) : (pairs n).Nodup := by
  refine List.nodup_flatMap.2 ⟨fun i _ => ?_, ?_⟩
  · exact List.Nodup.map (fun j l h => (Prod.mk.inj h).2) List.nodup_range'
  · refine List.nodup_range.imp fun {i k} hne => ?_
    intro x hx hx'
    obtain ⟨j, -, rfl⟩ := List.mem_map.1 hx
    obtain ⟨l, -, heq⟩ := List.mem_map.1 hx'
    exact hne (Prod.mk.inj heq).1.symm

/-- Every number below that of the pairs is that of one distance. -/
theorem exists_distanceId {k : Nat} (hk : k < (pairs n).length) :
    ∃ i j, i < j ∧ j < n ∧ k = (distanceId n i j).index := by
  obtain ⟨⟨i, j⟩, hget⟩ : ∃ x, (pairs n)[k]? = some x := ⟨_, List.getElem?_eq_getElem hk⟩
  obtain ⟨hij, hj⟩ := mem_pairs.1 (List.mem_of_getElem? hget)
  have hsame := hget.trans (getElem?_pairs hij hj).symm
  exact ⟨i, j, hij, hj, (List.getElem?_inj hk (nodup_pairs n)).1 hsame⟩

theorem distanceId_lt (hij : i < j) (hj : j < n) : (distanceId n i j).index < (pairs n).length :=
  (List.getElem?_eq_some_iff.1 (getElem?_pairs hij hj)).1

theorem distanceId_inj {k l : Nat} (hij : i < j) (hj : j < n) (hkl : k < l) (hl : l < n)
    (h : distanceId n i j = distanceId n k l) : i = k ∧ j = l := by
  have hget := getElem?_pairs hij hj
  rw [h, getElem?_pairs hkl hl] at hget
  exact Prod.mk.inj (Option.some.inj hget.symm)

/-! ### Bounded arithmetic -/

/-- The least length of so many different segments, computed with values. -/
def boundedLength (segments : Int) : Checked Int := do
  let next ← Width.value.add segments 1
  let product ← Width.value.mul segments next
  Width.value.floorDiv product 2

/-- The variable of the distance between two marks, computed with positions. -/
def boundedDistance (n i j : Nat) : Checked VariableId :=
  if i < j ∧ j < n then do
    let twice ← Width.index.mul 2 n
    let rest ← Width.index.sub twice i
    let row ← Width.index.sub rest 1
    let product ← Width.index.mul i row
    let preceding ← Width.index.floorDiv product 2
    let last ← Width.index.add preceding j
    let next ← Width.index.sub last i
    let position ← Width.index.sub next 1
    if position < (pairs n).length then return ⟨position.toNat⟩
    else .error (.outOfBounds (pairs n).length position.toNat)
  else .error (.noDistance i j)

/-- The values that a distance may take. -/
def boundedInterval (n : Nat) : Nat × Nat → Checked Interval
  | (i, j) => do
    let span ← Width.value.sub j i
    let least ← boundedLength span
    let most ← Width.value.mul n n
    return ⟨least, most⟩

/-- A distance is the difference of two marks. -/
def boundedDifference (n : Nat) : Nat × Nat → Checked Posting
  | (i, j) => do
    let d ← boundedDistance n i j
    let first ← boundedDistance n 0 i
    let second ← boundedDistance n 0 j
    return ⟨.affineEq, [d, first, second], [1, 1, -1, 0]⟩

/-- The first segment is shorter than the last. -/
def boundedOrientation (n : Nat) : Checked (List Posting) :=
  if 3 ≤ n then do
    let first ← boundedDistance n 0 1
    let lastButOne ← Width.index.sub n 2
    let last ← Width.index.sub n 1
    let final ← boundedDistance n lastButOne.toNat last.toNat
    return [⟨.affineLeq, [first, final], [1, -1, -1]⟩]
  else return []

/-- A distance leaves room for the segments outside it. -/
def boundedRoom (n : Nat) : Nat × Nat → Checked Posting
  | (i, j) => do
    let last ← Width.index.sub n 1
    let span ← Width.index.sub j i
    let remaining ← Width.index.sub last span
    let room ← boundedLength (Width.value.wrap remaining)
    let bound ← Width.value.neg room
    let d ← boundedDistance n i j
    let length ← boundedDistance n 0 last.toNat
    return ⟨.affineLeq, [d, length], [1, -1, bound]⟩

/-- The intervals and postings of a model. -/
def boundedParts (n : Nat) : Checked (List Interval × List Posting) := do
  let intervals ← (pairs n).mapM (boundedInterval n)
  let differences ← ((pairs n).filter fun (i, _) => i ≠ 0).mapM (boundedDifference n)
  let orientation ← boundedOrientation n
  let rooms ← ((pairs n).filter fun (i, j) => j - i ≠ n - 1).mapM (boundedRoom n)
  let distances := (List.range (pairs n).length).map VariableId.mk
  return (intervals, differences ++ [⟨.allDifferent, distances, []⟩] ++ orientation ++ rooms)

/-- The model for a number of marks, computed with values and positions.  What the loops count
are positions up to the number of marks. -/
def boundedModel (n : Nat) : Checked (Except ModelError GolombRuler) :=
  if n < 2 then .ok (.error (.invalidInstance .golombRuler .tooFewMarks))
  else
    match ModelKind.golombRuler.parameter n with
    | .error e => .ok (.error e)
    | .ok marks =>
      if ¬ Width.value.Fits (marks * marks) then
        .ok (.error (.invalidInstance .golombRuler .tooManyMarks))
      else do
        let (intervals, postings) ← boundedParts n
        return do
          let p ← ((Problem.ofIntervals intervals).post postings).mapError (.build ·.cause)
          return ⟨n, p⟩

/-! ### No result is too large -/

theorem check_value {v u : Int} {f : Fault} (h : v = u) (hlo : -2147483648 ≤ u)
    (hhi : u ≤ 2147483647) : Width.value.check v f = .ok u :=
  Width.check_eq_ok.2 ⟨h ▸ ⟨hlo, hhi⟩, h⟩

theorem check_index {v u : Int} {f : Fault} (h : v = u) (hlo : 0 ≤ u)
    (hhi : u ≤ 18446744073709551615) : Width.index.check v f = .ok u :=
  Width.check_eq_ok.2 ⟨h ▸ ⟨hlo, hhi⟩, h⟩

theorem boundedLength_eq {m : Nat} (h : m * (m + 1) ≤ 2147483647) :
    boundedLength m = .ok (leastLength m) := by
  have hnext : m + 1 ≤ 2147483647 := by
    rcases Nat.eq_zero_or_pos m with rfl | hm
    · decide
    · exact (Nat.le_mul_of_pos_left _ hm).trans h
  have hproduct : (m : Int) * (m + 1) = (m * (m + 1) : Nat) := by push_cast; rfl
  have hdiv : Int.fdiv ((m * (m + 1) : Nat) : Int) 2 = leastLength m :=
    (Int.ofNat_fdiv (m * (m + 1)) 2).symm
  have hleast : leastLength m ≤ m * (m + 1) := Nat.div_le_self _ _
  refine (bind_of_ok (check_value rfl (by omega) (by omega))).trans ?_
  refine (bind_of_ok (check_value hproduct (by omega) (by omega))).trans ?_
  exact check_value hdiv (by omega) (by omega)

/-- The distances are numbered in the order in which the pairs are gone through. -/
theorem map_mk_range (n : Nat) : (List.range (pairs n).length).map VariableId.mk =
    (pairs n).map fun (i, j) => distanceId n i j := by
  refine List.ext_getElem? fun k => ?_
  rw [List.getElem?_map, List.getElem?_map]
  rcases Nat.lt_or_ge k (pairs n).length with hk | hk
  · obtain ⟨i, j, hij, hj, rfl⟩ := exists_distanceId hk
    rw [List.getElem?_range hk, getElem?_pairs hij hj]
    rfl
  · rw [List.getElem?_eq_none (by simpa using hk), List.getElem?_eq_none hk]
    rfl

section Model

variable (hn : n * n ≤ 2147483647)

include hn

theorem boundedDistance_eq (hij : i < j) (hj : j < n) :
    boundedDistance n i j = .ok (distanceId n i j) := by
  have hle : n ≤ n * n := Nat.le_mul_self n
  have hsmall : i * (2 * n - i - 1) ≤ 2 * (n * n) :=
    calc i * (2 * n - i - 1) ≤ n * (2 * n) := Nat.mul_le_mul (by omega) (by omega)
      _ = 2 * (n * n) := Nat.mul_left_comm n 2 n
  have hproduct : (i : Int) * (2 * n - i - 1) = (i * (2 * n - i - 1) : Nat) := by
    rw [Nat.cast_mul, show (2 * n - i - 1 : Int) = (2 * n - i - 1 : Nat) by omega]
  have hdiv : Int.fdiv ((i * (2 * n - i - 1) : Nat) : Int) 2 = (i * (2 * n - i - 1) / 2 : Nat) :=
    (Int.ofNat_fdiv _ 2).symm
  have hindex : ((i * (2 * n - i - 1) / 2 : Nat) : Int) + j - i - 1 = (distanceId n i j).index := by
    show _ = ((i * (2 * n - i - 1) / 2 + (j - i - 1) : Nat) : Int)
    omega
  have hlt := distanceId_lt hij hj
  rw [boundedDistance, if_pos ⟨hij, hj⟩]
  refine (bind_of_ok (check_index rfl (by omega) (by omega))).trans ?_
  refine (bind_of_ok (check_index rfl (by omega) (by omega))).trans ?_
  refine (bind_of_ok (check_index rfl (by omega) (by omega))).trans ?_
  refine (bind_of_ok (check_index hproduct (by omega) (by omega))).trans ?_
  refine (bind_of_ok (check_index hdiv (by omega) (by omega))).trans ?_
  refine (bind_of_ok (check_index rfl (by omega) (by omega))).trans ?_
  refine (bind_of_ok (check_index rfl (by omega) (by omega))).trans ?_
  refine (bind_of_ok (check_index hindex (by omega) (by omega))).trans ?_
  exact if_pos (by exact_mod_cast hlt)

/-- The product behind the least length of some segments is less than the square. -/
theorem segments_le {m : Nat} (hm : m < n) : m * (m + 1) ≤ 2147483647 :=
  (Nat.mul_le_mul hm.le hm).trans hn

theorem boundedInterval_eq (hij : i < j) (hj : j < n) :
    boundedInterval n (i, j) = .ok ⟨leastLength (j - i), n * n⟩ := by
  have hle : n ≤ n * n := Nat.le_mul_self n
  have hspan : (j : Int) - i = (j - i : Nat) := by omega
  have hsquare : (n : Int) * n = (n * n : Nat) := (Nat.cast_mul n n).symm
  refine (bind_of_ok (check_value hspan (by omega) (by omega))).trans ?_
  refine (bind_of_ok (boundedLength_eq (segments_le hn (by omega)))).trans ?_
  refine (bind_of_ok (check_value hsquare (by omega) (by omega))).trans ?_
  rw [← hsquare]
  rfl

theorem boundedDifference_eq (hi : 0 < i) (hij : i < j) (hj : j < n) :
    boundedDifference n (i, j) = .ok
      ⟨.affineEq, [distanceId n i j, distanceId n 0 i, distanceId n 0 j], [1, 1, -1, 0]⟩ := by
  refine (bind_of_ok (boundedDistance_eq hn hij hj)).trans ?_
  refine (bind_of_ok (boundedDistance_eq hn hi (hij.trans hj))).trans ?_
  exact bind_of_ok (boundedDistance_eq hn (hi.trans hij) hj)

theorem boundedOrientation_eq : boundedOrientation n = .ok (orientation n) := by
  have hle : n ≤ n * n := Nat.le_mul_self n
  unfold boundedOrientation orientation
  split
  · have hlast : (n : Int) - 1 = (n - 1 : Nat) := by omega
    have hlastButOne : (n : Int) - 2 = (n - 2 : Nat) := by omega
    refine (bind_of_ok (boundedDistance_eq hn Nat.one_pos (by omega))).trans ?_
    refine (bind_of_ok (check_index hlastButOne (by omega) (by omega))).trans ?_
    refine (bind_of_ok (check_index hlast (by omega) (by omega))).trans ?_
    exact bind_of_ok (boundedDistance_eq hn (by omega) (by omega))
  · rfl

theorem boundedRoom_eq (hij : i < j) (hj : j < n) : boundedRoom n (i, j) = .ok
    ⟨.affineLeq, [distanceId n i j, lengthId n], [1, -1, -leastLength (n - 1 - (j - i))]⟩ := by
  have hle : n ≤ n * n := Nat.le_mul_self n
  have hlast : (n : Int) - 1 = (n - 1 : Nat) := by omega
  have hspan : (j : Int) - i = (j - i : Nat) := by omega
  have hremaining : ((n - 1 : Nat) : Int) - (j - i : Nat) = (n - 1 - (j - i) : Nat) := by omega
  have hsegments := segments_le hn (by omega : n - 1 - (j - i) < n)
  have hleast : leastLength (n - 1 - (j - i)) ≤ 2147483647 := (Nat.div_le_self _ _).trans hsegments
  have hwrap : Width.value.wrap (n - 1 - (j - i) : Nat) = (n - 1 - (j - i) : Nat) :=
    Width.wrap_eq_self ⟨by simp only [Width.value]; omega, by simp only [Width.value]; omega⟩
  refine (bind_of_ok (check_index hlast (by omega) (by omega))).trans ?_
  refine (bind_of_ok (check_index hspan (by omega) (by omega))).trans ?_
  refine (bind_of_ok (check_index hremaining (by omega) (by omega))).trans ?_
  rw [hwrap]
  refine (bind_of_ok (boundedLength_eq hsegments)).trans ?_
  refine (bind_of_ok (check_value rfl (by omega) (by omega))).trans ?_
  refine (bind_of_ok (boundedDistance_eq hn hij hj)).trans ?_
  exact bind_of_ok (boundedDistance_eq hn (by omega) (by omega))

theorem boundedParts_eq : boundedParts n = .ok (intervals n, postings n) := by
  have hintervals : (pairs n).mapM (boundedInterval n) = .ok (intervals n) := by
    refine mapM_of_ok fun x hx => ?_
    obtain ⟨hij, hj⟩ := mem_pairs.1 hx
    exact boundedInterval_eq hn hij hj
  have hdifferences : ((pairs n).filter fun (i, _) => i ≠ 0).mapM (boundedDifference n) =
      .ok (differences n) := by
    refine mapM_of_ok fun x hx => ?_
    obtain ⟨hpair, hi⟩ := List.mem_filter.1 hx
    obtain ⟨hij, hj⟩ := mem_pairs.1 hpair
    exact boundedDifference_eq hn (Nat.pos_of_ne_zero (of_decide_eq_true hi)) hij hj
  have hrooms : ((pairs n).filter fun (i, j) => j - i ≠ n - 1).mapM (boundedRoom n) =
      .ok (rooms n) := by
    refine mapM_of_ok fun x hx => ?_
    obtain ⟨hij, hj⟩ := mem_pairs.1 (List.mem_filter.1 hx).1
    exact boundedRoom_eq hn hij hj
  refine (bind_of_ok hintervals).trans ((bind_of_ok hdifferences).trans
    ((bind_of_ok (boundedOrientation_eq hn)).trans ((bind_of_ok hrooms).trans ?_)))
  rw [map_mk_range]
  rfl

end Model

/-- **No result is too large**: the model is the same with bounded arithmetic. -/
theorem boundedModel_eq (n : Nat) : boundedModel n = .ok (ofMarks n) := by
  unfold boundedModel ofMarks
  dsimp only
  by_cases h2 : n < 2
  · rw [if_pos h2, if_pos h2]
    rfl
  · rw [if_neg h2, if_neg h2]
    cases hparameter : ModelKind.golombRuler.parameter n with
    | error e => rfl
    | ok marks =>
      obtain ⟨-, rfl⟩ := parameter_eq_ok_iff.1 hparameter
      show (if _ then _ else _) = Except.ok (if _ then _ else _)
      by_cases hfits : Width.value.Fits (n * n : Int)
      · have hsquare : (n * n : Int) ≤ 2147483647 := hfits.2
        have hn : n * n ≤ 2147483647 := by exact_mod_cast hsquare
        rw [if_neg (not_not.2 hfits), if_neg (not_not.2 hfits)]
        exact bind_of_ok (boundedParts_eq hn)
      · rw [if_pos hfits, if_pos hfits]
        rfl

end GolombRuler
end BoundsSolver
