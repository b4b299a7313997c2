/-
# The loops of the propagators

Every propagator that repeats itself does so in a loop whose turns lower a number: the values
of the intervals together, the positions of an index, the links that are still to be walked.
Each loop is written down here with its turns and shown to end within a bound, with the value of
the function that the propagator is defined by, whatever the intervals and parameters are.

Only a walk that redirects links can go round for ever, and it does so where the propagator
reports the fault `endless` (`redirect_endsWithin`).
-/

import BoundsSolver.Constraint.Basic
import BoundsSolver.Proofs.Loop

namespace BoundsSolver

/-! ### Linear equations -/

namespace Affine

/-- A pass over the terms of an equation, unless its range decides it. -/
def turn (rhs : Int) (as : List Int) (s : List Interval × Int × Int) :
    Checked (Turn (List Interval × Int × Int) Narrowing) :=
  if rhs < s.2.1 ∨ s.2.2 < rhs then .ok (.done ⟨.inconsistent, s.1⟩)
  else if s.2.1 = s.2.2 then .ok (.done ⟨.entailed, s.1⟩)
  else do
    match ← sweep rhs as s.1 s.2.1 s.2.2 with
    | .emptied js => return .done ⟨.inconsistent, js⟩
    | .swept js low high => return .unless (js = s.1) ⟨.consistent, js⟩ (js, low, high)

theorem turn_again {rhs : Int} {as : List Int} {s t : List Interval × Int × Int}
    (h : turn rhs as s = .ok (.again t)) : totalSize t.1 < totalSize s.1 := by
  unfold turn at h
  split at h
  · cases h
  · split at h
    · cases h
    · obtain ⟨sw, hsweep, h⟩ := bind_eq_ok.1 h
      cases sw with
      | emptied js => cases h
      | swept js low high =>
        obtain ⟨hne, rfl⟩ := Turn.unless_eq_again.1 (Except.ok.inj h)
        exact (sweep_shrinks hsweep).totalSize_lt hne

theorem settle_eq (rhs : Int) (as : List Int) (is : List Interval) (low high : Int) :
    settle rhs as is low high =
      turn rhs as (is, low, high) >>= Turn.andThen fun s => settle rhs as s.1 s.2.1 s.2.2 := by
  rw [settle, turn]
  split
  · rfl
  · split
    · rfl
    · split <;> rename_i hsweep <;> rw [hsweep]
      · rfl
      · rfl
      · rename_i js l h
        exact (Turn.andThen_unless (fun s => settle rhs as s.1 s.2.1 s.2.2) (js = is) _
          (js, l, h)).symm

/-- **The passes over an equation end.** -/
theorem settle_endsWithin (rhs : Int) (as : List Int) (is : List Interval) (low high : Int) :
    EndsWithin (turn rhs as) (totalSize is + 1) (is, low, high) (settle rhs as is low high) :=
  endsWithin_of_measure (fun s => totalSize s.1) (f := fun s => settle rhs as s.1 s.2.1 s.2.2)
    (fun s => settle_eq rhs as s.1 s.2.1 s.2.2) turn_again (is, low, high)

end Affine

/-! ### Counting a value -/

namespace Exactly

/-- A pass over all variables, unless the counts decide the constraint. -/
def turn (value count : Int) (is : List Interval) : Checked (Turn (List Interval) Narrowing) :=
  if count < assigned value is ∨ possible value is < count then .ok (.done ⟨.inconsistent, is⟩)
  else if assigned value is = possible value is then .ok (.done ⟨.entailed, is⟩)
  else do
    let js ← pass value (possible value is = count) (assigned value is = count) is
    return .unless (js = is) ⟨.consistent, is⟩ js

theorem turn_again {value count : Int} {is js : List Interval}
    (h : turn value count is = .ok (.again js)) : totalSize js < totalSize is := by
  unfold turn at h
  split at h
  · cases h
  · split at h
    · cases h
    · obtain ⟨ks, hpass, h⟩ := bind_eq_ok.1 h
      obtain ⟨hne, rfl⟩ := Turn.unless_eq_again.1 (Except.ok.inj h)
      exact (pass_shrinks hpass).totalSize_lt hne

theorem settle_eq (value count : Int) (is : List Interval) :
    settle value count is = turn value count is >>= Turn.andThen (settle value count) := by
  rw [settle, turn]
  split
  · rfl
  · split
    · rfl
    · split <;> rename_i hpass <;> rw [hpass]
      · rfl
      · exact (Turn.andThen_unless _ (_ = is) _ _).symm

/-- **The passes over the variables end.** -/
theorem settle_endsWithin (value count : Int) (is : List Interval) :
    EndsWithin (turn value count) (totalSize is + 1) is (settle value count is) :=
  endsWithin_of_measure totalSize (settle_eq value count) turn_again is

end Exactly

/-! ### The greatest element -/

namespace Maximum

/-- A round over the elements and their maximum. -/
def turn (s : List Interval × Interval) : Checked (Turn (List Interval × Interval) Narrowing) :=
  match round s.1 s.2 with
  | (false, es, m) => .ok (.done ⟨.inconsistent, es ++ [m]⟩)
  | (true, es, m) =>
    .ok (.unless (m :: es = s.2 :: s.1)
      ⟨if m.isFixed && allFixed es then .entailed else .consistent, es ++ [m]⟩ (es, m))

theorem turn_again {s t : List Interval × Interval} (h : turn s = .ok (.again t)) :
    totalSize (t.2 :: t.1) < totalSize (s.2 :: s.1) := by
  unfold turn at h
  split at h
  · cases h
  · rename_i es m hround
    obtain ⟨hne, rfl⟩ := Turn.unless_eq_again.1 (Except.ok.inj h)
    exact (round_shrinks hround).totalSize_lt hne

theorem settle_eq (s : List Interval × Interval) :
    .ok (settle s.1 s.2) = turn s >>= Turn.andThen fun s => .ok (settle s.1 s.2) := by
  rw [settle, turn]
  split <;> rename_i hround <;> rw [hround]
  · rfl
  · refine Eq.trans ?_ (Turn.andThen_unless _ (_ :: _ = s.2 :: s.1) _ _).symm
    split <;> rfl

/-- **The rounds over the elements end.** -/
theorem settle_endsWithin (es : List Interval) (m : Interval) :
    EndsWithin turn (totalSize (m :: es) + 1) (es, m) (.ok (settle es m)) :=
  endsWithin_of_measure (fun s => totalSize (s.2 :: s.1)) (f := fun s => .ok (settle s.1 s.2))
    settle_eq turn_again (es, m)

end Maximum

/-! ### Elements of a list -/

namespace Element

/-- Passes over the least index if its element cannot equal the value. -/
def raiseTurn (es : List Interval) (value index : Interval) : Checked (Turn Interval Interval) :=
  if index.max < index.min then .ok (.done index)
  else do
    let e ← elementAt es index.min
    if e.intersects value then return .done index
    else
      let next ← Width.value.add index.min 1
      return .again ⟨next, index.max⟩

/-- Passes over the greatest index if its element cannot equal the value. -/
def lowerTurn (es : List Interval) (value index : Interval) : Checked (Turn Interval Interval) :=
  if index.max < index.min then .ok (.done index)
  else do
    let e ← elementAt es index.max
    if e.intersects value then return .done index
    else
      let next ← Width.value.sub index.max 1
      return .again ⟨index.min, next⟩

/-- A round over the index, the value and the elements. -/
def turn (v : Variables) : Checked (Turn Variables Narrowing) := do
  match ← round v with
  | .settled status w => return .done ⟨status, w.toList⟩
  | .narrowed w => return .unless (w = v) ⟨.consistent, w.toList⟩ w

theorem raiseTurn_again {es : List Interval} {value i j : Interval}
    (h : raiseTurn es value i = .ok (.again j)) : j.size < i.size := by
  unfold raiseTurn at h
  split at h
  · cases h
  · rename_i hle
    obtain ⟨e, -, h⟩ := bind_eq_ok.1 h
    split at h
    · cases h
    · obtain ⟨next, hnext, h⟩ := bind_eq_ok.1 h
      obtain ⟨-, rfl⟩ := Width.add_eq_ok.1 hnext
      obtain rfl := Turn.again.inj (Except.ok.inj h)
      simp only [Interval.size]
      omega

theorem lowerTurn_again {es : List Interval} {value i j : Interval}
    (h : lowerTurn es value i = .ok (.again j)) : j.size < i.size := by
  unfold lowerTurn at h
  split at h
  · cases h
  · rename_i hle
    obtain ⟨e, -, h⟩ := bind_eq_ok.1 h
    split at h
    · cases h
    · obtain ⟨next, hnext, h⟩ := bind_eq_ok.1 h
      obtain ⟨-, rfl⟩ := Width.sub_eq_ok.1 hnext
      obtain rfl := Turn.again.inj (Except.ok.inj h)
      simp only [Interval.size]
      omega

theorem turn_again {v w : Variables} (h : turn v = .ok (.again w)) : weight w < weight v := by
  obtain ⟨r, hround, h⟩ := bind_eq_ok.1 h
  cases r with
  | settled status u => cases h
  | narrowed u =>
    obtain ⟨hne, rfl⟩ := Turn.unless_eq_again.1 (Except.ok.inj h)
    exact (round_weight hround).resolve_left hne

theorem raiseIndex_eq (es : List Interval) (value index : Interval) :
    raiseIndex es value index =
      raiseTurn es value index >>= Turn.andThen (raiseIndex es value) := by
  rw [raiseIndex, raiseTurn]
  split
  · rfl
  · cases elementAt es index.min with
    | error f => rfl
    | ok e =>
      dsimp only
      by_cases hi : e.intersects value
      · rw [if_pos hi, bind_of_ok rfl, if_pos hi]
        rfl
      · rw [if_neg hi, bind_of_ok rfl, if_neg hi]
        cases hnext : Width.value.add index.min 1 with
        | error f => rfl
        | ok next =>
          obtain ⟨-, rfl⟩ := Width.add_eq_ok.1 hnext
          rfl

theorem lowerIndex_eq (es : List Interval) (value index : Interval) :
    lowerIndex es value index =
      lowerTurn es value index >>= Turn.andThen (lowerIndex es value) := by
  rw [lowerIndex, lowerTurn]
  split
  · rfl
  · cases elementAt es index.max with
    | error f => rfl
    | ok e =>
      dsimp only
      by_cases hi : e.intersects value
      · rw [if_pos hi, bind_of_ok rfl, if_pos hi]
        rfl
      · rw [if_neg hi, bind_of_ok rfl, if_neg hi]
        cases hnext : Width.value.sub index.max 1 with
        | error f => rfl
        | ok next =>
          obtain ⟨-, rfl⟩ := Width.sub_eq_ok.1 hnext
          rfl

theorem settle_eq (v : Variables) : settle v = turn v >>= Turn.andThen settle := by
  rw [settle, turn]
  split <;> rename_i hround <;> rw [hround]
  · rfl
  · rfl
  · exact (Turn.andThen_unless _ (_ = v) _ _).symm

/-- **Raising the least index ends.** -/
theorem raiseIndex_endsWithin (es : List Interval) (value index : Interval) :
    EndsWithin (raiseTurn es value) (index.size + 1) index (raiseIndex es value index) :=
  endsWithin_of_measure Interval.size (raiseIndex_eq es value) raiseTurn_again index

/-- **Lowering the greatest index ends.** -/
theorem lowerIndex_endsWithin (es : List Interval) (value index : Interval) :
    EndsWithin (lowerTurn es value) (index.size + 1) index (lowerIndex es value index) :=
  endsWithin_of_measure Interval.size (lowerIndex_eq es value) lowerTurn_again index

/-- **The rounds over the variables end.** -/
theorem settle_endsWithin (v : Variables) : EndsWithin turn (weight v + 1) v (settle v) :=
  endsWithin_of_measure weight settle_eq turn_again v

end Element

/-! ### Lexicographic order -/

namespace Lexicographic

/-- Passes over a position that decides nothing, or orders the first one that does; the
positions that have been passed over come first. -/
def turn (s : List (Interval × Interval) × List (Interval × Interval)) :
    Checked (Turn (List (Interval × Interval) × List (Interval × Interval))
      (Status × List (Interval × Interval))) :=
  match s.2 with
  | [] => .ok (.done (.entailed, s.1))
  | (x, y) :: rest =>
    if tied x y then .ok (.again (s.1 ++ [(x, y)], rest))
    else
      let next := order (if mustExceed rest then 1 else 0) x y
      if next.1.isEmpty || next.2.isEmpty then .ok (.done (.inconsistent, s.1 ++ next :: rest))
      else if !mayExceed (next :: rest) then .ok (.done (.entailed, s.1 ++ next :: rest))
      else if next = (x, y) then .ok (.done (.consistent, s.1 ++ next :: rest))
      else .ok (.again (s.1, next :: rest))

/-- What is made of all positions, given that some have been passed over. -/
def narrowFrom (s : List (Interval × Interval) × List (Interval × Interval)) :
    Status × List (Interval × Interval) :=
  ((narrow s.2).1, s.1 ++ (narrow s.2).2)

theorem turn_again {s t : List (Interval × Interval) × List (Interval × Interval)}
    (h : turn s = .ok (.again t)) : weight t.2 < weight s.2 := by
  obtain ⟨passed, pairs⟩ := s
  cases pairs with
  | nil => cases h
  | cons p rest =>
    obtain ⟨x, y⟩ := p
    simp only [turn] at h
    generalize (if mustExceed rest then 1 else 0 : Int) = gap at h
    split at h
    · obtain rfl := Turn.again.inj (Except.ok.inj h)
      simp only [weight]
      omega
    · split at h
      · cases h
      · rename_i hempty
        split at h
        · cases h
        · split at h
          · cases h
          · rename_i hne
            obtain rfl := Turn.again.inj (Except.ok.inj h)
            simp only [Bool.or_eq_true, not_or, Bool.not_eq_true] at hempty
            have := order_size hne hempty.1 hempty.2
            simp only [weight]
            omega

theorem narrowFrom_eq (s : List (Interval × Interval) × List (Interval × Interval)) :
    .ok (narrowFrom s) = turn s >>= Turn.andThen fun s => .ok (narrowFrom s) := by
  obtain ⟨passed, pairs⟩ := s
  cases pairs with
  | nil => simp only [narrowFrom, turn, narrow, List.append_nil]; rfl
  | cons p rest =>
    obtain ⟨x, y⟩ := p
    simp only [narrowFrom, turn]
    rw [narrow]
    generalize (if mustExceed rest then 1 else 0 : Int) = gap
    dsimp only
    split
    · show _ = Except.ok _
      simp
    · split
      · rfl
      · split
        · rfl
        · split
          · rfl
          · rfl

/-- **Going through the positions ends.** -/
theorem narrow_endsWithin (pairs : List (Interval × Interval)) :
    EndsWithin turn (weight pairs + 1) ([], pairs) (.ok (narrow pairs)) :=
  endsWithin_of_measure (fun s => weight s.2) (f := fun s => .ok (narrowFrom s))
    narrowFrom_eq turn_again ([], pairs)

end Lexicographic

/-! ### Pairwise distinct variables -/

namespace AllDifferent

/-- Takes the next of the sorted bounds in; of equal ones a lower bound comes first. -/
def mergeTurn (s : List (Int × Nat) × List (Int × Nat) × Ranking) :
    Checked (Turn (List (Int × Nat) × List (Int × Nat) × Ranking) Ranking) :=
  match s with
  | ((a, v) :: lows, (b, w) :: highs, r) =>
    if a ≤ b then do
      let r ← r.addMin a v
      return .again (lows, (b, w) :: highs, r)
    else do
      let r ← r.addMax b w
      return .again ((a, v) :: lows, highs, r)
  | ([], (b, w) :: highs, r) => do
    let r ← r.addMax b w
    return .again ([], highs, r)
  | (_, [], r) => .ok (.done r)

/-- Follows a link that leads upwards. -/
def climbTurn (links : Array Nat) (node : Nat) : Checked (Turn Nat Nat) := do
  let next ← readAt links node
  return .unless (next ≤ node) node next

/-- Follows a link that leads downwards. -/
def sinkTurn (links : Array Nat) (node : Nat) : Checked (Turn Nat Nat) := do
  let next ← readAt links node
  return .unless (node ≤ next) node next

/-- Follows a link and points it at the target. -/
def redirectTurn (stop target : Nat) (s : Array Nat × Nat) :
    Checked (Turn (Array Nat × Nat) (Array Nat)) :=
  if s.2 = stop then .ok (.done s.1)
  else do
    let next ← readAt s.1 s.2
    return .again (s.1.setIfInBounds s.2 target, next)

theorem mergeTurn_again {s t : List (Int × Nat) × List (Int × Nat) × Ranking}
    (h : mergeTurn s = .ok (.again t)) :
    t.1.length + t.2.1.length < s.1.length + s.2.1.length := by
  unfold mergeTurn at h
  split at h
  · split at h <;>
    · obtain ⟨r, -, h⟩ := bind_eq_ok.1 h
      obtain rfl := Turn.again.inj (Except.ok.inj h)
      simp
  · obtain ⟨r, -, h⟩ := bind_eq_ok.1 h
    obtain rfl := Turn.again.inj (Except.ok.inj h)
    simp
  · cases h

theorem merge_eq (s : List (Int × Nat) × List (Int × Nat) × Ranking) :
    Ranking.merge s.1 s.2.1 s.2.2 =
      mergeTurn s >>= Turn.andThen fun s => Ranking.merge s.1 s.2.1 s.2.2 := by
  unfold mergeTurn
  split
  · rw [Ranking.merge]
    split <;> rw [bind_assoc] <;> rfl
  · rw [Ranking.merge, bind_assoc]
    rfl
  · rw [Ranking.merge]
    · rfl

theorem climb_eq (links : Array Nat) (node : Nat) :
    climb links node = climbTurn links node >>= Turn.andThen (climb links) := by
  rw [climb, climbTurn, readAt]
  split <;> rename_i hlink <;> rw [hlink]
  · rfl
  · rename_i next
    refine Eq.trans ?_ (Turn.andThen_unless (climb links) (next ≤ node) node next).symm
    by_cases hlt : node < next
    · rw [if_pos hlt, if_neg (Nat.not_le.2 hlt)]
    · rw [if_neg hlt, if_pos (Nat.not_lt.1 hlt)]

theorem sink_eq (links : Array Nat) (node : Nat) :
    sink links node = sinkTurn links node >>= Turn.andThen (sink links) := by
  rw [sink, sinkTurn, readAt]
  split <;> rename_i hlink <;> rw [hlink]
  · rfl
  · rename_i next
    refine Eq.trans ?_ (Turn.andThen_unless (sink links) (node ≤ next) node next).symm
    by_cases hlt : next < node
    · rw [if_pos hlt, if_neg (Nat.not_le.2 hlt)]
    · rw [if_neg hlt, if_pos (Nat.not_lt.1 hlt)]

theorem climbTurn_again {links : Array Nat} {node next : Nat}
    (h : climbTurn links node = .ok (.again next)) :
    links.size - next < links.size - node := by
  obtain ⟨next', hlink, h⟩ := bind_eq_ok.1 h
  obtain ⟨hlt, rfl⟩ := Turn.unless_eq_again.1 (Except.ok.inj h)
  have := (Array.getElem?_eq_some_iff.1 (readAt_eq_ok.1 hlink)).1
  omega

theorem sinkTurn_again {links : Array Nat} {node next : Nat}
    (h : sinkTurn links node = .ok (.again next)) : next < node := by
  obtain ⟨next', hlink, h⟩ := bind_eq_ok.1 h
  obtain ⟨hlt, rfl⟩ := Turn.unless_eq_again.1 (Except.ok.inj h)
  exact Nat.not_le.1 hlt

/-- **Merging the sorted bounds ends.** -/
theorem merge_endsWithin (lows highs : List (Int × Nat)) (r : Ranking) :
    EndsWithin mergeTurn (lows.length + highs.length + 1) (lows, highs, r)
      (Ranking.merge lows highs r) :=
  endsWithin_of_measure (fun s => s.1.length + s.2.1.length)
    (f := fun s => Ranking.merge s.1 s.2.1 s.2.2) merge_eq mergeTurn_again (lows, highs, r)

/-- **Walking up ends.** -/
theorem climb_endsWithin (links : Array Nat) (node : Nat) :
    EndsWithin (climbTurn links) (links.size - node + 1) node (climb links node) :=
  endsWithin_of_measure (links.size - ·) (climb_eq links) climbTurn_again node

/-- **Walking down ends.** -/
theorem sink_endsWithin (links : Array Nat) (node : Nat) :
    EndsWithin (sinkTurn links) (node + 1) node (sink links node) :=
  endsWithin_of_measure id (sink_eq links) sinkTurn_again node

/-- A link that is followed is pointed at the target, or the walk has just met the target. -/
theorem redirect_lowers {links : Array Nat} {node next target : Nat}
    (hlink : links[node]? = some next) (hmeet : ¬ (node = target ∧ next = target)) :
    2 * (links.setIfInBounds node target).countP (· ≠ target) + (if next = target then 0 else 1) <
      2 * links.countP (· ≠ target) + (if node = target then 0 else 1) := by
  by_cases hnext : next = target
  · have hnode : node ≠ target := fun h => hmeet ⟨h, hnext⟩
    subst hnext
    rw [setIfInBounds_getElem?_self hlink, if_pos rfl, if_neg hnode]
    omega
  · have := countP_setIfInBounds_lt hlink hnext
    rw [if_neg hnext]
    omega

/-- **Redirecting the links of a walk ends**, unless the walk meets a link from the target to
itself and goes round for ever. -/
theorem redirect_endsWithin {links : Array Nat} {node stop target : Nat}
    (h : redirect links node stop target ≠ .error .endless) :
    EndsWithin (redirectTurn stop target)
      (2 * links.countP (· ≠ target) + (if node = target then 0 else 1) + 1) (links, node)
      (redirect links node stop target) := by
  fun_induction redirect links node stop target with
  | case1 links => exact ⟨1, by omega, .done (if_pos rfl)⟩
  | case2 links node hne hlink =>
    refine ⟨1, by omega, .fault ?_⟩
    rw [redirectTurn, if_neg hne, readAt, hlink]
    rfl
  | case3 => exact absurd rfl h
  | case4 links node hne next hlink hmeet ih =>
    obtain ⟨k, hk, hloop⟩ := ih h
    refine ⟨k + 1, ?_, .again ?_ hloop⟩
    · have := redirect_lowers hlink hmeet
      omega
    · rw [redirectTurn, if_neg hne, readAt, hlink]
      rfl

end AllDifferent
end BoundsSolver
