/-
# Pairwise distinct variables

Bounds consistency by Hall intervals: a set of values that as many variables as
it has values are confined to, so that no other variable can take one of them.

The lower bounds and the upper bounds plus one, sorted and merged, are the
critical bounds; each variable knows the rank of its own two.  A first pass
takes the variables by ascending upper bound, gives each the lowest free values
above its lower bound, and moves the lower bounds past the Hall intervals found
so far.  A second pass does the same from above.  Both keep two forests over the
critical bounds, as arrays of links:

* `tree` links each critical bound to the next one with free values, and
  `room` counts the values that are free there;
* `hall` links each critical bound to the end of the Hall interval around it.

Paths that have been walked are redirected to their end.  `redirect` stops a
walk that would go round for ever, which happens only when some interval was
empty to begin with.  Every array has a fixed size, and a position beyond it is a
fault; so is a sum that does not fit.
-/

import BoundsSolver.Constraint.Status

namespace BoundsSolver
namespace AllDifferent

/-- The critical bounds, and the place of every variable among them. -/
structure Ranking where
  /-- The critical bounds, and entries that are not in use yet. -/
  critical : Array Int
  /-- The rank of the last critical bound. -/
  last : Nat
  /-- The rank of the lower bound of each variable. -/
  minRank : Array Nat
  /-- The rank of the upper bound of each variable. -/
  maxRank : Array Nat

namespace Ranking

/-- Enters a critical bound after the last one, unless it is the last one. -/
def reach (r : Ranking) (bound : Int) : Checked Ranking :=
  if r.critical[r.last]? = some bound then .ok r
  else do
    let critical ← writeAt r.critical (r.last + 1) bound
    return { r with critical := critical, last := r.last + 1 }

/-- Takes in the lower bound of a variable. -/
def addMin (r : Ranking) (bound : Int) (v : Nat) : Checked Ranking := do
  let r ← r.reach bound
  let ranks ← writeAt r.minRank v r.last
  return { r with minRank := ranks }

/-- Takes in the upper bound of a variable. -/
def addMax (r : Ranking) (bound : Int) (v : Nat) : Checked Ranking := do
  let r ← r.reach bound
  let ranks ← writeAt r.maxRank v r.last
  return { r with maxRank := ranks }

/-- Merges the sorted lower and upper bounds, each with its variable; of equal
bounds the lower ones come first. -/
def merge : List (Int × Nat) → List (Int × Nat) → Ranking → Checked Ranking
  | (a, v) :: lows, (b, w) :: highs, r =>
    if a ≤ b then do merge lows ((b, w) :: highs) (← r.addMin a v)
    else do merge ((a, v) :: lows) highs (← r.addMax b w)
  | [], (b, w) :: highs, r => do merge [] highs (← r.addMax b w)
  | _, [], r => .ok r
termination_by lows highs => lows.length + highs.length

/-- The sorted bounds of `n` variables, between two that are the bounds of none. -/
def ofSorted (n : Nat) (lows highs : List (Int × Nat)) : Checked Ranking := do
  let first ← Width.sum.sub ((lows.head?.map Prod.fst).getD 0) 2
  let critical ← writeAt (Array.replicate (2 * n + 2) 0) 0 first
  let r ← merge lows highs ⟨critical, 0, Array.replicate n 0, Array.replicate n 0⟩
  let final ← Width.sum.add (← readAt r.critical r.last) 2
  let critical ← writeAt r.critical (r.last + 1) final
  return { r with critical := critical }

end Ranking

/-- Bounds with their variables, in ascending order. -/
def sortBounds (bounds : List Int) : List (Int × Nat) :=
  bounds.zipIdx.mergeSort fun a b => decide (a.1 ≤ b.1)

/-- The links from critical bound to critical bound, and the values that are free. -/
structure Forest where
  tree : Array Nat
  hall : Array Nat
  room : Array Int

/-- No links, and no free values. -/
def Forest.blank (size : Nat) : Forest :=
  ⟨Array.replicate size 0, Array.replicate size 0, Array.replicate size 0⟩

/-- Links a critical bound to another one, with free values between the two. -/
def Forest.join (f : Forest) (k other : Nat) (free : Int) : Checked Forest := do
  let tree ← writeAt f.tree k other
  let hall ← writeAt f.hall k other
  let room ← writeAt f.room k free
  return ⟨tree, hall, room⟩

/-- The end of the path of links that lead upwards. -/
def climb (links : Array Nat) (node : Nat) : Checked Nat :=
  match _e : links[node]? with
  | none => .error (.outOfBounds links.size node)
  | some next => if node < next then climb links next else .ok node
termination_by links.size - node
decreasing_by
  have := (Array.getElem?_eq_some_iff.1 _e).1
  omega

/-- The end of the path of links that lead downwards. -/
def sink (links : Array Nat) (node : Nat) : Checked Nat :=
  match links[node]? with
  | none => .error (.outOfBounds links.size node)
  | some next => if next < node then sink links next else .ok node
termination_by node

theorem countP_setIfInBounds_lt {links : Array Nat} {node next target : Nat}
    (h : links[node]? = some next) (hne : next ≠ target) :
    (links.setIfInBounds node target).countP (· ≠ target) < links.countP (· ≠ target) := by
  obtain ⟨hn, rfl⟩ := Array.getElem?_eq_some_iff.1 h
  have hpos : 0 < links.countP (· ≠ target) :=
    Array.countP_pos_iff.2 ⟨_, Array.getElem_mem hn, by simpa using hne⟩
  rw [Array.setIfInBounds_def, dif_pos hn, Array.countP_set]
  simp only [ne_eq, hne, not_false_eq_true, decide_true, if_true, not_true_eq_false, decide_false,
    Bool.false_eq_true, if_false] at hpos ⊢
  omega

theorem setIfInBounds_getElem?_self {links : Array Nat} {node target : Nat}
    (h : links[node]? = some target) : links.setIfInBounds node target = links := by
  obtain ⟨hn, rfl⟩ := Array.getElem?_eq_some_iff.1 h
  rw [Array.setIfInBounds_def, dif_pos hn, Array.set_getElem_self]

/-- Points every node on the path from `node` to the end, which is left out, at
`target`. -/
def redirect (links : Array Nat) (node stop target : Nat) : Checked (Array Nat) :=
  if node = stop then .ok links
  else
    match _e : links[node]? with
    | none => .error (.outOfBounds links.size node)
    | some next =>
      if node = target ∧ next = target then .error .endless
      else redirect (links.setIfInBounds node target) next stop target
termination_by 2 * links.countP (· ≠ target) + if node = target then 0 else 1
decreasing_by
  by_cases h : next = target
  · subst h
    rw [setIfInBounds_getElem?_self _e]
    split <;> simp_all
  · have hlt := countP_setIfInBounds_lt _e h
    split <;> split <;> omega

/-- The bounds of the variables on one side, narrowed so far, and the forests. -/
structure Pass where
  bounds : Array Int
  forest : Forest

/-- Takes one variable of the first pass; no answer if too many variables are
confined to too few values. -/
def raise (critical : Array Int) (minRank maxRank : Array Nat) (v : Nat) (p : Pass) :
    Checked (Option Pass) := do
  let ⟨bounds, ⟨tree, hall, room⟩⟩ := p
  let x ← readAt minRank v
  let y ← readAt maxRank v
  let start ← climb tree (x + 1)
  let j ← readAt tree start
  let free ← Width.sum.sub (← readAt room start) 1
  let room ← writeAt room start free
  let (z, tree) ←
    if free = 0 then do
      let tree ← writeAt tree start (start + 1)
      let z ← climb tree (start + 1)
      pure (z, ← writeAt tree z j)
    else pure (start, tree)
  let tree ← redirect tree (x + 1) z z
  let free ← readAt room z
  let gap ← Width.sum.sub (← readAt critical z) (← readAt critical y)
  if free < gap then return none
  let up ← readAt hall x
  let (bounds, hall) ←
    if x < up then do
      let w ← climb hall up
      let bounds ← writeAt bounds v (← readAt critical w)
      pure (bounds, ← redirect hall x w w)
    else pure (bounds, hall)
  let hall ←
    if free = gap then do
      let first ← readAt hall y
      let stop ← Width.predecessor j
      writeAt (← redirect hall first stop y) y stop
    else pure hall
  return some ⟨bounds, ⟨tree, hall, room⟩⟩

/-- Takes one variable of the second pass, the reflection of the first. -/
def lower (critical : Array Int) (minRank maxRank : Array Nat) (v : Nat) (p : Pass) :
    Checked (Option Pass) := do
  let ⟨bounds, ⟨tree, hall, room⟩⟩ := p
  let x ← readAt maxRank v
  let y ← readAt minRank v
  let below ← Width.predecessor x
  let start ← sink tree below
  let j ← readAt tree start
  let free ← Width.sum.sub (← readAt room start) 1
  let room ← writeAt room start free
  let (z, tree) ←
    if free = 0 then do
      let next ← Width.predecessor start
      let tree ← writeAt tree start next
      let z ← sink tree next
      pure (z, ← writeAt tree z j)
    else pure (start, tree)
  let tree ← redirect tree below z z
  let free ← readAt room z
  let gap ← Width.sum.sub (← readAt critical y) (← readAt critical z)
  if free < gap then return none
  let down ← readAt hall x
  let (bounds, hall) ←
    if down < x then do
      let w ← sink hall down
      let bounds ← writeAt bounds v (← readAt critical w)
      pure (bounds, ← redirect hall x w w)
    else pure (bounds, hall)
  let hall ←
    if free = gap then do
      let first ← readAt hall y
      writeAt (← redirect hall first (j + 1) y) y (j + 1)
    else pure hall
  return some ⟨bounds, ⟨tree, hall, room⟩⟩

/-- Takes the variables one after the other, as long as each can be taken. -/
def takeAll (step : Nat → Pass → Checked (Option Pass)) :
    List Nat → Pass → Checked (Option Pass)
  | [], p => .ok (some p)
  | v :: vs, p => do
    match ← step v p with
    | none => return none
    | some p => takeAll step vs p

/-- The forests before the first pass: every critical bound but the lowest is
linked to the one below it, and all values in between are free. -/
def rising (critical : Array Int) (last : Nat) (f : Forest) : Checked Forest :=
  (List.range' 1 (last + 1)).foldlM (fun f k => do
    let below ← Width.predecessor k
    let free ← Width.sum.sub (← readAt critical k) (← readAt critical below)
    f.join k below free) f

/-- The forests before the second pass: every critical bound is linked to the one
above it.  What lies beyond the last one is left from the first pass. -/
def falling (critical : Array Int) (last : Nat) (f : Forest) : Checked Forest :=
  (List.range (last + 1)).foldlM (fun f k => do
    let free ← Width.sum.sub (← readAt critical (k + 1)) (← readAt critical k)
    f.join k (k + 1) free) f

/-- The lower bounds and the upper bounds plus one after both passes; no answer if
no choice of values is pairwise distinct. -/
def hallBounds (mins maxs : List Int) : Checked (Option (Array Int × Array Int)) := do
  let lows := sortBounds mins
  let highs := sortBounds maxs
  let r ← Ranking.ofSorted mins.length lows highs
  let up := raise r.critical r.minRank r.maxRank
  let down := lower r.critical r.minRank r.maxRank
  let forest ← rising r.critical r.last (.blank r.critical.size)
  match ← takeAll up (highs.map Prod.snd) ⟨mins.toArray, forest⟩ with
  | none => return none
  | some p =>
    let forest ← falling r.critical r.last p.forest
    match ← takeAll down (lows.map Prod.snd).reverse ⟨maxs.toArray, forest⟩ with
    | none => return none
    | some q => return some (p.bounds, q.bounds)

/-- Each interval within the bounds computed for its variable, which must not cross;
the first one is that of `v`. -/
def within (mins maxs : Array Int) : Nat → List Interval → Checked (List Interval)
  | _, [] => .ok []
  | v, i :: is => do
    let min := Width.value.wrap (← readAt mins v)
    let max := Width.value.wrap (← Width.sum.sub (← readAt maxs v) 1)
    if max < min then .error .crossedBounds
    else
      let js ← within mins maxs (v + 1) is
      return (i.tightenMin min).tightenMax max :: js

/-- Narrows variables that take pairwise distinct values. -/
def propagate (bounds : List Interval) : Checked Narrowing := do
  if bounds.length ≤ 1 then return ⟨.entailed, bounds⟩
  let maxs ← bounds.mapM fun i => Width.sum.add i.max 1
  match ← hallBounds (bounds.map (·.min)) maxs with
  | none => return ⟨.inconsistent, bounds⟩
  | some (mins, maxs) =>
    let is ← within mins maxs 0 bounds
    return ⟨if allFixed is then .entailed else .consistent, is⟩

end AllDifferent
end BoundsSolver
