/-
# Networks of constraints

A network is what a search does not change: the initial intervals of the shared
domains, the variables, which are shared domains moved by an offset, the posted
propagators, and for each bound of each shared domain the propagators to run
again when it changes.  A `Box` is one interval for each shared domain.
-/

import BoundsSolver.Constraint.Basic

namespace BoundsSolver

/-- A variable: the value of a shared domain plus an offset. -/
structure View where
  domain : DomainId
  offset : Int
  deriving DecidableEq, Repr, Inhabited

/-- A constraint posted over variables. -/
structure Propagator where
  constraint : Constraint
  views : List View
  parameters : List Int
  triggers : List Triggers
  /-- Some shared domain stands behind more than one of the variables. -/
  selfAliasing : Bool
  deriving DecidableEq, Repr, Inhabited

/-- The propagator of a constraint over variables. -/
def Propagator.post (c : Constraint) (views : List View) (parameters : List Int) : Propagator :=
  { constraint := c, views, parameters,
    triggers := c.triggers views.length parameters,
    selfAliasing := !decide (views.map View.domain).Nodup }

/-- The propagators to run when a bound of a shared domain changes, the last posted first. -/
structure Subscribers where
  min : List PropagatorId
  max : List PropagatorId
  deriving DecidableEq, Repr, Inhabited

namespace Subscribers

def on (s : Subscribers) : Bound → List PropagatorId
  | .min => s.min
  | .max => s.max

/-- Adds a propagator unless it was the last one to be added. -/
def add (ids : List PropagatorId) (id : PropagatorId) : List PropagatorId :=
  if ids.head? = some id then ids else id :: ids

/-- Subscribes a propagator to the bounds that trigger it. -/
def subscribe (s : Subscribers) (t : Triggers) (id : PropagatorId) : Subscribers :=
  { min := if t.min then add s.min id else s.min
    max := if t.max then add s.max id else s.max }

end Subscribers

/-- An interval for each shared domain. -/
abbrev Box := Keyed DomainId Interval

namespace Box

/-- Some shared domain has no value left. -/
def anyEmpty (b : Box) : Bool := b.entries.any Interval.isEmpty

/-- Every shared domain has exactly one value left. -/
def isFixed (b : Box) : Bool := b.entries.all Interval.isFixed

/-- Moves one bound of one shared domain inwards. -/
def tighten (b : Box) (branch : Branch) : Box :=
  b.modify branch.domain (·.tighten branch.bound branch.value)

/-- The first shared domain with more or fewer values than one. -/
def firstUnfixed? (b : Box) : Option (DomainId × Interval) :=
  (b.entries.findIdx? fun i => !i.isFixed).bind fun n =>
    b.entries[n]?.map fun i => (⟨n⟩, i)

/-- The number of values of all shared domains together. -/
def totalSize (b : Box) : Nat := BoundsSolver.totalSize b.toList

/-- The weight of a box with so many values: three times that with one value less. -/
def weightOf : Nat → Nat
  | 0 => 1
  | n + 1 => 3 * weightOf n

/-- A weight of which two boxes with fewer values have less together. -/
def weight (b : Box) : Nat := weightOf b.totalSize

theorem weightOf_pos (n : Nat) : 0 < weightOf n := by
  induction n with
  | zero => simp [weightOf]
  | succ n ih => simp only [weightOf]; omega

theorem weightOf_le {m n : Nat} (h : m ≤ n) : weightOf m ≤ weightOf n := by
  induction h with
  | refl => exact Nat.le_refl _
  | step _ ih => simp only [weightOf]; omega

theorem weight_pos (b : Box) : 0 < b.weight := weightOf_pos _

theorem weight_le {b c : Box} (h : b.totalSize ≤ c.totalSize) : b.weight ≤ c.weight :=
  weightOf_le h

/-- **Two halves weigh less than the whole.** -/
theorem weight_add_lt {a b c : Box} (ha : a.totalSize < c.totalSize)
    (hb : b.totalSize < c.totalSize) : a.weight + b.weight < c.weight := by
  obtain ⟨k, hk⟩ : ∃ k, c.totalSize = k + 1 := ⟨c.totalSize - 1, by omega⟩
  have h₁ : a.weight ≤ weightOf k := weightOf_le (by omega)
  have h₂ : b.weight ≤ weightOf k := weightOf_le (by omega)
  have h₃ := weightOf_pos k
  have h₄ : c.weight = 3 * weightOf k := by rw [weight, hk, weightOf]
  omega

end Box

/-- The interval of a variable in a box. -/
def View.read (v : View) (b : Box) : Interval := (b.entry v.domain).shifted v.offset

/-- The value of a variable in a solution, which lists the values of all variables. -/
def VariableId.valueIn (x : VariableId) (values : List Int) : Checked Int :=
  match values[x.index]? with
  | some value => .ok value
  | none => .error (.outOfBounds values.length x.index)

/-- What a search does not change. -/
structure Network where
  initial : Box
  views : Keyed VariableId View
  propagators : Keyed PropagatorId Propagator
  subscribers : Keyed DomainId Subscribers
  deriving DecidableEq, Inhabited

namespace Network

def empty : Network := ⟨.empty, .empty, .empty, .empty⟩

/-- The propagators to run when a bound changes. -/
def subscribersOf (n : Network) (d : DomainId) (b : Bound) : List PropagatorId :=
  ((n.subscribers.get? d).map (·.on b)).getD []

/-- The value of every variable, each shared domain at its lower bound. -/
def lowest (n : Network) (b : Box) : Checked (List Int) :=
  n.views.toList.mapM fun v => Width.value.add (b.entry v.domain).min v.offset

/-- The value of every variable in a box, if each shared domain has just one. -/
def values (n : Network) (b : Box) : Checked (Option (List Int)) :=
  if b.isFixed then (n.lowest b).map some else .ok none

end Network
end BoundsSolver
