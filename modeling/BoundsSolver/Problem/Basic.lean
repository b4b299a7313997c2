/-
# Building a problem

A problem is a network together with the current intervals of the shared
domains.  Shared domains, variables and propagators are added one by one, and
each addition hands out an identifier; bounds can be narrowed for the time
being, or for good with `restrictInitial`.

Every call returns the problem as it is afterwards.  A call that is refused says
why, in a `Refusal`, and returns a problem as well: what is checked is checked
before anything is changed, so that it is the problem of the caller.
-/

import BoundsSolver.Problem.Error
import BoundsSolver.Problem.Network

namespace BoundsSolver

/-- A constraint with the variables and parameters it is posted with. -/
structure Posting where
  constraint : Constraint
  arguments : List VariableId
  parameters : List Int
  deriving DecidableEq, Repr

/-- A network of constraints and the current intervals of its shared domains. -/
structure Problem where
  network : Network
  current : Box
  deriving DecidableEq, Inhabited

/-- A call that was refused: why, and the problem after it. -/
structure Refusal where
  cause : BuildError
  problem : Problem
  deriving DecidableEq

/-- A refusal is reported by its cause. -/
instance : Coe Refusal BuildError := ⟨Refusal.cause⟩

namespace Problem

/-- The problem without shared domains, variables and propagators. -/
def empty : Problem := ⟨.empty, .empty⟩

def numDomains (p : Problem) : Nat := p.current.size

def numVariables (p : Problem) : Nat := p.network.views.size

def numPropagators (p : Problem) : Nat := p.network.propagators.size

/-- Adds a variable with a shared domain of its own. -/
def addVariable (p : Problem) (i : Interval) : VariableId × Problem :=
  let ⟨⟨initial, views, propagators, subscribers⟩, current⟩ := p
  let (d, current) := current.push i
  let (x, views) := views.push ⟨d, 0⟩
  let network := ⟨(initial.push i).2, views, propagators, (subscribers.push ⟨[], []⟩).2⟩
  (x, ⟨network, current⟩)

/-- Adds a variable for each interval, in order. -/
def addVariables (p : Problem) : List Interval → List VariableId × Problem
  | [] => ([], p)
  | i :: is =>
    let (x, p) := p.addVariable i
    let (xs, p) := p.addVariables is
    (x :: xs, p)

/-- The problem with one variable for each interval and no propagators. -/
def ofIntervals (is : List Interval) : Problem := (empty.addVariables is).2

/-- Adds a variable that takes the value of a shared domain plus an offset, which
must not move the initial domain out of the range of values. -/
def addOffsetVariable (p : Problem) (d : DomainId) (offset : Int) :
    Except Refusal (VariableId × Problem) :=
  match p.network.initial.get? d with
  | none => .error ⟨.domainOutOfRange d.index p.numDomains, p⟩
  | some i =>
    if Width.value.Fits (i.min + offset) ∧ Width.value.Fits (i.max + offset) then
      let (x, views) := p.network.views.push ⟨d, offset⟩
      .ok (x, { p with network := { p.network with views } })
    else .error ⟨.offsetOutOfRange i offset, p⟩

/-- Subscribes a propagator to the bounds of each of its variables. -/
def subscribeAll (id : PropagatorId) :
    List (View × Triggers) → Keyed DomainId Subscribers → Keyed DomainId Subscribers
  | [], subscribers => subscribers
  | (v, t) :: rest, subscribers =>
    subscribeAll id rest (subscribers.modify v.domain (·.subscribe t id))

/-- The views of variables, or the first variable that does not exist. -/
def viewsOf (p : Problem) : List VariableId → Except BuildError (List View)
  | [] => .ok []
  | x :: xs =>
    match p.network.views.get? x with
    | none => .error (.variableOutOfRange x.index p.numVariables)
    | some v => do
      let vs ← p.viewsOf xs
      return v :: vs

/-- Posts a constraint over variables, which are checked with their initial bounds. -/
def addPropagator (p : Problem) (xs : List VariableId) (c : Constraint) (parameters : List Int) :
    Except Refusal (PropagatorId × Problem) := do
  let views ← (p.viewsOf xs).mapError (⟨·, p⟩)
  (c.validate (views.map (·.read p.network.initial)) parameters).mapError (⟨·, p⟩)
  let propagator := Propagator.post c views parameters
  let ⟨⟨initial, allViews, propagators, subscribers⟩, current⟩ := p
  let (id, propagators) := propagators.push propagator
  let subscribers := subscribeAll id (views.zip propagator.triggers) subscribers
  return (id, ⟨⟨initial, allViews, propagators, subscribers⟩, current⟩)

/-- Posts constraints in order, until one is refused. -/
def post (p : Problem) : List Posting → Except Refusal Problem
  | [] => .ok p
  | q :: qs => do
    let (_, p) ← p.addPropagator q.arguments q.constraint q.parameters
    p.post qs

/-- The value of every variable, if each shared domain has just one left. -/
def values (p : Problem) : Checked (Option (List Int)) := p.network.values p.current

/-- Moves a bound of a variable inwards and says whether that changed anything. -/
def setBound (p : Problem) (x : VariableId) (b : Bound) (value : Int) :
    Checked (Bool × Problem) := do
  let v ← p.network.views.get x
  let current := p.current.tighten ⟨v.domain, b, Width.value.clamp (value - v.offset)⟩
  return (decide (current ≠ p.current), { p with current })

/-- Narrows a variable to values of at least `value`. -/
def setMinValue (p : Problem) (x : VariableId) (value : Int) : Checked (Bool × Problem) :=
  p.setBound x .min value

/-- Narrows a variable to values of at most `value`. -/
def setMaxValue (p : Problem) (x : VariableId) (value : Int) : Checked (Bool × Problem) :=
  p.setBound x .max value

/-- Narrows a variable to values from `min` to `max`, for good. -/
def restrictInitial (p : Problem) (x : VariableId) (min max : Int) :
    Except Refusal Problem :=
  match p.network.views.get? x with
  | none => .error ⟨.variableOutOfRange x.index p.numVariables, p⟩
  | some v =>
    let initial := p.network.initial.entry v.domain
    let restricted := initial.tightenTo
      ⟨Width.value.clamp (min - v.offset), Width.value.clamp (max - v.offset)⟩
    if restricted.isEmpty then .error ⟨.emptyRestriction (initial.shifted v.offset), p⟩
    else .ok {
      network := { p.network with initial := p.network.initial.modify v.domain (·.tightenTo restricted) }
      current := p.current.modify v.domain (·.tightenTo restricted) }

/-- Gives every shared domain its initial interval back. -/
def reset (p : Problem) : Problem := { p with current := p.network.initial }

/-- The variable at a position. -/
def variableAt (p : Problem) (index : Nat) : Checked VariableId :=
  if index < p.numVariables then .ok ⟨index⟩ else .error (.noVariable index)

def variableIds (p : Problem) : List VariableId := p.network.views.keys

def domainIds (p : Problem) : List DomainId := p.current.keys

/-- The shared domain of a variable. -/
def domainOf (p : Problem) (x : VariableId) : Checked DomainId :=
  (p.network.views.get x).map View.domain

def offsetOf (p : Problem) (x : VariableId) : Checked Int :=
  (p.network.views.get x).map View.offset

/-- The current interval of a variable. -/
def bounds (p : Problem) (x : VariableId) : Checked Interval :=
  (p.network.views.get x).map (·.read p.current)

/-- The current interval of a shared domain. -/
def domain (p : Problem) (d : DomainId) : Checked Interval := p.current.get d

def initialDomain (p : Problem) (d : DomainId) : Checked Interval := p.network.initial.get d

/-- The constraint of a propagator. -/
def constraintOf (p : Problem) (id : PropagatorId) : Checked Constraint :=
  (p.network.propagators.get id).map Propagator.constraint

def triggersOf (p : Problem) (id : PropagatorId) : Checked (List Triggers) :=
  (p.network.propagators.get id).map Propagator.triggers

end Problem
end BoundsSolver
