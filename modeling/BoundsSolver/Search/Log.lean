/-
# What a search tells about itself

Events are kept as data; their texts are made only where they are shown.  A log
keeps the events up to a level of detail and drops the others.
-/

import BoundsSolver.Constraint.Basic

namespace BoundsSolver

/-- How much detail an event adds. -/
inductive Level where
  | error
  | warn
  | info
  | debug
  | trace
  deriving DecidableEq, Repr

namespace Level

/-- The position of the level, from the least to the most detailed. -/
def detail : Level → Nat
  | .error => 1
  | .warn => 2
  | .info => 3
  | .debug => 4
  | .trace => 5

def name : Level → String
  | .error => "ERROR"
  | .warn => "WARN"
  | .info => "INFO"
  | .debug => "DEBUG"
  | .trace => "TRACE"

end Level

/-- The orders in which a brancher picks shared domains. -/
inductive VariableOrder where
  /-- The first that is not fixed. -/
  | inputOrder
  /-- The first of those with the fewest values. -/
  | firstFail
  /-- The first of those with the most values. -/
  | antiFirstFail
  deriving DecidableEq, Repr, Inhabited

def VariableOrder.name : VariableOrder → String
  | .inputOrder => "InputOrder"
  | .firstFail => "FirstFail"
  | .antiFirstFail => "AntiFirstFail"

/-- What happens during a search. -/
inductive Event where
  | noVariables (order : VariableOrder)
  | inconsistent (constraint : Constraint) (id : PropagatorId)
  | shaving (value : Int) (domain : DomainId)
  | decision (decision : Decision) (depth : Nat)
  | backtracked (depth : Nat)
  | solution (number depth : Nat)
  | objective (value : Int)
  | noWorkers
  | workerStarted (worker : Nat) (range : Interval)
  | limitReached
  | workerFailed (worker : Nat) (reason : String)
  deriving DecidableEq, Repr

namespace Event

def level : Event → Level
  | .noVariables _ => .warn
  | .inconsistent _ _ => .trace
  | .shaving _ _ => .trace
  | .decision _ _ => .trace
  | .backtracked _ => .trace
  | .solution _ _ => .debug
  | .objective _ => .debug
  | .noWorkers => .warn
  | .workerStarted _ _ => .debug
  | .limitReached => .debug
  | .workerFailed _ _ => .warn

def text : Event → String
  | .noVariables order =>
    s!"The {order.name} variable selector was not provided with any variables"
  | .inconsistent c id => s!"{c.name} (PropagatorId({id.index})) is inconsistent"
  | .shaving value d => s!"shaving {value} from {d.display}"
  | .decision d depth => s!"decision {d.display} at depth {depth}"
  | .backtracked depth => s!"backtracked to depth {depth}"
  | .solution number depth => s!"solution {number} at depth {depth}"
  | .objective value => s!"found solution with objective value {value}"
  | .noWorkers => "The split variable has an empty domain, no workers are started"
  | .workerStarted worker range => s!"starting worker {worker} on {range.display}"
  | .limitReached => "solution limit reached, stopping the workers"
  | .workerFailed worker reason => s!"worker {worker} failed: {reason}"

/-- The level and the text. -/
def line (e : Event) : String := s!"{e.level.name} {e.text}"

end Event

/-- The events up to a level of detail. -/
structure Log where
  /-- The most detail that is kept; without it nothing is. -/
  threshold : Option Level
  /-- The events that were kept, the latest first. -/
  latest : List Event
  deriving DecidableEq, Repr

namespace Log

def off : Log := ⟨none, []⟩

def upTo (level : Level) : Log := ⟨some level, []⟩

instance : Inhabited Log := ⟨off⟩

/-- Whether events of the level are kept. -/
def keeps (l : Log) (level : Level) : Bool :=
  match l.threshold with
  | none => false
  | some most => decide (level.detail ≤ most.detail)

/-- The events that were kept, in the order in which they happened. -/
def events (l : Log) : List Event := l.latest.reverse

/-- Appends an event, if it is to be kept. -/
def add (l : Log) (e : Event) : Log :=
  if l.keeps e.level then { l with latest := e :: l.latest } else l

def addAll (l : Log) (es : List Event) : Log := es.foldl add l

/-- The log without what it holds so far. -/
def cleared (l : Log) : Log := { l with latest := [] }

def lines (l : Log) : List String := l.events.map Event.line

end Log
end BoundsSolver
