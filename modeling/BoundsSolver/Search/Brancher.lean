/-
# Branchers

A brancher chooses the decisions of a search.  It may keep a state of its own,
of any type, which it sees again at the next decision and which the search tells
of solutions and of backtracks; it may also draw from the generator of the
search.  Where a brancher has no decision to offer, the search takes its own.

`Strategy.brancher` picks a shared domain by one rule and splits it by another.
-/

import BoundsSolver.Problem.Network
import BoundsSolver.Search.Log
import BoundsSolver.Search.Random

namespace BoundsSolver

/-- How the decisions of a search are chosen, with a state of type `σ`. -/
structure Brancher (σ : Type) where
  /-- The next decision, if there is one to offer. -/
  next : σ → Box → Generator → Checked (Option Decision × σ × Generator)
  onBacktrack : σ → σ
  onSolution : σ → List Int → σ
  /-- The statistics of the brancher itself. -/
  statistics : σ → List (String × Nat)

namespace VariableOrder

/-- The listed shared domains that are not fixed, with their sizes. -/
def unfixed (b : Box) : List DomainId → Checked (List (DomainId × Nat))
  | [] => .ok []
  | d :: ds => do
    let i ← b.get d
    let rest ← unfixed b ds
    return if i.isFixed then rest else (d, i.size) :: rest

/-- The first of the listed shared domains that is not fixed. -/
def firstUnfixed (b : Box) : List DomainId → Checked (Option DomainId)
  | [] => .ok none
  | d :: ds => do
    let i ← b.get d
    if i.isFixed then firstUnfixed b ds else return some d

/-- The first of the candidates that none of the others beats. -/
def firstBest (beats : Nat → Nat → Bool) : List (DomainId × Nat) → Option DomainId
  | [] => none
  | c :: cs => some (cs.foldl (fun best d => if beats d.2 best.2 then d else best) c).1

/-- The shared domain to decide on, none if all that are listed are fixed. -/
def select (o : VariableOrder) (ds : List DomainId) (b : Box) : Checked (Option DomainId) :=
  match o with
  | .inputOrder => firstUnfixed b ds
  | .firstFail => (unfixed b ds).map (firstBest fun size best => decide (size < best))
  | .antiFirstFail => (unfixed b ds).map (firstBest fun size best => decide (best < size))

end VariableOrder

/-- How a shared domain is split. -/
inductive ValueOrder where
  /-- The least value first. -/
  | inDomainMin
  /-- The greatest value first. -/
  | inDomainMax
  /-- The lower half first. -/
  | inDomainSplit
  /-- Either side of a random value first. -/
  | randomSplitter
  deriving DecidableEq, Repr, Inhabited

/-- The decision that splits a shared domain. -/
def ValueOrder.choose (o : ValueOrder) (b : Box) (d : DomainId) (g : Generator) :
    Checked (Decision × Generator) := do
  let i ← b.get d
  match o with
  | .inDomainMin => return (.atMost d i.min, g)
  | .inDomainMax => return (.atLeast d i.max, g)
  | .inDomainSplit => return (.atMost d (Int.fdiv (i.min + i.max) 2), g)
  | .randomSplitter => do
    let (pivot, g) ← g.valueIn i.min i.max
    let (lowerFirst, g) := g.coin
    if lowerFirst then return (.atMost d pivot, g)
    else return (.atLeast d (← Width.value.add pivot 1), g)

/-- A rule that picks a shared domain from a list, and one that splits it. -/
structure Strategy where
  order : VariableOrder
  domains : List DomainId
  values : ValueOrder
  deriving DecidableEq, Repr

namespace Strategy

/-- What to tell about a strategy: that it has nothing to decide on. -/
def advice (s : Strategy) : List Event :=
  if s.domains.isEmpty then [.noVariables s.order] else []

/-- The next decision, none if all listed shared domains are fixed. -/
def choose (s : Strategy) (b : Box) (g : Generator) : Checked (Option Decision × Generator) := do
  match ← s.order.select s.domains b with
  | none => return (none, g)
  | some d => do
    let (decision, g) ← s.values.choose b d g
    return (some decision, g)

/-- The brancher that follows the strategy; it needs no state. -/
def brancher (s : Strategy) : Brancher Unit where
  next := fun _ b g => do
    let (decision, g) ← s.choose b g
    return (decision, (), g)
  onBacktrack := id
  onSolution := fun _ _ => ()
  statistics := fun _ => []

/-- All shared domains in the order of creation, the least value first. -/
def default (b : Box) : Strategy := ⟨.inputOrder, b.keys, .inDomainMin⟩

end Strategy

/-- Where decisions come from: a strategy, or a list that is followed to its end. -/
inductive Plan where
  | strategy (strategy : Strategy)
  | script (decisions : List (Option Decision))
  deriving DecidableEq, Repr

namespace Plan

/-- What to tell about a plan. -/
def advice : Plan → List Event
  | .strategy s => s.advice
  | .script _ => []

/-- Follows a plan; the state is what is left of it. -/
def brancher : Brancher Plan where
  next := fun plan b g =>
    match plan with
    | .strategy s => do
      let (decision, g) ← s.choose b g
      return (decision, .strategy s, g)
    | .script [] => .ok (none, .script [], g)
    | .script (decision :: rest) => .ok (decision, .script rest, g)
  onBacktrack := id
  onSolution := fun plan _ => plan
  statistics := fun _ => []

end Plan

/-- What a search asks and tells its brancher. -/
inductive Exchange where
  | asked (answer : Option Decision)
  | backtracked
  | solved (values : List Int)
  deriving DecidableEq, Repr

def Exchange.text : Exchange → String
  | .asked none => "none"
  | .asked (some d) => d.display
  | .backtracked => "backtrack"
  | .solved values => "solution [" ++ ",".intercalate (values.map toString) ++ "]"

namespace Brancher

/-- A brancher that also keeps what the search asks and tells it, the latest first. -/
def recording {σ : Type} (b : Brancher σ) : Brancher (σ × List Exchange) where
  next := fun (s, record) box g => do
    let (decision, s, g) ← b.next s box g
    return (decision, (s, .asked decision :: record), g)
  onBacktrack := fun (s, record) => (b.onBacktrack s, .backtracked :: record)
  onSolution := fun (s, record) values => (b.onSolution s values, .solved values :: record)
  statistics := fun (s, record) => b.statistics s ++ [("events", record.length)]

end Brancher
end BoundsSolver
