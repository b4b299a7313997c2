/-
# What a search counts

The counters of one search add up over several searches, except for the depth,
of which the greatest counts.
-/

namespace BoundsSolver

/-- The counters of a search. -/
structure Statistics where
  /-- Runs to a fixpoint. -/
  filters : Nat
  propagatorCalls : Nat
  /-- Calls of propagators that changed no bound. -/
  noOpCalls : Nat
  /-- Calls of propagators that ended in a failure. -/
  inconsistencies : Nat
  /-- Propagators found to be entailed. -/
  entailments : Nat
  /-- Choice points taken back. -/
  backtracks : Nat
  /-- Decisions taken. -/
  choices : Nat
  /-- The greatest number of choice points at once. -/
  maxDepth : Nat
  solutions : Nat
  /-- Values tried while shaving. -/
  shavingTrials : Nat
  /-- Values removed by shaving. -/
  shavedValues : Nat
  deriving DecidableEq, Repr

namespace Statistics

def zero : Statistics := ⟨0, 0, 0, 0, 0, 0, 0, 0, 0, 0, 0⟩

instance : Inhabited Statistics := ⟨zero⟩

/-- The counters of two searches together. -/
def merge (s t : Statistics) : Statistics :=
  { filters := s.filters + t.filters
    propagatorCalls := s.propagatorCalls + t.propagatorCalls
    noOpCalls := s.noOpCalls + t.noOpCalls
    inconsistencies := s.inconsistencies + t.inconsistencies
    entailments := s.entailments + t.entailments
    backtracks := s.backtracks + t.backtracks
    choices := s.choices + t.choices
    maxDepth := max s.maxDepth t.maxDepth
    solutions := s.solutions + t.solutions
    shavingTrials := s.shavingTrials + t.shavingTrials
    shavedValues := s.shavedValues + t.shavedValues }

/-- Notes how many choice points there are. -/
def recordDepth (s : Statistics) (depth : Nat) : Statistics :=
  { s with maxDepth := max s.maxDepth depth }

/-- The counters under their names, in the order of reports. -/
def entries (s : Statistics) : List (String × Nat) :=
  [("filters", s.filters),
   ("propagator calls", s.propagatorCalls),
   ("no-op calls", s.noOpCalls),
   ("inconsistencies", s.inconsistencies),
   ("entailments", s.entailments),
   ("backtracks", s.backtracks),
   ("choices", s.choices),
   ("max depth", s.maxDepth),
   ("solutions", s.solutions),
   ("shaving trials", s.shavingTrials),
   ("shaved values", s.shavedValues)]

/-- The names of the counters. -/
def labels : List String := zero.entries.map Prod.fst

end Statistics
end BoundsSolver
