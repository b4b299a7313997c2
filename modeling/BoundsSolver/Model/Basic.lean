/-
# Models

A model turns the parameters of an instance into a problem and knows what its
variables stand for.  Here is what the models share: how an instance is refused,
and the pairs of positions that their constraints range over.
-/

import BoundsSolver.Problem.Basic

namespace BoundsSolver

/-- The kinds of instances that can be modelled. -/
inductive ModelKind where
  | queens
  | golombRuler
  | blockDesign
  deriving DecidableEq, Repr

def ModelKind.name : ModelKind → String
  | .queens => "n-queens"
  | .golombRuler => "Golomb ruler"
  | .blockDesign => "BIBD"

/-- What is wrong with the parameters of an instance. -/
inductive InstanceFlaw where
  | tooLarge (parameter : Nat)
  | tooFewMarks
  | tooManyMarks
  | emptyDesign
  deriving DecidableEq, Repr

def InstanceFlaw.reason : InstanceFlaw → String
  | .tooLarge parameter => s!"{parameter} is too large"
  | .tooFewMarks => "a ruler needs at least two marks"
  | .tooManyMarks => "too many marks"
  | .emptyDesign => "there has to be at least one object and one block"

/-- Why a model cannot be built. -/
inductive ModelError where
  | invalidInstance (kind : ModelKind) (flaw : InstanceFlaw)
  /-- The problem refuses a variable or a constraint of the model. -/
  | build (error : BuildError)
  deriving DecidableEq, Repr

/-- The text that reports why. -/
def ModelError.message : ModelError → String
  | .invalidInstance kind flaw => s!"invalid {kind.name} instance: {flaw.reason}"
  | .build error => error.message

/-- A parameter of an instance as a value of the solver. -/
def ModelKind.parameter (kind : ModelKind) (n : Nat) : Except ModelError Int :=
  if Width.value.Fits n then .ok n else .error (.invalidInstance kind (.tooLarge n))

/-- The pairs `i < j` of positions below `n`, ordered by `i` and then by `j`. -/
def pairs (n : Nat) : List (Nat × Nat) :=
  (List.range n).flatMap fun i => (List.range' (i + 1) (n - (i + 1))).map fun j => (i, j)

theorem mem_pairs {n i j : Nat} : (i, j) ∈ pairs n ↔ i < j ∧ j < n := by
  simp only [pairs, List.mem_flatMap, List.mem_range, List.mem_map, List.mem_range'_1,
    Prod.mk.injEq]
  constructor
  · rintro ⟨a, ha, b, hb, rfl, rfl⟩; omega
  · rintro ⟨hij, hjn⟩; exact ⟨i, by omega, j, by omega, rfl, rfl⟩

end BoundsSolver
