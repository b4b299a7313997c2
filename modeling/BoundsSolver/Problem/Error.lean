/-
# Why a problem cannot be built

Everything that is wrong with a call that builds a problem is reported by that
call; a problem that was built needs no further checks.
-/

import BoundsSolver.Constraint.Basic

namespace BoundsSolver

/-- The variables a constraint needs. -/
inductive VariableNeed where
  | oneVariable
  | conjunctAndResult
  | elementIndexAndValue
  | equalHalves
  | variableAndMaximum
  deriving DecidableEq, Repr

namespace VariableNeed

def reason : VariableNeed → String
  | .oneVariable => "at least one variable is required"
  | .conjunctAndResult => "at least one conjunct and a result are required"
  | .elementIndexAndValue => "at least one element, an index and a value are required"
  | .equalHalves => "two non-empty sequences of equal length are required"
  | .variableAndMaximum => "at least one variable and a maximum are required"

/-- Whether so many variables will do. -/
def metBy : VariableNeed → Nat → Bool
  | .oneVariable, n => decide (1 ≤ n)
  | .conjunctAndResult, n => decide (2 ≤ n)
  | .elementIndexAndValue, n => decide (3 ≤ n)
  | .equalHalves, n => decide (n ≠ 0 ∧ n % 2 = 0)
  | .variableAndMaximum, n => decide (2 ≤ n)

end VariableNeed

/-- What is wrong with the variables or parameters of a constraint. -/
inductive ParameterFlaw where
  | notTruthValues
  | countOutOfRange
  deriving DecidableEq, Repr

def ParameterFlaw.reason : ParameterFlaw → String
  | .notTruthValues => "every variable must have a domain within [0, 1]"
  | .countOutOfRange => "the count must be between zero and the number of variables"

/-- Why a call that builds a problem is refused. -/
inductive BuildError where
  | variableOutOfRange (index count : Nat)
  | domainOutOfRange (index count : Nat)
  | parameterCount (constraint : Constraint) (expected actual : Nat)
  | variableCount (constraint : Constraint) (actual : Nat) (need : VariableNeed)
  | invalidParameter (constraint : Constraint) (flaw : ParameterFlaw)
  | emptyRestriction (initial : Interval)
  | offsetOutOfRange (initial : Interval) (offset : Int)
  deriving DecidableEq, Repr

/-- The text that reports a refusal. -/
def BuildError.message : BuildError → String
  | .variableOutOfRange index count =>
    s!"variable index {index} is out of range, the problem has {count} variables"
  | .domainOutOfRange index count =>
    s!"shared domain index {index} is out of range, the problem has {count} shared domains"
  | .parameterCount c expected actual =>
    s!"{c.name} expects {expected} parameters but {actual} were provided"
  | .variableCount c actual need =>
    s!"{c.name} cannot be posted over {actual} variables: {need.reason}"
  | .invalidParameter c flaw => s!"invalid parameters for {c.name}: {flaw.reason}"
  | .emptyRestriction i =>
    s!"the initial domain {i.display} cannot be restricted to an empty interval"
  | .offsetOutOfRange i offset =>
    s!"the shared domain {i.display} shifted by {offset} does not fit in an i32"

namespace Constraint

/-- Refuses parameters of the wrong number. -/
def expectParameters (c : Constraint) (parameters : List Int) (expected : Nat) :
    Except BuildError Unit :=
  if parameters.length = expected then .ok ()
  else .error (.parameterCount c expected parameters.length)

/-- Refuses variables of the wrong number. -/
def expectVariables (c : Constraint) (bounds : List Interval) (need : VariableNeed) :
    Except BuildError Unit :=
  if need.metBy bounds.length then .ok ()
  else .error (.variableCount c bounds.length need)

/-- Checks what a constraint is posted with, given the bounds of its variables. -/
def validate (c : Constraint) (bounds : List Interval) (parameters : List Int) :
    Except BuildError Unit :=
  match c with
  | .allDifferent => do
    c.expectParameters parameters 0
    c.expectVariables bounds .oneVariable
  | .affineEq | .affineLeq => do
    c.expectVariables bounds .oneVariable
    c.expectParameters parameters (bounds.length + 1)
  | .andEq => do
    c.expectParameters parameters 0
    c.expectVariables bounds .conjunctAndResult
    if bounds.all (·.isWithin ⟨0, 1⟩) then .ok ()
    else .error (.invalidParameter c .notTruthValues)
  | .elementEq => do
    c.expectParameters parameters 0
    c.expectVariables bounds .elementIndexAndValue
  | .exactlyEq => do
    c.expectParameters parameters 2
    let count := parameters.getD 1 0
    if 0 ≤ count ∧ count ≤ bounds.length then .ok ()
    else .error (.invalidParameter c .countOutOfRange)
  | .lexicographicLeq => do
    c.expectParameters parameters 0
    c.expectVariables bounds .equalHalves
  | .maxEq => do
    c.expectParameters parameters 0
    c.expectVariables bounds .variableAndMaximum

end Constraint
end BoundsSolver
