/-
# Lines of statistics

A statistic is written on a line of its own, as a name and a value behind a lead.
Nothing is written before the form of the lines is settled, and it is settled
once.  A `Scope` puts a common beginning in front of the names of statistics that
belong together.
-/

import BoundsSolver.Search.Solver
import BoundsSolver.Text.Casing
import BoundsSolver.Text.Lines

namespace BoundsSolver

/-- The form of the lines. -/
structure LineForm where
  /-- What every line begins with. -/
  lead : String
  /-- The line after a block of statistics. -/
  closing : Option String
  /-- How names are written, if not as they are. -/
  casing : Option Casing
  deriving DecidableEq, Repr

namespace LineForm

/-- The name and the value behind the lead. -/
def line (f : LineForm) (name : String) (value : Int) : String :=
  let name := match f.casing with
    | none => name
    | some casing => casing.apply name
  s!"{f.lead} {name}={value}"

end LineForm

/-- The lines written so far, in a form that may still be open. -/
structure StatisticLines where
  form : Option LineForm
  lines : List String
  deriving DecidableEq, Repr

namespace StatisticLines

/-- Nothing is written, and the form is open. -/
def start : StatisticLines := ⟨none, []⟩

instance : Inhabited StatisticLines := ⟨start⟩

/-- Settles the form, unless it is settled already. -/
def settle (w : StatisticLines) (f : LineForm) : StatisticLines :=
  { w with form := w.form.or (some f) }

/-- Writes a statistic, if the form is settled. -/
def write (w : StatisticLines) (name : String) (value : Int) : StatisticLines :=
  match w.form with
  | none => w
  | some f => { w with lines := w.lines ++ Lines.fill (f.line name value) }

/-- Writes statistics in order. -/
def writeAll (w : StatisticLines) (entries : List (String × Int)) : StatisticLines :=
  entries.foldl (fun w e => w.write e.1 e.2) w

/-- Ends a block of statistics. -/
def close (w : StatisticLines) : StatisticLines :=
  match w.form with
  | some ⟨_, some closing, _⟩ => { w with lines := w.lines ++ Lines.fill closing }
  | _ => w

end StatisticLines

/-- A common beginning of names. -/
structure Scope where
  path : String
  deriving DecidableEq, Repr

namespace Scope

/-- The scope that leaves names as they are. -/
def top : Scope := ⟨""⟩

def of (parts : List String) : Scope := ⟨"_".intercalate parts⟩

/-- The scope within a scope. -/
def attach (s : Scope) (part : String) : Scope :=
  if s.path.isEmpty then ⟨part⟩ else ⟨s.path ++ "_" ++ part⟩

/-- The full name of a statistic. -/
def name (s : Scope) (name : String) : String :=
  if s.path.isEmpty then name else s.path ++ "_" ++ name

/-- Statistics under their full names. -/
def entries (s : Scope) (entries : List (String × Nat)) : List (String × Int) :=
  entries.map fun e => (s.name e.1, (e.2 : Int))

end Scope

/-- The statistics of a search and those of its brancher. -/
def Solver.entries {σ : Type} (s : Solver σ) (scope : Scope) : List (String × Int) :=
  scope.entries s.state.statistics.entries ++
    (scope.attach "brancher").entries (s.brancher.statistics s.memory)

end BoundsSolver
