/-
# Queens that do not attack each other

One queen stands in every row of the board; its variable is the column.  Two more
variables for each row number the diagonals through the queen: column plus row,
and column minus row.  The columns are all different, and so are the diagonals of
either direction.
-/

import BoundsSolver.Model.Basic

namespace BoundsSolver

/-- The model of a board with as many queens as rows. -/
structure Queens where
  size : Nat
  problem : Problem

namespace Queens

/-- The column of the queen in a row. -/
def queen (row : Nat) : VariableId := ⟨row⟩

/-- Column plus row. -/
def rising (n row : Nat) : VariableId := ⟨n + 2 * row⟩

/-- Column minus row. -/
def falling (n row : Nat) : VariableId := ⟨n + 2 * row + 1⟩

/-- Adds the two diagonals of each row. -/
def addDiagonals (p : Problem) : List Nat → Except Refusal Problem
  | [] => .ok p
  | row :: rows => do
    let (_, p) ← p.addOffsetVariable ⟨row⟩ row
    let (_, p) ← p.addOffsetVariable ⟨row⟩ (-row)
    addDiagonals p rows

/-- Columns and diagonals are different; on an empty board there is nothing to say. -/
def postings (n : Nat) : List Posting :=
  if n = 0 then []
  else [⟨.allDifferent, (List.range n).map queen, []⟩,
    ⟨.allDifferent, (List.range n).map (rising n), []⟩,
    ⟨.allDifferent, (List.range n).map (falling n), []⟩]

/-- The model for a size of the board. -/
def ofSize (n : Nat) : Except ModelError Queens := do
  let size ← ModelKind.queens.parameter n
  let p := Problem.ofIntervals (List.replicate n ⟨0, size - 1⟩)
  let p ← (addDiagonals p (List.range n)).mapError (.build ·.cause)
  let p ← (p.post (postings n)).mapError (.build ·.cause)
  return ⟨n, p⟩

/-- The variables of the columns, row by row. -/
def queens (m : Queens) : List VariableId := (List.range m.size).map queen

/-- The columns of the queens in a solution, row by row. -/
def columns (m : Queens) (values : List Int) : Checked (List Int) :=
  m.queens.mapM fun x => x.valueIn values

/-- The line between two rows of a board. -/
def separator (n : Nat) : String := String.join (List.replicate n "+---") ++ "+"

/-- A row of a board with a queen in one column. -/
def rowLine (n : Nat) (column : Int) : String :=
  String.join ((List.range n).map fun c : Nat => if column = c then "| * " else "|   ") ++ "|"

/-- A board, line by line, with queens in the given columns. -/
def board (columns : List Int) : List String :=
  let n := columns.length
  columns.flatMap (fun column => [separator n, rowLine n column]) ++ [separator n]

end Queens
end BoundsSolver
