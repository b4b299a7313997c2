/-
# Lines of a text

A text that is written as a line of its own fills several lines if line ends
stand in it.  A carriage return before a line end belongs to the line end.
-/

namespace BoundsSolver
namespace Lines

/-- A line without the carriage return at its end. -/
def trimReturn (line : List Char) : List Char :=
  if line.getLast? = some '\r' then line.dropLast else line

/-- The lines of a text of whose first line `line` has been read. -/
def linesFrom (line : List Char) : List Char → List (List Char)
  | [] => [trimReturn line]
  | c :: cs =>
    if c = '\n' then trimReturn line :: linesFrom [] cs else linesFrom (line ++ [c]) cs

/-- The lines that a text fills with a line end behind it. -/
def fill (text : String) : List String := (linesFrom [] text.toList).map String.ofList

end Lines
end BoundsSolver
