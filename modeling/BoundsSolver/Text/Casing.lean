/-
# Casings of names

A name is taken apart into words and put together again in another casing.  A
word ends at an underscore, a hyphen or a space, where lower case turns into
upper case, between letters and digits, and before the last capital of a run of
capitals that goes on in lower case.  Letters carry their marks with them; a
separator or a digit that carries marks is neither.
-/

import BoundsSolver.Text.Cluster
import BoundsSolver.Text.TextCase

namespace BoundsSolver

/-- How the words of a name are written and joined. -/
inductive Casing where
  /-- `TWO WORDS` -/
  | upper
  /-- `two words` -/
  | lower
  /-- `Two Words` -/
  | title
  /-- `twoWords` -/
  | camel
  /-- `TwoWords` -/
  | pascal
  /-- `two_words` -/
  | snake
  /-- `TWO_WORDS` -/
  | upperSnake
  /-- `two-words` -/
  | kebab
  /-- `Two-Words` -/
  | train
  /-- `twowords` -/
  | flat
  deriving DecidableEq, Repr

namespace Casing

/-- The cluster separates words and belongs to none. -/
def isSeparator (a : List Char) : Bool := a == ['_'] || a == ['-'] || a == [' ']

/-- The cluster is a digit. -/
def isDigit (a : List Char) : Bool := a.all Char.isDigit

/-- A word ends between the two clusters. -/
def parts (a b : List Char) : Bool :=
  TextCase.isLower a && TextCase.isUpper b
  || TextCase.isUpper a && isDigit b
  || isDigit a && TextCase.isUpper b
  || isDigit a && TextCase.isLower b
  || TextCase.isLower a && isDigit b

/-- The second of three clusters is a capital that begins a word after an acronym. -/
def endsAcronym (a b c : List Char) : Bool :=
  TextCase.isUpper a && TextCase.isUpper b && TextCase.isLower c

/-- A word begins at `b`, which stands between the other two. -/
def beginsWord (a : Option (List Char)) (b : List Char) (c : Option (List Char)) : Bool :=
  match a, c with
  | some a, some c => parts a b || endsAcronym a b c
  | some a, none => parts a b
  | none, _ => false

/-- The words of a text in clusters that follows `previous`; of the first word, `word`
has been read. -/
def wordsFrom (previous : Option (List Char)) (word : List Char) :
    List (List Char) → List (List Char)
  | [] => [word]
  | c :: cs =>
    if isSeparator c then word :: wordsFrom (some c) [] cs
    else if beginsWord previous c cs.head? then word :: wordsFrom (some c) c cs
    else wordsFrom (some c) (word ++ c) cs

/-- The words of a name, none of them empty. -/
def words (name : String) : List (List Char) :=
  (wordsFrom none [] (clusters name.toList)).filter fun word => !word.isEmpty

/-- The first character in upper case, the others, even marks of the first, in lower
case. -/
def capitalise : List Char → List Char
  | [] => []
  | c :: cs => upperCase c ++ TextCase.lower cs

/-- The words in the casing. -/
def write (casing : Casing) (words : List (List Char)) : List (List Char) :=
  match casing with
  | .upper | .upperSnake => words.map TextCase.upper
  | .lower | .snake | .kebab | .flat => words.map TextCase.lower
  | .title | .pascal | .train => words.map capitalise
  | .camel =>
    match words with
    | [] => []
    | word :: rest => TextCase.lower word :: rest.map capitalise

/-- What stands between two words. -/
def joint : Casing → String
  | .upper | .lower | .title => " "
  | .snake | .upperSnake => "_"
  | .kebab | .train => "-"
  | .camel | .pascal | .flat => ""

/-- A name in the casing. -/
def apply (casing : Casing) (name : String) : String :=
  casing.joint.intercalate ((casing.write (words name)).map String.ofList)

end Casing
end BoundsSolver
