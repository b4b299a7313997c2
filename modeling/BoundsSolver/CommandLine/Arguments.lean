/-
# The arguments of the command line

Options stand in front of the command, the parameters of the command behind it.
An option takes its value from the same word, as in `--workers=2`, `-w=2` or
`-w2`, or from the next one, which must not look like an option; flags of one
letter may share a word.  No option may be given twice.  Behind `--` the words
after a command are parameters whatever they look like.

The words are read from left to right, and the first that makes no sense, or the
request for the version, settles the answer.
-/

import BoundsSolver.Model.BlockDesign
import BoundsSolver.Search.Optimisation
import BoundsSolver.Text.Numeral

namespace BoundsSolver

/-- What is to be solved. -/
inductive Command where
  | queens (size : Nat)
  | golomb (marks : Nat)
  | bibd (parameters : DesignParameters)
  deriving DecidableEq, Repr

/-- The options that take a value. -/
inductive OptionName where
  | consistency
  | optimisationMode
  | workers
  | solutionLimit
  | choicePointCapacity
  | randomSeed
  deriving DecidableEq, Repr

/-- The options that take none. -/
inductive FlagName where
  | allSolutions
  | countOnly
  | verbose
  | logStatistics
  deriving DecidableEq, Repr

/-- An option, a flag, or the request for the version. -/
inductive Switch where
  | option (name : OptionName)
  | flag (name : FlagName)
  | version
  deriving DecidableEq, Repr

namespace Switch

/-- The switch of a long name. -/
def ofLong? : String → Option Switch
  | "consistency" => some (.option .consistency)
  | "optimisation-mode" => some (.option .optimisationMode)
  | "workers" => some (.option .workers)
  | "solution-limit" => some (.option .solutionLimit)
  | "choice-point-capacity" => some (.option .choicePointCapacity)
  | "random-seed" => some (.option .randomSeed)
  | "all-solutions" => some (.flag .allSolutions)
  | "count-only" => some (.flag .countOnly)
  | "verbose" => some (.flag .verbose)
  | "log-statistics" => some (.flag .logStatistics)
  | "version" => some .version
  | _ => none

/-- The switch of a single letter. -/
def ofLetter? : Char → Option Switch
  | 'w' => some (.option .workers)
  | 'a' => some (.flag .allSolutions)
  | 'v' => some (.flag .verbose)
  | 's' => some (.flag .logStatistics)
  | 'V' => some .version
  | _ => none

end Switch

/-- The options given so far. -/
structure Settings where
  consistency : Option Consistency
  optimisationMode : Option OptimisationMode
  workers : Option Nat
  solutionLimit : Option Nat
  choicePointCapacity : Option Nat
  randomSeed : Option Nat
  flags : List FlagName
  deriving DecidableEq, Repr

namespace Settings

/-- No option is given. -/
def start : Settings := ⟨none, none, none, none, none, none, []⟩

/-- Reads a number of 64 bits. -/
def number? (text : String) : Option Nat :=
  (Numeral.unsigned? text).filter fun n => decide (Width.index.Fits n)

def consistency? : String → Option Consistency
  | "bounds" => some .bounds
  | "shaving" => some .shaving
  | _ => none

def optimisationMode? : String → Option OptimisationMode
  | "reset" => some .reset
  | "prune" => some .prune
  | _ => none

/-- The value of an option that has none yet. -/
def once {α : Type} (given : Option α) (value : Option α) : Option α :=
  if given.isSome then none else value

/-- Gives an option a value, unless it has one or the value makes no sense. -/
def give (s : Settings) (name : OptionName) (text : String) : Option Settings :=
  match name with
  | .consistency =>
    (once s.consistency (consistency? text)).map fun v => { s with consistency := some v }
  | .optimisationMode =>
    (once s.optimisationMode (optimisationMode? text)).map fun v =>
      { s with optimisationMode := some v }
  | .workers => (once s.workers (number? text)).map fun v => { s with workers := some v }
  | .solutionLimit =>
    (once s.solutionLimit (number? text)).map fun v => { s with solutionLimit := some v }
  | .choicePointCapacity =>
    (once s.choicePointCapacity (number? text)).map fun v =>
      { s with choicePointCapacity := some v }
  | .randomSeed => (once s.randomSeed (number? text)).map fun v => { s with randomSeed := some v }

/-- Raises a flag, unless it is raised. -/
def raise (s : Settings) (name : FlagName) : Option Settings :=
  if s.flags.contains name then none else some { s with flags := name :: s.flags }

end Settings

/-- The options and the command of a run. -/
structure Arguments where
  settings : Settings
  command : Command
  deriving DecidableEq, Repr

/-- What the words of a command line come to. -/
inductive Parsed where
  | run (arguments : Arguments)
  | version
  | misuse
  deriving DecidableEq, Repr

/-- What the switches of one word come to. -/
inductive Switched where
  | settings (settings : Settings)
  /-- The value of the last option is the next word. -/
  | awaiting (settings : Settings) (name : OptionName)
  | version
  | misuse
  deriving DecidableEq, Repr

namespace Switched

/-- The settings, if there are any. -/
def ofSettings : Option Settings → Switched
  | some s => .settings s
  | none => .misuse

/-- The value that stands behind the letter of an option. -/
def attached : List Char → String
  | '=' :: cs => .ofList cs
  | cs => .ofList cs

/-- Reads switches of one letter. -/
def letters (s : Settings) : List Char → Switched
  | [] => .settings s
  | c :: cs =>
    match Switch.ofLetter? c with
    | none => .misuse
    | some .version => .version
    | some (.flag name) =>
      match s.raise name with
      | none => .misuse
      | some s => letters s cs
    | some (.option name) =>
      if cs.isEmpty then .awaiting s name else ofSettings (s.give name (attached cs))

/-- Reads a switch of a long name, with a value or without. -/
def long (s : Settings) (text : List Char) : Switched :=
  let name := String.ofList (text.takeWhile (· != '='))
  let value := text.dropWhile (· != '=')
  match Switch.ofLong? name, value with
  | some (.option name), [] => .awaiting s name
  | some (.option name), _ :: value => ofSettings (s.give name (.ofList value))
  | some (.flag name), [] => ofSettings (s.raise name)
  | some .version, [] => .version
  | _, _ => .misuse

/-- Reads a word that looks like switches; any other word makes no sense here. -/
def ofWord (s : Settings) (word : String) : Switched :=
  match word.toList with
  | ['-', '-'] => .misuse
  | '-' :: '-' :: text => long s text
  | '-' :: c :: cs => letters s (c :: cs)
  | _ => .misuse

end Switched

/-- The word cannot be a value or a parameter. -/
def looksLikeSwitch (word : String) : Bool :=
  match word.toList with
  | '-' :: _ :: _ => true
  | _ => false

namespace Command

/-- The parameters of a command; behind `--`, everything is one. -/
def parameters : Bool → List String → Option (List String)
  | _, [] => some []
  | true, word :: words => (parameters true words).map (word :: ·)
  | false, word :: words =>
    if word = "--" then parameters true words
    else if looksLikeSwitch word then none
    else (parameters false words).map (word :: ·)

/-- Reads a number of 32 bits. -/
def number? (text : String) : Option Nat :=
  match Numeral.signed? text with
  | some n => if 0 ≤ n ∧ n ≤ 4294967295 then some n.toNat else none
  | none => none

/-- The command of a name and its parameters. -/
def of? (name : String) (words : List String) : Option Command := do
  let numbers ← (← parameters false words).mapM number?
  match name, numbers with
  | "queens", [size] => some (.queens size)
  | "golomb", [marks] => some (.golomb marks)
  | "bibd", [v, b, r, k, lambda] => some (.bibd ⟨v, b, r, k, lambda⟩)
  | _, _ => none

end Command

namespace Arguments

/-- Reads options up to a command, and the command. -/
def parseFrom (s : Settings) : List String → Parsed
  | [] => .misuse
  | word :: words =>
    if looksLikeSwitch word then
      match Switched.ofWord s word with
      | .settings s => parseFrom s words
      | .version => .version
      | .misuse => .misuse
      | .awaiting s name =>
        match words with
        | [] => .misuse
        | value :: words =>
          if looksLikeSwitch value then .misuse
          else
            match s.give name value with
            | some s => parseFrom s words
            | none => .misuse
    else
      match Command.of? word words with
      | some command => .run ⟨s, command⟩
      | none => .misuse

/-- Reads the words of a command line. -/
def parse (words : List String) : Parsed := parseFrom .start words

def has (a : Arguments) (name : FlagName) : Bool := a.settings.flags.contains name

/-- The number of workers, one if it is not given. -/
def workers (a : Arguments) : Nat := a.settings.workers.getD 1

/-- How an optimisation goes on, from where it is if nothing else is given. -/
def optimisationMode (a : Arguments) : OptimisationMode := a.settings.optimisationMode.getD .prune

/-- The options of the solver, each its default if it is not given. -/
def options (a : Arguments) : Options :=
  { consistency := a.settings.consistency.getD Options.default.consistency
    capacity := a.settings.choicePointCapacity.getD Options.default.capacity
    seed := (a.settings.randomSeed.map UInt64.ofNat).getD Options.default.seed }

/-- The number of solutions to look for: one, unless all are asked for. -/
def limit (a : Arguments) : Option Nat :=
  if a.has .allSolutions then a.settings.solutionLimit else some 1

end Arguments
end BoundsSolver
