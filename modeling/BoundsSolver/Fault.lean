/-
# Faults

A fault ends a computation without an answer: an arithmetic result that has no
representation, a position that does not exist, a request that makes no sense.
Faults are not failures of a search; a constraint that cannot be satisfied is an
answer.

`bind_eq_ok` opens a computation that is known to have come to an answer.
-/

import BoundsSolver.Decision

namespace BoundsSolver

/-- Why a computation stops without an answer. -/
inductive Fault where
  | addOverflow
  | subOverflow
  | mulOverflow
  | negOverflow
  | divOverflow
  /-- A position at or beyond the end of a sequence. -/
  | outOfBounds (size index : Nat)
  /-- A range of positions that stops beyond the end of a sequence. -/
  | rangeOutOfBounds (size stop : Nat)
  /-- A random value was requested from a range without values. -/
  | emptyRange
  | noVariable (index : Nat)
  | noDistance (first second : Nat)
  /-- A brancher took a decision that leaves one of its sides without a value. -/
  | noSplit (decision : Decision) (interval : Interval)
  /-- The bounds computed for a variable lie in the wrong order. -/
  | crossedBounds
  /-- A worker of a parallel search stopped with a fault. -/
  | workerStopped
  /-- The computation repeats itself without end. -/
  | endless
  deriving DecidableEq, Repr, Inhabited

/-- The text that reports a fault. -/
def Fault.message : Fault → String
  | .addOverflow => "attempt to add with overflow"
  | .subOverflow => "attempt to subtract with overflow"
  | .mulOverflow => "attempt to multiply with overflow"
  | .negOverflow => "attempt to negate with overflow"
  | .divOverflow => "attempt to divide with overflow"
  | .outOfBounds size index => s!"index out of bounds: the len is {size} but the index is {index}"
  | .rangeOutOfBounds size stop =>
    s!"range end index {stop} out of range for slice of length {size}"
  | .emptyRange => "cannot sample empty range"
  | .noVariable index => s!"variable {index} does not exist"
  | .noDistance first second => s!"no distance between marks {first} and {second}"
  | .noSplit decision interval => s!"{decision.display} does not split {interval.display}"
  | .crossedBounds => "bounds consistency emptied a domain"
  | .workerStopped => "a scoped thread panicked"
  | .endless => "the computation does not end"

/-- A computation that may end in a fault. -/
abbrev Checked := Except Fault

/-- A computation in two parts comes to an answer if both parts do. -/
theorem bind_eq_ok {ε α β : Type} {x : Except ε α} {f : α → Except ε β} {b : β} :
    x >>= f = .ok b ↔ ∃ a, x = .ok a ∧ f a = .ok b := by
  cases x with
  | error e => simp [bind, Except.bind]
  | ok a => simp [bind, Except.bind]

/-- A computation in two parts fails in one of them. -/
theorem bind_eq_error {ε α β : Type} {x : Except ε α} {f : α → Except ε β} {e : ε} :
    x >>= f = .error e ↔ x = .error e ∨ ∃ a, x = .ok a ∧ f a = .error e := by
  cases x with
  | error e => simp [bind, Except.bind]
  | ok a => simp [bind, Except.bind]

/-- The first part of a computation gives way to its answer. -/
theorem bind_of_ok {ε α β : Type} {x : Except ε α} {f : α → Except ε β} {a : α}
    (h : x = .ok a) : x >>= f = f a := by
  rw [h]
  rfl

/-- Errors are translated, answers are not. -/
theorem mapError_eq_ok_iff {α β γ : Type} {f : α → β} {x : Except α γ} {a : γ} :
    x.mapError f = .ok a ↔ x = .ok a := by
  cases x with
  | error e => constructor <;> intro h <;> cases h
  | ok b => constructor <;> intro h <;> cases h <;> rfl

/-- A list is mapped without an error if none of its members has one. -/
theorem mapM_of_ok {α β ε : Type} {f : α → Except ε β} {g : α → β} {xs : List α}
    (h : ∀ x ∈ xs, f x = .ok (g x)) : xs.mapM f = .ok (xs.map g) := by
  induction xs with
  | nil => rfl
  | cons x xs ih =>
    obtain ⟨hx, hxs⟩ := List.forall_mem_cons.1 h
    rw [List.mapM_cons, bind_of_ok hx, bind_of_ok (ih hxs)]
    rfl

/-- The entry at a position, or the fault of a position that does not exist. -/
@[inline] def readAt {α : Type} (xs : Array α) (i : Nat) : Checked α :=
  match xs[i]? with
  | some a => .ok a
  | none => .error (.outOfBounds xs.size i)

/-- Replaces the entry at a position, or reports that there is none. -/
def writeAt {α : Type} (xs : Array α) (i : Nat) (a : α) : Checked (Array α) :=
  if i < xs.size then .ok (xs.setIfInBounds i a) else .error (.outOfBounds xs.size i)

/-- Applies a function to one entry after the other; from a fault on they stay as they
are. -/
def updateEach {α : Type} (f : α → Checked α) : List α → Checked Unit × List α
  | [] => (.ok (), [])
  | a :: as =>
    match f a with
    | .error e => (.error e, a :: as)
    | .ok b =>
      let (r, bs) := updateEach f as
      (r, b :: bs)

theorem readAt_eq_ok {α : Type} {xs : Array α} {i : Nat} {a : α} :
    readAt xs i = .ok a ↔ xs[i]? = some a := by
  unfold readAt; split <;> simp_all

theorem writeAt_eq_ok {α : Type} {xs ys : Array α} {i : Nat} {a : α} :
    writeAt xs i a = .ok ys ↔ i < xs.size ∧ xs.setIfInBounds i a = ys := by
  unfold writeAt
  by_cases h : i < xs.size <;> simp [h]

namespace Keyed

variable {κ α : Type} [Key κ]

/-- The entry at a key, or the fault of a key without an entry. -/
@[inline] def get (t : Keyed κ α) (k : κ) : Checked α := readAt t.entries (Key.index k)

/-- Replaces the entry at a key, or reports that there is none. -/
def put (t : Keyed κ α) (k : κ) (a : α) : Checked (Keyed κ α) :=
  (writeAt t.entries (Key.index k) a).map Keyed.mk

/-- Applies a function to all entries in order, up to a fault. -/
def updateAll (t : Keyed κ α) (f : α → Checked α) : Checked Unit × Keyed κ α :=
  let (r, as) := updateEach f t.toList
  (r, .ofList as)

theorem get_eq_ok {t : Keyed κ α} {k : κ} {a : α} : t.get k = .ok a ↔ t.get? k = some a :=
  readAt_eq_ok

end Keyed

end BoundsSolver
