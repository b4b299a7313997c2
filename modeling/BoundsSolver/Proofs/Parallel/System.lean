/-
# Workers as processes

A divided search is a system of processes.  A worker searches move by move, sends what it
finds and at last one more report; its messages are in flight until they are delivered, in
the order in which it sent them, while nothing is said about the order between workers.
Once enough solutions have arrived nobody listens, which a worker notices when it sends its
next message.  `System.Step` lets any worker move and any first message be delivered.

Whoever is next, the system comes to its end: every step lowers a measure
(`System.step_measure`), and a system in which nothing is left to do is final
(`System.final_or_step`).
-/

import Mathlib.Algebra.GroupWithZero.Nat
import Mathlib.Logic.Basic
import Mathlib.Logic.Relation
import BoundsSolver.Parallel.Division

namespace BoundsSolver

/-- What a worker is doing. -/
inductive Activity (σ : Type) where
  /-- It searches for the next solution, and has found so many. -/
  | searching (s : Solver σ) (found : Nat)
  /-- It is about to send a solution. -/
  | sending (values : List Int) (s : Solver σ) (found : Nat)
  /-- It is about to send its last report. -/
  | leaving (last : Report)
  | ended
  | stopped (fault : Fault)

/-- A worker, and what it has sent that has not arrived. -/
structure Process (σ : Type) where
  activity : Activity σ
  inFlight : List Report

/-- The workers, and what has arrived from them. -/
structure System (σ : Type) where
  processes : List (Process σ)
  tally : Tally

variable {σ : Type}

namespace Activity

/-- What a worker turns to when its search has come to an answer. -/
def answered (s : Solver σ) (found : Nat) : Answer → Activity σ
  | .solution values => .sending values s (found + 1)
  | .exhausted => .leaving (.finished s.state.statistics)
  | .overflow capacity =>
    .leaving (.failed (.choicePointOverflow capacity) s.state.statistics)

/-- The next move of a worker, and what it sends if somebody listens. -/
def move (limit : Option Nat) (listening : Bool) : Activity σ → Option (Activity σ × List Report)
  | .searching s found =>
    match s.step with
    | .error fault => some (.stopped fault, [])
    | .ok (t, none) => some (.searching t found, [])
    | .ok (t, some a) => some (answered t found a, [])
  | .sending values s found =>
    if listening then
      if Tally.reached limit found then
        some (.leaving (.finished s.state.statistics), [.solution values])
      else some (.searching s found, [.solution values])
    else some (.leaving (.finished s.state.statistics), [])
  | .leaving last => some (.ended, if listening then [last] else [])
  | .ended | .stopped _ => none

/-- The worker has ended, or stopped with a fault. -/
def Done : Activity σ → Prop
  | .ended | .stopped _ => True
  | .searching .. | .sending .. | .leaving _ => False

/-- The fault that the worker stopped with. -/
def fault? : Activity σ → Option Fault
  | .stopped fault => some fault
  | .searching .. | .sending .. | .leaving _ | .ended => none

/-- How much the worker may still do, in moves and messages. -/
def measure : Activity σ → Nat
  | .searching s _ => 3 * (2 * s.weight + s.rank) + 3
  | .sending _ s _ => 3 * (2 * s.weight + s.rank) + 5
  | .leaving _ => 2
  | .ended | .stopped _ => 0

end Activity

namespace System

/-- One worker moves, or the first message that is in flight from one worker arrives. -/
inductive Step (limit : Option Nat) (s : System σ) : System σ → Prop
  | work {k : Nat} {process : Process σ} {activity : Activity σ} {sent : List Report} :
    s.processes[k]? = some process →
    process.activity.move limit (!s.tally.closed) = some (activity, sent) →
      Step limit s
        { s with processes := s.processes.set k ⟨activity, process.inFlight ++ sent⟩ }
  | deliver {k : Nat} {activity : Activity σ} {r : Report} {rest : List Report} :
    s.tally.closed = false → s.processes[k]? = some ⟨activity, r :: rest⟩ →
      Step limit s ⟨s.processes.set k ⟨activity, rest⟩, s.tally.receive limit ⟨k, r⟩⟩

/-- The system comes to another one in some order of steps. -/
def Reaches (limit : Option Nat) : System σ → System σ → Prop :=
  Relation.ReflTransGen (Step limit)

/-- All workers are done, and nothing is in flight to somebody who listens. -/
structure Final (s : System σ) : Prop where
  done : ∀ process ∈ s.processes, process.activity.Done
  delivered : s.tally.closed = false → ∀ process ∈ s.processes, process.inFlight = []

/-- What the workers have come to; one that stopped with a fault stops everything. -/
def outcome (s : System σ) : Checked (Except ParallelError Findings) :=
  if s.processes.all fun process => process.activity.fault?.isNone then .ok s.tally.outcome
  else .error .workerStopped

/-- How much is left to do. -/
def measure (s : System σ) : Nat :=
  (s.processes.map fun process => process.activity.measure + process.inFlight.length).sum

end System

variable {limit : Option Nat} {s t u : System σ} {process process' : Process σ}
  {a a' : Activity σ} {sent : List Report} {k : Nat}

/-! ### The end -/

/-- **A worker does not go on for ever.** -/
theorem Activity.move_measure {listening : Bool} (h : a.move limit listening = some (a', sent)) :
    a'.measure + sent.length < a.measure := by
  unfold Activity.move at h
  split at h
  · rename_i s found
    have hrank := s.rank_le_one
    split at h
    · obtain ⟨rfl, rfl⟩ := Prod.mk.inj (Option.some.inj h)
      simp only [measure, List.length_nil]
      omega
    · rename_i t ht
      obtain ⟨rfl, rfl⟩ := Prod.mk.inj (Option.some.inj h)
      have hrank' := t.rank_le_one
      simp only [measure, List.length_nil]
      rcases Solver.step_progress ht with hlt | ⟨hle, hlt⟩ <;> omega
    · rename_i t answer ht
      obtain ⟨rfl, rfl⟩ := Prod.mk.inj (Option.some.inj h)
      cases answer with
      | solution values =>
        have hrank' := t.rank_le_one
        have hlt := Solver.step_solution_weight ht
        simp only [answered, measure, List.length_nil]
        omega
      | exhausted =>
        simp only [answered, measure, List.length_nil]
        omega
      | overflow capacity =>
        simp only [answered, measure, List.length_nil]
        omega
  · split at h
    · split at h
      all_goals
        obtain ⟨rfl, rfl⟩ := Prod.mk.inj (Option.some.inj h)
        simp only [measure, List.length_singleton]
        omega
    · obtain ⟨rfl, rfl⟩ := Prod.mk.inj (Option.some.inj h)
      simp only [measure, List.length_nil]
      omega
  · obtain ⟨rfl, rfl⟩ := Prod.mk.inj (Option.some.inj h)
    simp only [measure]
    split <;> simp
  · cases h
  · cases h

/-- What replacing one entry does to a sum. -/
theorem sum_map_set {α : Type} {f : α → Nat} {xs : List α} {x y : α} (h : xs[k]? = some x) :
    ((xs.set k y).map f).sum + f x = (xs.map f).sum + f y := by
  induction xs generalizing k with
  | nil => cases h
  | cons z xs ih =>
    cases k with
    | zero =>
      obtain rfl := Option.some.inj h
      simp only [List.set_cons_zero, List.map_cons, List.sum_cons]
      omega
    | succ k =>
      have := ih (k := k) h
      simp only [List.set_cons_succ, List.map_cons, List.sum_cons]
      omega

/-- **Every step lowers what is left to do**, so that no run goes on for ever. -/
theorem System.step_measure (h : s.Step limit t) : t.measure < s.measure := by
  cases h with
  | @work k process activity sent hk hmove =>
    have hsum := sum_map_set (f := fun process : Process σ =>
      process.activity.measure + process.inFlight.length)
      (y := ⟨activity, process.inFlight ++ sent⟩) hk
    have hlt := Activity.move_measure hmove
    simp only [List.length_append] at hsum
    simp only [System.measure]
    omega
  | @deliver k activity r rest _ hk =>
    have hsum := sum_map_set (f := fun process : Process σ =>
      process.activity.measure + process.inFlight.length) (y := ⟨activity, rest⟩) hk
    simp only [List.length_cons] at hsum
    simp only [System.measure]
    omega

theorem System.step_wellFounded : WellFounded fun t s : System σ => s.Step limit t :=
  Subrelation.wf (fun h => System.step_measure h) (InvImage.wf System.measure Nat.lt_wfRel.wf)

theorem Activity.exists_move {listening : Bool} (h : ¬ a.Done) :
    ∃ a' sent, a.move limit listening = some (a', sent) := by
  cases a with
  | searching s found =>
    unfold Activity.move
    dsimp only
    split <;> exact ⟨_, _, rfl⟩
  | sending values s found =>
    unfold Activity.move
    dsimp only
    split
    · split <;> exact ⟨_, _, rfl⟩
    · exact ⟨_, _, rfl⟩
  | leaving last => exact ⟨_, _, rfl⟩
  | ended => exact absurd trivial h
  | stopped => exact absurd trivial h

/-- **Nothing gets stuck.** -/
theorem System.final_or_step (limit : Option Nat) (s : System σ) :
    s.Final ∨ ∃ t, s.Step limit t := by
  by_cases hdone : ∀ process ∈ s.processes, process.activity.Done
  · by_cases hsent : s.tally.closed = false → ∀ process ∈ s.processes, process.inFlight = []
    · exact .inl ⟨hdone, hsent⟩
    · simp only [not_forall] at hsent
      obtain ⟨hopen, ⟨activity, inFlight⟩, hmem, hne⟩ := hsent
      obtain ⟨k, hk⟩ := List.mem_iff_getElem?.1 hmem
      cases inFlight with
      | nil => exact absurd rfl hne
      | cons r rest => exact .inr ⟨_, .deliver hopen hk⟩
  · simp only [not_forall] at hdone
    obtain ⟨process, hmem, hbusy⟩ := hdone
    obtain ⟨k, hk⟩ := List.mem_iff_getElem?.1 hmem
    obtain ⟨a, sent, hmove⟩ := Activity.exists_move hbusy
    exact .inr ⟨_, .work hk hmove⟩

end BoundsSolver
