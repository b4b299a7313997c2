/-
# What the messages come to

As long as it is open, a tally holds the solutions that have arrived in their order and their
number, the last statistics of each worker and the first failure (`Tally.receiveAll_holds`); without a
limit it stays open.  Hence it hardly matters in which order the messages of several workers
arrive: the solutions are those of all workers in some order, the statistics are the same,
and there is a failure if a worker fails (`Tally.Holds.outcome_ok`,
`Tally.Holds.outcome_error`).
-/

import Mathlib.Data.List.Induction
import Mathlib.Data.List.Perm.Basic
import BoundsSolver.Proofs.Parallel.Arrival

namespace BoundsSolver

namespace Report

/-- The solution that is reported, if one is. -/
def solution? : Report → Option (List Int)
  | .solution values => some values
  | .finished _ | .failed _ _ => none

/-- The statistics that are reported with the end of a search. -/
def statistics? : Report → Option Statistics
  | .solution _ => none
  | .finished statistics | .failed _ statistics => some statistics

/-- Why a search could not go on. -/
def error? : Report → Option SearchError
  | .solution _ | .finished _ => none
  | .failed error _ => some error

end Report

namespace Transcript

/-- The solutions of a worker. -/
def solutions (t : Transcript) : List (List Int) := t.reports.filterMap Report.solution?

/-- The statistics that a worker reports at last. -/
def statistics (t : Transcript) : Statistics :=
  (t.reports.filterMap Report.statistics?).getLastD .zero

/-- A worker reports that it cannot go on. -/
def Fails (t : Transcript) (e : SearchError) : Prop := ∃ r ∈ t.reports, r.error? = some e

end Transcript

/-- What an open tally of so many workers holds once the messages have arrived. -/
structure Tally.Holds (workers : Nat) (ms : List Message) (t : Tally) : Prop where
  solutions : t.solutions.toList = ms.filterMap (·.report.solution?)
  count : t.count = t.solutions.size
  size : t.workers.size = workers
  statistics : ∀ k < workers,
    t.workers[k]? = some (((reportsOf k ms).filterMap Report.statistics?).getLastD .zero)
  failure : t.failure = ms.findSome? fun m => m.report.error?.map (m.worker, ·)

variable {limit : Option Nat} {n k : Nat} {t : Tally} {m : Message} {ms : List Message}
  {ts : List Transcript} {c : Transcript} {r : Report} {e : SearchError} {log : Log}

/-! ### Taking messages in -/

namespace Tally

theorem open_of_receive (h : (t.receive limit m).closed = false) : t.closed = false := by
  cases ht : t.closed with
  | false => rfl
  | true =>
    rw [receive, if_pos ht, ht] at h
    exact h

/-- **An open tally notes a message**, whatever it says. -/
theorem receive_of_open (limit : Option Nat) (ht : t.closed = false) (m : Message) :
    (t.receive limit m).solutions.toList = t.solutions.toList ++ m.report.solution?.toList ∧
    (t.receive limit m).count = t.count + m.report.solution?.toList.length ∧
    (t.receive limit m).workers =
      m.report.statistics?.elim t.workers (t.workers.setIfInBounds m.worker) ∧
    (t.receive limit m).failure = t.failure.or (m.report.error?.map (m.worker, ·)) := by
  rw [receive, ht, if_neg Bool.false_ne_true]
  cases m.report with
  | solution values =>
    dsimp only
    split <;> simp [Report.solution?, Report.statistics?, Report.error?]
  | finished statistics => simp [Report.solution?, Report.statistics?, Report.error?]
  | failed error statistics => simp [Report.solution?, Report.statistics?, Report.error?]

theorem start_holds (n : Nat) (log : Log) : (start n log).Holds n [] where
  solutions := rfl
  count := rfl
  size := Array.size_replicate
  statistics k hk := by
    rw [start, Array.getElem?_replicate, if_pos hk]
    rfl
  failure := rfl

theorem Holds.receive (ht : t.Holds n ms) (h : t.closed = false) (m : Message) :
    (t.receive limit m).Holds n (ms ++ [m]) := by
  obtain ⟨hsolutions, hcount, hworkers, hfailure⟩ := receive_of_open limit h m
  refine ⟨?_, ?_, ?_, ?_, ?_⟩
  · rw [hsolutions, ht.solutions, List.filterMap_append]
    cases hs : m.report.solution? <;> simp [hs]
  · rw [hcount, ht.count, ← Array.length_toList, ← Array.length_toList, hsolutions,
      List.length_append]
  · rw [hworkers]
    cases m.report.statistics? with
    | none => exact ht.size
    | some statistics => exact (Array.size_setIfInBounds ..).trans ht.size
  · intro k hk
    have hlast : reportsOf k (ms ++ [m]) =
        reportsOf k ms ++ if m.worker = k then [m.report] else [] := by
      rw [reportsOf_append]
      exact congrArg _ (reportsOf_map_mk k m.worker [m.report])
    rw [hworkers, hlast, List.filterMap_append]
    cases hs : m.report.statistics? with
    | none =>
      rw [Option.elim_none, ht.statistics k hk]
      split <;> simp [hs]
    | some statistics =>
      rw [Option.elim_some, Array.getElem?_setIfInBounds]
      split
      · rename_i hworker
        rw [if_pos (by rw [ht.size, hworker]; exact hk)]
        simp [hs]
      · rw [ht.statistics k hk]
        simp
  · rw [hfailure, ht.failure, List.findSome?_append]
    cases he : m.report.error? <;> simp [he]

/-- **An open tally holds what has arrived.** -/
theorem receiveAll_holds (h : ((start n log).receiveAll limit ms).closed = false) :
    ((start n log).receiveAll limit ms).Holds n ms := by
  induction ms using List.reverseRecOn with
  | nil => exact start_holds n log
  | append_singleton ms m ih =>
    rw [receiveAll_concat] at h ⊢
    have hopen := open_of_receive h
    exact (ih hopen).receive hopen m

/-- Without a limit there are never enough solutions. -/
theorem receiveAll_none_open (ht : t.closed = false) : (t.receiveAll none ms).closed = false := by
  induction ms generalizing t with
  | nil => exact ht
  | cons m ms ih =>
    refine ih (t := t.receive none m) ?_
    rw [receive, ht, if_neg Bool.false_ne_true]
    cases m.report <;> rfl

end Tally

/-! ### Whatever the order -/

/-- Without the messages of the last worker. -/
theorem Arrives.init (h : Arrives (ts ++ [c]) ms) :
    Arrives ts (ms.filter fun m => !decide (m.worker = ts.length)) where
  known := by
    intro m hm
    obtain ⟨hmem, hne⟩ := List.mem_filter.1 hm
    have hlt := h.known m hmem
    rw [List.length_append, List.length_singleton] at hlt
    simp only [Bool.not_eq_true', decide_eq_false_iff_not] at hne
    omega
  whole := by
    intro k c' hc'
    have hk := (List.getElem?_eq_some_iff.1 hc').1
    rw [← h.whole (by rw [List.getElem?_append_left hk]; exact hc'), reportsOf, reportsOf,
      List.filter_filter]
    refine congrArg _ (List.filter_congr fun m _ => ?_)
    by_cases hm : m.worker = k
    · simp only [hm, decide_true, Bool.true_and, Bool.not_eq_true', decide_eq_false_iff_not]
      omega
    · simp [hm]

open scoped List in
/-- **The reports that arrive are those of all workers.** -/
theorem Arrives.perm (h : Arrives ts ms) : ms.map Message.report ~ ts.flatMap (·.reports) := by
  induction ts using List.reverseRecOn generalizing ms with
  | nil =>
    cases ms with
    | nil => exact .nil
    | cons m ms => exact absurd (h.known m List.mem_cons_self) (Nat.not_lt_zero _)
  | append_singleton ts c ih =>
    let others := ms.filter fun m => !decide (m.worker = ts.length)
    have hlast : reportsOf ts.length ms = c.reports := h.whole (by simp)
    calc ms.map Message.report
      _ ~ (ms.filter (·.worker = ts.length) ++ others).map Message.report :=
        ((List.filter_append_perm _ ms).map _).symm
      _ = c.reports ++ others.map Message.report := by rw [List.map_append, ← hlast]; rfl
      _ ~ others.map Message.report ++ c.reports := List.perm_append_comm
      _ ~ ts.flatMap (·.reports) ++ c.reports := (ih h.init).append_right _
      _ = (ts ++ [c]).flatMap (·.reports) := by simp

theorem Arrives.mem_iff (h : Arrives ts ms) :
    ⟨k, r⟩ ∈ ms ↔ ∃ c, ts[k]? = some c ∧ r ∈ c.reports := by
  have hof : r ∈ reportsOf k ms ↔ ⟨k, r⟩ ∈ ms := by
    simp only [reportsOf, List.mem_map, List.mem_filter, decide_eq_true_eq]
    constructor
    · rintro ⟨⟨_, _⟩, ⟨hm, rfl⟩, rfl⟩
      exact hm
    · intro hm
      exact ⟨_, ⟨hm, rfl⟩, rfl⟩
  constructor
  · intro hm
    have hk := h.known _ hm
    have hc := List.getElem?_eq_getElem hk
    exact ⟨_, hc, h.whole hc ▸ hof.2 hm⟩
  · rintro ⟨c, hc, hr⟩
    exact hof.1 (h.whole hc ▸ hr)

namespace Tally.Holds

/-- **Without a failure the solutions of all workers have arrived**, with their number and the
statistics of each worker. -/
theorem outcome_ok (ht : t.Holds ts.length ms) (h : Arrives ts ms)
    (hok : ∀ c ∈ ts, ∀ e, ¬ c.Fails e) :
    ∃ found, t.outcome = .ok found ∧
      found.solutions.Perm (ts.flatMap Transcript.solutions) ∧
      found.count = found.solutions.length ∧
      found.workers = ts.map Transcript.statistics ∧
      found.statistics = (ts.map Transcript.statistics).foldl .merge .zero := by
  have hnone : t.failure = none := by
    rw [ht.failure, List.findSome?_eq_none_iff]
    rintro ⟨k, r⟩ hm
    obtain ⟨c, hc, hr⟩ := h.mem_iff.1 hm
    cases he : r.error? with
    | none => rfl
    | some e => exact absurd ⟨r, hr, he⟩ (hok c (List.mem_of_getElem? hc) e)
  have hworkers : t.workers.toList = ts.map Transcript.statistics := by
    refine List.ext_getElem? fun k => ?_
    rw [Array.getElem?_toList, List.getElem?_map]
    by_cases hk : k < ts.length
    · have hc := List.getElem?_eq_getElem hk
      rw [ht.statistics k hk, hc, h.whole hc]
      rfl
    · rw [List.getElem?_eq_none (Nat.not_lt.1 hk),
        Array.getElem?_eq_none (ht.size ▸ Nat.not_lt.1 hk)]
      rfl
  refine ⟨⟨t.solutions.toList, t.count, t.workers.foldl .merge .zero, t.workers.toList⟩, ?_, ?_,
    ?_, hworkers, ?_⟩
  · rw [outcome, hnone]
  · have hperm := h.perm.filterMap Report.solution?
    rw [List.filterMap_map, List.filterMap_flatMap] at hperm
    rw [ht.solutions]
    exact hperm
  · exact ht.count.trans Array.length_toList.symm
  · rw [← hworkers, Array.foldl_toList]

/-- **A worker that fails makes the division fail**, if not another one does first. -/
theorem outcome_error (ht : t.Holds ts.length ms) (h : Arrives ts ms) (hc : c ∈ ts)
    (hfails : c.Fails e) :
    ∃ k e' c', t.outcome = .error (.workerFailed k e') ∧ ts[k]? = some c' ∧ c'.Fails e' := by
  obtain ⟨r, hr, he⟩ := hfails
  obtain ⟨j, hj⟩ := List.mem_iff_getElem?.1 hc
  cases hfailure : t.failure with
  | none =>
    rw [ht.failure, List.findSome?_eq_none_iff] at hfailure
    have := hfailure ⟨j, r⟩ (h.mem_iff.2 ⟨c, hj, hr⟩)
    rw [he] at this
    cases this
  | some first =>
    have hfirst := hfailure
    rw [ht.failure] at hfirst
    obtain ⟨⟨k, r'⟩, hm, hr'⟩ := List.exists_of_findSome?_eq_some hfirst
    obtain ⟨c', hc', hmem⟩ := h.mem_iff.1 hm
    obtain ⟨e', he', rfl⟩ := Option.map_eq_some_iff.1 hr'
    refine ⟨k, e', c', ?_, hc', r', hmem, he'⟩
    rw [outcome, hfailure]

end Tally.Holds
end BoundsSolver
