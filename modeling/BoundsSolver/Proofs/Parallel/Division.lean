/-
# A divided search finds what one solver finds

A solver that starts on a problem comes to the solutions within its current box, each of
them once (`Problem.Enumerates`).  The parts of a problem divide these among them
(`Problem.Divides.enumerates`), so that the workers together come to them as well, and the
solutions that they count are as many (`Division.concludes`).  `divided_search_exact` says
so of every order in which the workers move and their messages arrive, and of
`Division.solve`.
-/

import BoundsSolver.Proofs.Parallel.Partition
import BoundsSolver.Proofs.Parallel.Tally
import BoundsSolver.Proofs.Search.Counts

namespace BoundsSolver

/-- The values of the solutions within the current box, each of them once. -/
structure Problem.Enumerates (p : Problem) (solutions : List (List Int)) : Prop where
  nodup : solutions.Nodup
  mem_iff : ∀ values, values ∈ solutions ↔
    ∃ as, p.network.Satisfies as ∧ Mem as p.current.toList ∧ p.network.valuesOf as = values

/-- A solver that has everything before it. -/
structure Solver.Fresh {σ : Type} (p : Problem) (s : Solver σ) : Prop where
  idle : s.Idle p.network
  pending_iff : ∀ as, s.Pending p.network as ↔ p.network.Satisfies as ∧ Mem as p.current.toList
  uncounted : s.state.statistics.solutions = 0

namespace Division

/-- The solver of a worker. -/
def solver {σ : Type} (setup : Setup σ) (p : Problem) : Solver σ :=
  (Solver.ofProblem p setup.options setup.workerLog).withBrancher
    (setup.brancher p).1 (setup.brancher p).2

/-- The search of a worker that nobody interrupts. -/
def search {σ : Type} (setup : Setup σ) (p : Problem) : Solver.Collected σ :=
  (solver setup p).collect none

/-- The workers before their first move. -/
def system {σ : Type} (setup : Setup σ) (ps : List Problem) (log : Log) : System σ :=
  .start (ps.map (solver setup)) (.start ps.length log)

end Division

/-- The findings of workers who have left nothing of the problem out. -/
structure Findings.Complete {σ : Type} (p : Problem) (searches : List (Solver.Collected σ))
    (found : Findings) : Prop where
  enumerates : p.Enumerates found.solutions
  count : found.count = found.solutions.length
  /-- One solver counts as many and hands out the same in some order. -/
  alone : ∀ {τ ρ : Type} {f : τ → List Int → τ} {seen seen' : τ} {o : Options} {log : Log}
    {b : Brancher ρ} {m : ρ} {count : Nat} {u : Solver ρ},
    ((Solver.ofProblem p o log).withBrancher b m).solveAllWith f seen = .ok (.ok count, seen', u) →
      count = found.solutions.length ∧
        ∃ others : List (List Int), others.Perm found.solutions ∧ seen' = others.foldl f seen
  counted : found.statistics.solutions = found.solutions.length
  workers : found.workers = searches.map (·.solver.state.statistics)
  statistics : found.statistics = found.workers.foldl .merge .zero

/-- What workers with these searches come to: all solutions, or the failure of one. -/
structure Division.Concludes {σ : Type} (p : Problem) (searches : List (Solver.Collected σ))
    (r : Except ParallelError Findings) : Prop where
  complete : (∀ c ∈ searches, c.ending = .complete) →
    ∃ found, r = .ok found ∧ found.Complete p searches
  failed : ∀ c ∈ searches, ∀ e, c.ending = .failed e → ∃ k e' c',
    r = .error (.workerFailed k e') ∧ searches[k]? = some c' ∧ c'.ending = .failed e'

variable {σ τ : Type} {p q : Problem} {ps : List Problem} {as : List Int}
  {ass solutions others : List (List Int)} {s u : Solver σ} {c : Solver.Collected σ}
  {e : SearchError} {f : τ → List Int → τ} {seen seen' : τ} {count : Nat} {ms : List Message}
  {setup : Division.Setup σ} {log : Log}

/-! ### One solver -/

namespace Solver

theorem start_fresh (hp : Built p) (o : Options) (log : Log) (b : Brancher σ) (m : σ) :
    ((ofProblem p o log).withBrancher b m).Fresh p where
  idle := start_idle hp o log b m
  pending_iff as := by
    show _ ∧ (∃ e ∈ [p.current], _) ↔ _
    simp only [List.mem_singleton, exists_eq_left]
  uncounted := rfl

namespace Fresh

theorem enumerates (hp : Built p) (hs : s.Fresh p) (h : s.Lists p.network ass) :
    p.Enumerates (ass.map p.network.valuesOf) where
  nodup := by
    refine hp.sound.network.nodup_valuesOf ?_ h.nodup
    intro as has
    exact Box.mem_of_inside ((hs.pending_iff as).1 ((h.mem_iff as).1 has)).2 hp.sound.inside
  mem_iff values := by
    simp only [List.mem_map, h.mem_iff, hs.pending_iff, and_assoc]

/-- **Collecting comes to all solutions.** -/
theorem collect_enumerates (hp : Built p) (hs : s.Fresh p)
    (h : (s.collect none).ending = .complete) : p.Enumerates (s.collect none).solutions := by
  have houtcome : (s.collect none).outcome = .ok (.ok (s.collect none).solutions) := by
    rw [Collected.outcome, h]
  obtain ⟨ass, hass, hsolutions⟩ :=
    collect_lists hp.sound.network hs.idle.sound hs.idle.orderly houtcome
  rw [hsolutions]
  exact hs.enumerates hp hass

/-- **Counting comes to all solutions.** -/
theorem solveAllWith_enumerates (hp : Built p) (hs : s.Fresh p)
    (h : s.solveAllWith f seen = .ok (.ok count, seen', u)) :
    ∃ others : List (List Int),
      p.Enumerates others ∧ count = others.length ∧ seen' = others.foldl f seen := by
  obtain ⟨ass, hass, hcount, hseen⟩ :=
    countFrom_lists hp.sound.network hs.idle.sound hs.idle.orderly h
  refine ⟨_, hs.enumerates hp hass, ?_, hseen⟩
  rw [hcount, Nat.zero_add, List.length_map]

theorem collect_solutions (hs : s.Fresh p) :
    (s.collect none).solver.state.statistics.solutions = (s.collect none).solutions.length := by
  have hcount : (s.collect none).solver.state.statistics.solutions + 0 =
      s.state.statistics.solutions + (s.collect none).solutions.length := collectOnto_solutions
  rwa [hs.uncounted, Nat.add_zero, Nat.zero_add] at hcount

end Fresh

/-! ### What it reports -/

namespace Collected

theorem transcript_solutions (c : Collected σ) : c.transcript.solutions = c.solutions := by
  have hsolution : Report.solution? ∘ Report.solution = some := rfl
  rw [Transcript.solutions, transcript, List.filterMap_append, List.filterMap_map, hsolution,
    List.filterMap_some]
  cases c.ending <;> exact List.append_nil _

theorem transcript_statistics (h : ∀ f, c.ending ≠ .stopped f) :
    c.transcript.statistics = c.solver.state.statistics := by
  have hsolution : Report.statistics? ∘ Report.solution = fun _ => none := rfl
  rw [Transcript.statistics, transcript, List.filterMap_append, List.filterMap_map, hsolution]
  cases he : c.ending with
  | complete => simp [Ending.report, Report.statistics?]
  | failed e => simp [Ending.report, Report.statistics?]
  | stopped f => exact absurd he (h f)

theorem transcript_fails_iff : c.transcript.Fails e ↔ c.ending = .failed e := by
  have hsolution (r : Report) (hr : r ∈ c.solutions.map Report.solution) : r.error? = none := by
    obtain ⟨values, -, rfl⟩ := List.mem_map.1 hr
    rfl
  constructor
  · rintro ⟨r, hr, he⟩
    rcases List.mem_append.1 hr with hr | hr
    · rw [hsolution r hr] at he
      cases he
    · cases hending : c.ending with
      | complete => rw [hending] at hr; obtain rfl := List.mem_singleton.1 hr; cases he
      | failed e' =>
        rw [hending] at hr
        obtain rfl := List.mem_singleton.1 hr
        exact congrArg _ (Option.some.inj he)
      | stopped f => rw [hending] at hr; cases hr
  · intro h
    refine ⟨.failed e c.solver.state.statistics, List.mem_append_right _ ?_, rfl⟩
    rw [h]
    exact List.mem_singleton_self _

theorem transcript_fault (h : ∀ f, c.ending ≠ .stopped f) : c.transcript.fault = none := by
  unfold transcript
  cases he : c.ending with
  | complete => rfl
  | failed e => rfl
  | stopped f => exact absurd he (h f)

end Collected
end Solver

/-! ### All parts -/

namespace Problem

theorem Enumerates.perm (h : p.Enumerates solutions) (h' : p.Enumerates others) :
    solutions.Perm others := by
  refine (List.perm_ext_iff_of_nodup h.nodup h'.nodup).2 ?_
  intro values
  rw [h.mem_iff, h'.mem_iff]

theorem Enumerates.of_perm (h : p.Enumerates solutions) (hperm : others.Perm solutions) :
    p.Enumerates others where
  nodup := hperm.nodup_iff.2 h.nodup
  mem_iff values := by rw [hperm.mem_iff, h.mem_iff]

namespace Divides

theorem satisfies_iff (h : p.Divides ps) (hq : q ∈ ps) :
    q.network.Satisfies as ↔ p.network.Satisfies as := by
  rw [Network.Satisfies, Network.Satisfies, h.propagators q hq]

theorem valuesOf_eq (h : p.Divides ps) (hq : q ∈ ps) (as : List Int) :
    q.network.valuesOf as = p.network.valuesOf as := by
  rw [Network.valuesOf, Network.valuesOf, h.views q hq]

/-- **The solutions of the parts are those of the whole.** -/
theorem enumerates {solutionsOf : Problem → List (List Int)} (hp : Built p) (h : p.Divides ps)
    (hps : ∀ q ∈ ps, q.Enumerates (solutionsOf q)) : p.Enumerates (ps.flatMap solutionsOf) where
  nodup := by
    rw [List.nodup_flatMap]
    refine ⟨fun q hq => (hps q hq).nodup, ?_⟩
    refine List.Pairwise.imp_of_mem ?_ h.apart
    intro q q' hq hq' hapart values hvalues hvalues'
    obtain ⟨as, -, has, rfl⟩ := ((hps q hq).mem_iff _).1 hvalues
    obtain ⟨bs, -, hbs, heq⟩ := ((hps q' hq').mem_iff _).1 hvalues'
    have hin := Box.mem_of_inside has (h.built q hq).sound.inside
    have hin' := Box.mem_of_inside hbs (h.built q' hq').sound.inside
    rw [h.valuesOf_eq hq, h.valuesOf_eq hq'] at heq
    obtain rfl := hp.sound.network.eq_of_valuesOf (h.initial.2 ⟨q', hq', hin'⟩)
      (h.initial.2 ⟨q, hq, hin⟩) heq
    exact hapart _ hin hin'
  mem_iff values := by
    rw [List.mem_flatMap]
    constructor
    · rintro ⟨q, hq, hvalues⟩
      obtain ⟨as, hsat, has, rfl⟩ := ((hps q hq).mem_iff _).1 hvalues
      exact ⟨as, (h.satisfies_iff hq).1 hsat, h.current.2 ⟨q, hq, has⟩, (h.valuesOf_eq hq as).symm⟩
    · rintro ⟨as, hsat, has, rfl⟩
      obtain ⟨q, hq, has⟩ := h.current.1 has
      exact ⟨q, hq, ((hps q hq).mem_iff _).2
        ⟨as, (h.satisfies_iff hq).2 hsat, has, h.valuesOf_eq hq as⟩⟩

end Divides
end Problem

/-! ### All workers -/

theorem Statistics.foldl_merge_solutions (xs : List Statistics) (start : Statistics) :
    (xs.foldl .merge start).solutions = start.solutions + (xs.map (·.solutions)).sum := by
  induction xs generalizing start with
  | nil => rfl
  | cons x xs ih =>
    rw [List.foldl_cons, ih, List.map_cons, List.sum_cons, ← Nat.add_assoc]
    rfl

namespace Division

theorem solver_fresh (hp : Built p) (setup : Setup σ) : (solver setup p).Fresh p :=
  Solver.start_fresh hp ..

/-- What the workers of a division send. -/
theorem runs_eq (h : setup.limit = none) (ps : List Problem) :
    ps.map (run setup) = (ps.map (search setup)).map Solver.Collected.transcript := by
  rw [List.map_map]
  refine List.map_congr_left fun q _ => ?_
  show (solver setup q).work setup.limit = _
  rw [h]
  rfl

theorem faultless (h : ∀ q ∈ ps, ∀ f, (search setup q).ending ≠ .stopped f) :
    (((ps.map (search setup)).map Solver.Collected.transcript).all fun t => t.fault.isNone) =
      true := by
  rw [List.all_eq_true]
  intro t ht
  rw [List.map_map] at ht
  obtain ⟨q, hq, rfl⟩ := List.mem_map.1 ht
  exact Option.isNone_iff_eq_none.2 (Solver.Collected.transcript_fault (h q hq))

/-- The solutions that have arrived from complete searches of all parts. -/
theorem complete_of_perm {found : Findings} (hp : Built p) (hparts : p.Divides ps)
    (hdone : ∀ q ∈ ps, (search setup q).ending = .complete)
    (hperm : found.solutions.Perm (ps.flatMap fun q => (search setup q).solutions))
    (hfound : found.count = found.solutions.length)
    (hworkers : found.workers = (ps.map (search setup)).map (·.solver.state.statistics))
    (hstatistics : found.statistics = found.workers.foldl .merge .zero) :
    found.Complete p (ps.map (search setup)) := by
  have henumerates : p.Enumerates found.solutions := by
    refine Problem.Enumerates.of_perm (hparts.enumerates hp ?_) hperm
    intro q hq
    have hbuilt := hparts.built q hq
    exact (solver_fresh hbuilt setup).collect_enumerates hbuilt (hdone q hq)
  refine ⟨henumerates, hfound, ?_, ?_, hworkers, hstatistics⟩
  · intro τ ρ f seen seen' o log b m count u h
    obtain ⟨others, hothers, hcount, hseen⟩ :=
      (Solver.start_fresh hp o log b m).solveAllWith_enumerates hp h
    have hsame := hothers.perm henumerates
    exact ⟨hcount.trans hsame.length_eq, others, hsame, hseen⟩
  · have hcounts : ps.map (fun q => (search setup q).solver.state.statistics.solutions) =
        ps.map fun q => (search setup q).solutions.length :=
      List.map_congr_left fun q hq => (solver_fresh (hparts.built q hq) setup).collect_solutions
    rw [hstatistics, hworkers, Statistics.foldl_merge_solutions, hperm.length_eq,
      List.length_flatMap, ← hcounts, List.map_map, List.map_map]
    exact Nat.zero_add _

/-- **The order of the messages does not matter.** -/
theorem concludes (hp : Built p) (hparts : p.Divides ps) (hlimit : setup.limit = none)
    (hclean : ∀ q ∈ ps, ∀ f, (search setup q).ending ≠ .stopped f) (log : Log)
    (h : Arrives (ps.map (run setup)) ms) :
    Concludes p (ps.map (search setup))
      ((Tally.start ps.length log).receiveAll none ms).outcome := by
  have hholds : ((Tally.start ps.length log).receiveAll none ms).Holds ps.length ms :=
    Tally.receiveAll_holds (Tally.receiveAll_none_open rfl)
  have hlength : ps.length = ((ps.map (search setup)).map Solver.Collected.transcript).length := by
    rw [List.length_map, List.length_map]
  rw [hlength] at hholds ⊢
  rw [runs_eq hlimit] at h
  constructor
  · intro hcomplete
    have hdone (q : Problem) (hq : q ∈ ps) : (search setup q).ending = .complete :=
      hcomplete _ (List.mem_map_of_mem hq)
    have hok : ∀ t ∈ (ps.map (search setup)).map Solver.Collected.transcript,
        ∀ e, ¬ t.Fails e := by
      intro t ht e hfails
      obtain ⟨c, hc, rfl⟩ := List.mem_map.1 ht
      rw [Solver.Collected.transcript_fails_iff, hcomplete c hc] at hfails
      cases hfails
    obtain ⟨found, hfound, hperm, hcount, hworkers, hstatistics⟩ := hholds.outcome_ok h hok
    have hown : ((ps.map (search setup)).map Solver.Collected.transcript).map
        Transcript.statistics = (ps.map (search setup)).map (·.solver.state.statistics) := by
      rw [List.map_map]
      refine List.map_congr_left fun c hc => Solver.Collected.transcript_statistics ?_
      obtain ⟨q, hq, rfl⟩ := List.mem_map.1 hc
      exact hclean q hq
    rw [List.flatMap_map, List.flatMap_map] at hperm
    simp only [Solver.Collected.transcript_solutions] at hperm
    rw [hown] at hworkers hstatistics
    exact ⟨found, hfound, complete_of_perm hp hparts hdone hperm hcount hworkers
      (hworkers ▸ hstatistics)⟩
  · intro c hc e hending
    obtain ⟨k, e', t, houtcome, ht, hfails⟩ := hholds.outcome_error h
      (List.mem_map_of_mem hc) (Solver.Collected.transcript_fails_iff.2 hending)
    rw [List.getElem?_map] at ht
    obtain ⟨c', hc', rfl⟩ := Option.map_eq_some_iff.1 ht
    exact ⟨k, e', c', houtcome, hc', Solver.Collected.transcript_fails_iff.1 hfails⟩

/-- Before their first move the workers owe all that they are to send. -/
theorem system_arriving (setup : Setup σ) (ps : List Problem) (log : Log) :
    (system setup ps log).Arriving setup.limit (ps.map (run setup)) (.start ps.length log) [] := by
  have hstart := System.start_arriving setup.limit (ps.map (solver setup)) (.start ps.length log)
  rw [List.map_map] at hstart
  exact hstart

/-- At the end of whatever order of steps. -/
theorem final_concludes {u : System σ} (hp : Built p) (hparts : p.Divides ps)
    (hlimit : setup.limit = none)
    (hclean : ∀ q ∈ ps, ∀ f, (search setup q).ending ≠ .stopped f)
    (hu : (system setup ps log).Reaches setup.limit u) (hfinal : u.Final) :
    ∃ r, u.outcome = .ok r ∧ Concludes p (ps.map (search setup)) r := by
  obtain ⟨ms, hms⟩ := hu.arriving (system_arriving setup ps log)
  have htaken := hms.taken
  rw [hlimit] at htaken
  -- Without a limit somebody listens to the end, so that everything arrives.
  have hopen : u.tally.closed = false := htaken ▸ Tally.receiveAll_none_open rfl
  obtain ⟨harrives, houtcome⟩ := hfinal.arrives hms hopen
  refine ⟨_, ?_, concludes hp hparts hlimit hclean log harrives⟩
  rw [houtcome, htaken, runs_eq hlimit, faultless hclean]
  rfl

/-- Taking the workers one after the other comes to the same. -/
theorem solve_concludes {d : Division} {rs : List Interval} (hp : Built p)
    (hparts : p.Divides ps) (hrs : d.ranges = .ok rs) (hps : d.parts rs = .ok ps)
    (hlength : rs.length = ps.length) (hlimit : setup.limit = none)
    (hclean : ∀ q ∈ ps, ∀ f, (search setup q).ending ≠ .stopped f) :
    ∃ r log, d.solve setup = (.ok r, log) ∧ Concludes p (ps.map (search setup)) r := by
  cases rs with
  | nil =>
    obtain rfl := List.length_eq_zero_iff.1 hlength.symm
    refine ⟨.ok ⟨[], 0, .zero, []⟩, setup.log.add .noWorkers, ?_, ?_⟩
    · rw [solve, hrs]
    · exact concludes hp hparts hlimit hclean setup.log (Division.messages_arrive [])
  | cons r rs =>
    let log := (setup.log.addAll (starts (r :: rs))).addAll (messages 0 (ps.map (run setup))).2
    let t := (Tally.start ps.length log).receiveAll none (messages 0 (ps.map (run setup))).1
    refine ⟨t.outcome, t.log, ?_,
      concludes hp hparts hlimit hclean log (messages_arrive _)⟩
    have hfaultless := faultless hclean
    rw [← runs_eq hlimit] at hfaultless
    simp only [solve, hrs, hps, combine, hfaultless, if_true, hlimit]
    rfl

end Division

/-- A truth value. -/
def Problem.bit : Problem := .ofIntervals [⟨0, 1⟩]

/-! ### Whatever the order -/

/-- **A divided search finds what one solver finds, in whatever order its workers move.**
A problem that was built can be divided along each of its variables among any workers, and
if then no worker is stopped by a fault and there is no limit:

* whoever moves next and whichever message arrives next, the workers come to an end, and
  nothing gets stuck before;
* if no worker runs out of choice points, all solutions within the current box have arrived
  in the end, each of them once, as many as are counted and as one solver counts; the
  statistics are those of the workers on their own;
* if one runs out, the failure of a worker is what they come to.

`Division.solve` takes the workers in one of these orders. -/
theorem divided_search_exact {y : VariableId} {workers : Nat} (hp : Built p)
    (hworkers : 0 < workers) (hy : y.index < p.numVariables) (hlimit : setup.limit = none) :
    ∃ d rs ps, Division.of p y workers = .ok d ∧ d.ranges = .ok rs ∧ d.parts rs = .ok ps ∧
      ((∀ q ∈ ps, ∀ f, (Division.search setup q).ending ≠ .stopped f) →
        (WellFounded fun v u : System σ => u.Step setup.limit v) ∧
        (∀ {log : Log} {u : System σ}, (Division.system setup ps log).Reaches setup.limit u →
          (u.Final ∨ ∃ v, u.Step setup.limit v) ∧
          (u.Final → ∃ r, u.outcome = .ok r ∧
            Division.Concludes p (ps.map (Division.search setup)) r)) ∧
        ∃ r log, d.solve setup = (.ok r, log) ∧
          Division.Concludes p (ps.map (Division.search setup)) r) := by
  have hd : Division.of p y workers = .ok ⟨p, y, workers⟩ :=
    Division.of_eq_ok.2 ⟨hworkers, hy, rfl⟩
  obtain ⟨rs, ps, hrs, hps, hlength, hparts⟩ := Division.exists_parts hp hd
  refine ⟨_, rs, ps, hd, hrs, hps, ?_⟩
  intro hclean
  refine ⟨System.step_wellFounded, ?_, ?_⟩
  · intro log u hu
    refine ⟨u.final_or_step setup.limit, ?_⟩
    exact Division.final_concludes hp hparts hlimit hclean hu
  · exact Division.solve_concludes hp hparts hrs hps hlength hlimit hclean

theorem divided_search_exact_bit : ∃ d ps, Division.of .bit ⟨0⟩ 2 = .ok d ∧
    d.parts [⟨0, 0⟩, ⟨1, 1⟩] = .ok ps ∧
      ∀ u, (Division.system (.default .default none) ps .off).Reaches none u → u.Final →
        ∃ found, u.outcome = .ok (.ok found) ∧
          [0] ∈ found.solutions ∧ [1] ∈ found.solutions := by
  let setup := Division.Setup.default .default none
  let d : Division := ⟨.bit, ⟨0⟩, 2⟩
  have hbuilt : Built .bit := .addVariable .empty (by decide)
  have hd : Division.of .bit ⟨0⟩ 2 = .ok d := rfl
  have hlimit : setup.limit = none := rfl
  have hworkers : 0 < 2 := by decide
  have hvariable : (⟨0⟩ : VariableId).index < Problem.bit.numVariables := by decide
  have hranges : d.ranges = .ok [⟨0, 0⟩, ⟨1, 1⟩] := by decide +kernel
  have hparts : d.parts [⟨0, 0⟩, ⟨1, 1⟩] =
    .ok [.ofIntervals [⟨0, 0⟩], .ofIntervals [⟨1, 1⟩]] := rfl
  obtain ⟨_, rs, ps, hd', hrs, hps, hexact⟩ :=
    divided_search_exact hbuilt hworkers hvariable hlimit
  obtain rfl := Except.ok.inj (hd.symm.trans hd')
  obtain rfl := Except.ok.inj (hranges.symm.trans hrs)
  obtain rfl := Except.ok.inj (hparts.symm.trans hps)
  refine ⟨d, _, hd, hparts, ?_⟩
  have hcomplete : ∀ q ∈ [Problem.ofIntervals [⟨0, 0⟩], .ofIntervals [⟨1, 1⟩]],
      (Division.search setup q).ending = .complete := by
    decide +kernel
  obtain ⟨-, hruns, -⟩ := hexact fun q hq f => hcomplete q hq ▸ Solver.Ending.noConfusion
  intro u hu hfinal
  obtain ⟨r, hr, hconcludes⟩ := (hruns hu).2 hfinal
  obtain ⟨found, rfl, hfound⟩ := hconcludes.complete (List.forall_mem_map.2 hcomplete)
  have hmem (v : Int) (hv : 0 ≤ v ∧ v ≤ 1) : [v] ∈ found.solutions := by
    refine (hfound.enumerates.mem_iff [v]).2 ⟨[v], ?_, ?_, ?_⟩
    · exact List.forall_mem_nil _
    · exact mem_singleton_iff.2 ⟨v, rfl, hv⟩
    · exact congrArg (fun x => [x]) (Int.add_zero v)
  exact ⟨found, hr, hmem 0 (by decide), hmem 1 (by decide)⟩

end BoundsSolver
