/-
# A limit on the number of solutions

A division with a limit listens until as many solutions have arrived, and a worker stops once it
has sent as many by itself.  Whatever the order, what has been taken in are distinct solutions
(`Division.taken_samples`).  If somebody still listens in the end then every worker has sent all
it has, and there are no more solutions (`Division.taken_meets`); otherwise enough have arrived.
So there are as many as are wanted, or all if there are fewer.

A division looks whether it has enough only after a solution has arrived, so that it takes one
in even if none is wanted.  The loop of the command line looks first (`search_count`): the two
agree on every limit but zero.
-/

import Mathlib.Data.Int.Interval
import Mathlib.Data.Set.Finite.Lattice
import BoundsSolver.CommandLine.Run
import BoundsSolver.Proofs.Parallel.Division

namespace BoundsSolver

/-- The values of solutions within the current box, none of them twice. -/
structure Problem.Samples (p : Problem) (solutions : List (List Int)) : Prop where
  nodup : solutions.Nodup
  genuine : ∀ values ∈ solutions,
    ∃ as, p.network.Satisfies as ∧ Mem as p.current.toList ∧ p.network.valuesOf as = values

/-- As many solutions as are wanted, or all if there are fewer. -/
structure Problem.Meets (p : Problem) (wanted : Nat) (solutions : List (List Int)) : Prop where
  samples : p.Samples solutions
  count : ∀ all, p.Enumerates all → solutions.length = min wanted all.length

/-- What workers have come to is as many solutions as are wanted, or all, and their number. -/
structure Findings.Meets (p : Problem) (wanted : Nat) (found : Findings) : Prop where
  solutions : p.Meets wanted found.solutions
  count : found.count = found.solutions.length

/-- The worker has neither stopped with a fault nor run out of choice points. -/
def Activity.Untroubled {σ : Type} : Activity σ → Prop
  | .stopped _ => False
  | .leaving last => last.error? = none
  | .searching .. | .sending .. | .ended => True

/-- The system comes to another one in some order of steps, and no worker overflows or stops with
a fault on the way. -/
def System.Goes {σ : Type} (limit : Option Nat) : System σ → System σ → Prop :=
  Relation.ReflTransGen fun s t =>
    s.Step limit t ∧ ∀ process ∈ t.processes, process.activity.Untroubled

/-- Whatever a part of a run returns satisfies the condition. -/
def Printing.Returns {α : Type} (P : α → Prop) (x : Printing α) : Prop :=
  ∀ (lines lines' : Array String) (a : α), x.run.run lines = (.ok a, lines') → P a

variable {σ : Type} {p q : Problem} {ps : List Problem} {as : List Int} {is : List Interval}
  {solutions others all : List (List Int)} {solss : List (List (List Int))}
  {found : List (List Int)} {wanted limit k n count : Nat} {s t : Solver σ} {u v : System σ}
  {setup : Division.Setup σ} {ms : List Message} {ts : List Transcript} {log : Log}
  {tally : Tally} {c : Solver.Collected σ}

/-! ### Distinct solutions -/

theorem finite_mem (is : List Interval) : {as | Mem as is}.Finite := by
  induction is with
  | nil =>
    refine (Set.finite_singleton []).subset ?_
    rintro _ ⟨⟩
    rfl
  | cons i is ih =>
    refine ((Set.finite_Icc i.min i.max).image2 List.cons ih).subset ?_
    intro as has
    cases has with
    | cons hmin hmax has => exact ⟨_, ⟨hmin, hmax⟩, _, has, rfl⟩

namespace Problem

theorem Enumerates.samples (h : p.Enumerates all) : p.Samples all :=
  ⟨h.nodup, fun values hvalues => (h.mem_iff values).1 hvalues⟩

namespace Samples

theorem of_perm (h : p.Samples solutions) (hperm : others.Perm solutions) : p.Samples others :=
  ⟨hperm.nodup_iff.2 h.nodup, fun values hvalues => h.genuine values (hperm.mem_iff.1 hvalues)⟩

theorem of_initial (h : p.Samples solutions) (hpre : others <+: solutions) : p.Samples others :=
  ⟨h.nodup.sublist hpre.sublist, fun values hvalues => h.genuine values (hpre.subset hvalues)⟩

theorem length_le (h : p.Samples solutions) (hall : p.Enumerates all) :
    solutions.length ≤ all.length := by
  refine (h.nodup.subperm ?_).length_le
  intro values hvalues
  exact (hall.mem_iff values).2 (h.genuine values hvalues)

/-- Enough solutions meet what is wanted. -/
theorem meets (h : p.Samples solutions) (hlength : solutions.length = wanted) :
    p.Meets wanted solutions := by
  refine ⟨h, ?_⟩
  intro all hall
  have hle := h.length_le hall
  omega

end Samples

/-- So do all solutions, if there are no more than are wanted. -/
theorem Enumerates.meets (h : p.Enumerates solutions) (hlength : solutions.length ≤ wanted) :
    p.Meets wanted solutions := by
  refine ⟨h.samples, ?_⟩
  intro all hall
  have hsame := (h.perm hall).length_eq
  omega

/-- **Solutions of the parts are solutions of the whole.** -/
theorem Divides.samples (hp : Built p) (h : p.Divides ps)
    (hps : List.Forall₂ Samples ps solss) : p.Samples solss.flatten := by
  have hof : List.Forall₂ (fun q sols => q ∈ ps ∧ q.Samples sols) ps solss :=
    (List.forall₂_and_left ps solss).2 ⟨fun q hq => hq, hps⟩
  have hgenuine {q : Problem} {sols : List (List Int)} (hq : q ∈ ps) (hs : q.Samples sols)
      {values : List Int} (hv : values ∈ sols) : ∃ as, p.network.Satisfies as ∧
        Mem as p.current.toList ∧ Mem as q.network.initial.toList ∧
          p.network.valuesOf as = values := by
    obtain ⟨as, hsat, has, rfl⟩ := hs.genuine values hv
    exact ⟨as, (h.satisfies_iff hq).1 hsat, h.current.2 ⟨q, hq, has⟩,
      Box.mem_of_inside has (h.built q hq).sound.inside, (h.valuesOf_eq hq as).symm⟩
  have hpart := forall₂_exists_right hof.flip
  refine ⟨List.nodup_flatten.2 ⟨?_, ?_⟩, ?_⟩
  · intro sols hsols
    obtain ⟨q, -, -, hs⟩ := hpart sols hsols
    exact hs.nodup
  · refine pairwise_of_forall₂ hof h.apart ?_
    rintro q q' sols sols' ⟨hq, hs⟩ ⟨hq', hs'⟩ hapart values hv hv'
    obtain ⟨as, -, has, hin, rfl⟩ := hgenuine hq hs hv
    obtain ⟨bs, -, hbs, hin', heq⟩ := hgenuine hq' hs' hv'
    -- The values are those of one assignment, which would be in both parts.
    obtain rfl := hp.sound.network.eq_of_valuesOf (Box.mem_of_inside hbs hp.sound.inside)
      (Box.mem_of_inside has hp.sound.inside) heq
    exact hapart _ hin hin'
  · intro values hv
    obtain ⟨sols, hsols, hv⟩ := List.mem_flatten.1 hv
    obtain ⟨q, -, hq, hs⟩ := hpart sols hsols
    obtain ⟨as, hsat, has, -, heq⟩ := hgenuine hq hs hv
    exact ⟨as, hsat, has, heq⟩

end Problem

/-! ### One worker -/

namespace Solver

/-- There are finitely many pending solutions. -/
theorem Fresh.exists_lists (hs : s.Fresh p) : ∃ ass, s.Lists p.network ass := by
  have hfinite : {as | s.Pending p.network as}.Finite := by
    refine (finite_mem p.current.toList).subset ?_
    intro as has
    exact ((hs.pending_iff as).1 has).2
  refine ⟨hfinite.toFinset.toList, Finset.nodup_toList _, ?_⟩
  intro as
  rw [Finset.mem_toList, Set.Finite.mem_toFinset]
  exact Iff.rfl

/-- What is collected are distinct solutions, whether the search comes to its end or not. -/
theorem Fresh.collect_samples (hp : Built p) (hs : s.Fresh p) (wanted : Option Nat) :
    p.Samples (s.collect wanted).solutions := by
  have hn := hp.sound.network
  obtain ⟨vs, hvs, hserves⟩ := collectOnto_serves hn hs.idle [] wanted
  have hvs : (s.collect wanted).solutions = vs := hvs
  rw [hvs]
  refine ⟨hserves.nodup hn hs.idle.sound, ?_⟩
  intro values hv
  obtain ⟨ass, rfl, hass⟩ := hserves.hands
  obtain ⟨as, has, rfl⟩ := List.mem_map.1 hv
  obtain ⟨hsat, hm⟩ := (hs.pending_iff as).1 (hass.spent as has).1
  exact ⟨as, hsat, hm, rfl⟩

/-- A search that ends before it has found as many solutions as are wanted is one for all. -/
theorem collectOnto_short {wanted : Option Nat} (hw : wanted = some k)
    (hdone : (s.collectOnto found wanted).ending = .complete)
    (hlt : (s.collectOnto found wanted).solutions.length < found.length + k) :
    s.collectOnto found none = s.collectOnto found wanted := by
  fun_induction collectOnto found wanted s generalizing k with
  | case1 found s =>
    obtain rfl := Option.some.inj hw
    rw [List.length_reverse] at hlt
    exact absurd hlt (Nat.lt_irrefl _)
  | case2 => cases hdone
  | case3 found wanted s _ t ht => exact collectOnto_of_exhausted ht
  | case4 => cases hdone
  | case5 found wanted s hmore values t ht ih =>
    rw [collectOnto_of_solution ht]
    subst hw
    obtain ⟨k, rfl⟩ := Nat.exists_eq_succ_of_ne_zero fun hk => hmore (congrArg some hk)
    refine ih (k := k) rfl hdone ?_
    rw [List.length_cons]
    omega

/-- What a worker comes to whose reports neither break off nor say that it failed. -/
theorem Collected.complete_of_transcript (hfault : c.transcript.fault = none)
    (hok : ∀ e, ¬ c.transcript.Fails e) : c.ending = .complete := by
  cases hending : c.ending with
  | complete => rfl
  | failed e => exact absurd (transcript_fails_iff.2 hending) (hok e)
  | stopped f =>
    rw [transcript, hending] at hfault
    cases hfault

end Solver

/-! ### What is taken in -/

namespace Tally

/-- A tally that listens has fewer solutions than are wanted, and closes when it has as many. -/
structure Awaits (limit : Nat) (t : Tally) : Prop where
  awaiting : t.closed = false → t.count < max limit 1
  enough : t.closed = true → t.count = max limit 1

theorem Awaits.receive {t : Tally} (h : t.Awaits limit) (m : Message) :
    (t.receive (some limit) m).Awaits limit := by
  cases hclosed : t.closed with
  | true =>
    rw [Tally.receive, if_pos hclosed]
    exact h
  | false =>
    have hlt := h.awaiting hclosed
    rw [Tally.receive, hclosed, if_neg Bool.false_ne_true]
    cases m.report with
    | finished statistics => exact ⟨fun _ => hlt, fun htrue => absurd htrue Bool.false_ne_true⟩
    | failed error statistics =>
      exact ⟨fun _ => hlt, fun htrue => absurd htrue Bool.false_ne_true⟩
    | solution values =>
      dsimp only
      split <;> rename_i hreached
      · have hle : limit ≤ t.count + 1 := of_decide_eq_true hreached
        refine ⟨fun hfalse => absurd hfalse.symm Bool.false_ne_true, fun _ => ?_⟩
        show t.count + 1 = _
        omega
      · have hle : ¬ limit ≤ t.count + 1 := of_decide_eq_false (Bool.not_eq_true _ ▸ hreached)
        refine ⟨fun _ => ?_, fun htrue => absurd htrue Bool.false_ne_true⟩
        show t.count + 1 < _
        omega

theorem start_awaits (limit n : Nat) (log : Log) : (start n log).Awaits limit where
  awaiting _ := Nat.lt_of_lt_of_le Nat.one_pos (Nat.le_max_right ..)
  enough h := absurd h Bool.false_ne_true

/-- **A tally takes in what arrives until it has enough.** -/
theorem receiveAll_some (limit n : Nat) (log : Log) (ms : List Message) :
    ∃ taken, taken <+: ms ∧ ((start n log).receiveAll (some limit) ms).Holds n taken ∧
      ((start n log).receiveAll (some limit) ms).Awaits limit ∧
      (((start n log).receiveAll (some limit) ms).closed = false → taken = ms) := by
  induction ms using List.reverseRecOn with
  | nil => exact ⟨[], List.prefix_rfl, start_holds n log, start_awaits limit n log, fun _ => rfl⟩
  | append_singleton ms m ih =>
    obtain ⟨taken, hpre, hholds, hawaits, hopen⟩ := ih
    rw [receiveAll_concat]
    cases hclosed : ((start n log).receiveAll (some limit) ms).closed with
    | true =>
      have hsame : ((start n log).receiveAll (some limit) ms).receive (some limit) m =
          (start n log).receiveAll (some limit) ms := by
        rw [receive, if_pos hclosed]
      rw [hsame]
      refine ⟨taken, hpre.trans (List.prefix_append _ _), hholds, hawaits, ?_⟩
      intro hfalse
      rw [hclosed] at hfalse
      cases hfalse
    | false =>
      obtain rfl := hopen hclosed
      exact ⟨taken ++ [m], List.prefix_rfl, hholds.receive hclosed m, hawaits.receive m,
        fun _ => rfl⟩

end Tally

/-! ### What that comes to -/

namespace Division

/-- The work of the worker for a part, as a search for so many solutions. -/
theorem run_eq (h : setup.limit = some limit) (q : Problem) :
    run setup q = ((solver setup q).collect (some (max limit 1))).transcript := by
  show (solver setup q).work setup.limit = _
  rw [h]
  rfl

/-- What has arrived from one worker are distinct solutions. -/
theorem begun_samples (hq : Built q) (hlimit : setup.limit = some limit) {rs : List Report}
    (hpre : rs <+: (run setup q).reports) : q.Samples (rs.filterMap Report.solution?) := by
  refine ((solver_fresh hq setup).collect_samples hq (some (max limit 1))).of_initial ?_
  rw [← Solver.Collected.transcript_solutions, ← run_eq hlimit]
  exact hpre.filterMap _

/-- **What has been taken in are distinct solutions**, whatever is still to arrive. -/
theorem taken_samples (hp : Built p) (hparts : p.Divides ps) (hlimit : setup.limit = some limit)
    (hknown : ∀ m ∈ ms, m.worker < ps.length)
    (hbegun : ∀ {k : Nat} {q : Problem}, ps[k]? = some q →
      reportsOf k ms <+: (run setup q).reports) :
    p.Samples (ms.filterMap (·.report.solution?)) := by
  -- The messages are all of those of workers that end once they have sent what has arrived.
  let ts : List Transcript := ps.mapIdx fun k q => { run setup q with reports := reportsOf k ms }
  have hlength : ts.length = ps.length := List.length_mapIdx
  have hget {k : Nat} {t : Transcript} (ht : ts[k]? = some t) : t.reports = reportsOf k ms := by
    rw [List.getElem?_mapIdx] at ht
    obtain ⟨q, -, rfl⟩ := Option.map_eq_some_iff.1 ht
    rfl
  have harrives : Arrives ts ms :=
    ⟨fun m hm => hlength ▸ hknown m hm, fun ht => (hget ht).symm⟩
  have hsamples : List.Forall₂ Problem.Samples ps (ts.map Transcript.solutions) := by
    refine List.forall₂_iff_get.2 ⟨by rw [List.length_map, hlength], ?_⟩
    intro k hk hk'
    have hq : ps[k]? = some ps[k] := List.getElem?_eq_getElem hk
    rw [List.get_eq_getElem, List.get_eq_getElem, List.getElem_map, Transcript.solutions,
      hget (List.getElem?_eq_getElem _)]
    exact begun_samples (hparts.built _ (List.getElem_mem hk)) hlimit (hbegun hq)
  have hperm := harrives.perm.filterMap Report.solution?
  rw [List.filterMap_map, List.filterMap_flatMap] at hperm
  exact (hparts.samples hp hsamples).of_perm hperm

/-- A worker that comes to its end with fewer solutions than are wanted has sent all it has. -/
theorem run_enumerates (hq : Built q) (hlimit : setup.limit = some limit)
    (hfaultless : (run setup q).fault = none) (hok : ∀ e, ¬ (run setup q).Fails e)
    (hlt : (run setup q).solutions.length < max limit 1) :
    q.Enumerates (run setup q).solutions := by
  rw [run_eq hlimit] at hfaultless hok hlt ⊢
  rw [Solver.Collected.transcript_solutions] at hlt ⊢
  have hdone := Solver.Collected.complete_of_transcript hfaultless hok
  have hshort : (solver setup q).collect none =
      (solver setup q).collect (some (max limit 1)) := by
    refine Solver.collectOnto_short rfl hdone (Nat.lt_of_lt_of_le hlt ?_)
    simp
  rw [← hshort] at hdone ⊢
  exact (solver_fresh hq setup).collect_enumerates hq hdone

/-- **What has been taken in meets the limit** if all has arrived, as long as somebody listens, and
no worker has failed. -/
theorem taken_meets {found : Findings} (hp : Built p) (hparts : p.Divides ps)
    (hlimit : setup.limit = some limit) (hknown : ∀ m ∈ ms, m.worker < ps.length)
    (hbegun : ∀ {k : Nat} {q : Problem}, ps[k]? = some q →
      reportsOf k ms <+: (run setup q).reports)
    (htally : tally = (Tally.start ps.length log).receiveAll (some limit) ms)
    (hall : tally.closed = false → Arrives (ps.map (run setup)) ms ∧
      ∀ q ∈ ps, (run setup q).fault = none)
    (hfound : tally.outcome = .ok found) : found.Meets p (max limit 1) := by
  obtain ⟨taken, hpre, hholds, hawaits, hopen⟩ := Tally.receiveAll_some limit ps.length log ms
  rw [← htally] at hholds hawaits hopen
  obtain ⟨hsolutions, hcount⟩ : found.solutions = tally.solutions.toList ∧
      found.count = tally.count := by
    unfold Tally.outcome at hfound
    split at hfound
    · cases hfound
    · rw [← Except.ok.inj hfound]
      exact ⟨rfl, rfl⟩
  have hsamples : p.Samples found.solutions := by
    rw [hsolutions, hholds.solutions]
    refine taken_samples hp hparts hlimit (fun m hm => hknown m (hpre.subset hm)) ?_
    intro k q hq
    refine List.IsPrefix.trans ?_ (hbegun hq)
    exact (hpre.filter _).map _
  have hsize : found.solutions.length = tally.count := by
    rw [hsolutions, Array.length_toList, hholds.count]
  refine ⟨?_, hcount.trans hsize.symm⟩
  cases hclosed : tally.closed with
  | true => exact hsamples.meets (hsize.trans (hawaits.enough hclosed))
  | false =>
    obtain rfl := hopen hclosed
    obtain ⟨harrives, hfaultless⟩ := hall hclosed
    have hlt := hawaits.awaiting hclosed
    rw [← List.length_map (f := run setup)] at hholds
    have hok : ∀ t ∈ ps.map (run setup), ∀ e, ¬ t.Fails e := by
      intro t ht e hfails
      obtain ⟨k, e', -, herror, -⟩ := hholds.outcome_error harrives ht hfails
      cases herror.symm.trans hfound
    obtain ⟨found', hfound', hperm, -⟩ := hholds.outcome_ok harrives hok
    obtain rfl := Except.ok.inj (hfound.symm.trans hfound')
    rw [List.flatMap_map] at hperm
    -- Every worker has sent all it has, since all together have not sent enough.
    have hwhole (q : Problem) (hq : q ∈ ps) : q.Enumerates (run setup q).solutions := by
      refine run_enumerates (hparts.built q hq) hlimit (hfaultless q hq)
        (hok _ (List.mem_map_of_mem hq)) (Nat.lt_of_le_of_lt (m := found.solutions.length) ?_ ?_)
      · rw [hperm.length_eq, List.flatMap_def]
        refine (List.sublist_flatten_of_mem ?_).length_le
        exact List.mem_map_of_mem (f := fun q => (run setup q).solutions) hq
      · omega
    refine Problem.Enumerates.meets ?_ (by omega)
    exact (hparts.enumerates hp hwhole).of_perm hperm

end Division

/-! ### Without trouble -/

/-- No worker has got into trouble, and nothing has been said about any. -/
structure System.Calm (s : System σ) : Prop where
  untroubled : ∀ process ∈ s.processes, process.activity.Untroubled
  inFlight : ∀ process ∈ s.processes, ∀ r ∈ process.inFlight, r.error? = none
  failure : s.tally.failure = none

/-- An untroubled worker does not report that it failed. -/
theorem Activity.Untroubled.sent {a a' : Activity σ} {limit : Option Nat} {listening : Bool}
    {sent : List Report} (h : a.Untroubled) (hmove : a.move limit listening = some (a', sent)) :
    ∀ r ∈ sent, r.error? = none := by
  unfold Activity.move at hmove
  split at hmove
  · split at hmove <;> cases hmove <;> exact List.forall_mem_nil _
  · split at hmove
    · split at hmove <;> cases hmove <;> exact List.forall_mem_singleton.2 rfl
    · cases hmove
      exact List.forall_mem_nil _
  · cases hmove
    split
    · exact List.forall_mem_singleton.2 h
    · exact List.forall_mem_nil _
  · cases hmove
  · cases hmove

theorem System.step_calm {limit : Option Nat} (h : u.Step limit v)
    (hv : ∀ process ∈ v.processes, process.activity.Untroubled) (hu : u.Calm) : v.Calm := by
  cases h with
  | @work k process activity sent hk hmove =>
    have hprocess := List.mem_of_getElem? hk
    refine ⟨hv, ?_, hu.failure⟩
    intro process' hmem r hr
    rcases List.mem_or_eq_of_mem_set hmem with hmem | rfl
    · exact hu.inFlight process' hmem r hr
    · rcases List.mem_append.1 hr with hr | hr
      · exact hu.inFlight process hprocess r hr
      · exact (hu.untroubled process hprocess).sent hmove r hr
  | @deliver k activity r rest hopen hk =>
    have hprocess := hu.inFlight _ (List.mem_of_getElem? hk)
    obtain ⟨-, -, -, hfailure⟩ := Tally.receive_of_open limit hopen ⟨k, r⟩
    refine ⟨hv, ?_, ?_⟩
    · intro process' hmem r' hr'
      rcases List.mem_or_eq_of_mem_set hmem with hmem | rfl
      · exact hu.inFlight process' hmem r' hr'
      · exact hprocess r' (List.mem_cons_of_mem r hr')
    · rw [hfailure, hu.failure, hprocess r List.mem_cons_self]
      rfl

namespace System.Goes

variable {limit : Option Nat}

theorem reaches (h : u.Goes limit v) : u.Reaches limit v :=
  Relation.ReflTransGen.mono (fun _ _ hstep => hstep.1) _ _ h

theorem calm (h : u.Goes limit v) (hu : u.Calm) : v.Calm := by
  induction h with
  | refl => exact hu
  | tail _ hstep ih => exact step_calm hstep.1 hstep.2 ih

end System.Goes

theorem System.start_calm (ss : List (Solver σ)) (n : Nat) (log : Log) :
    (start ss (.start n log)).Calm := by
  refine ⟨?_, ?_, rfl⟩
  · intro process hmem
    obtain ⟨s, -, rfl⟩ := List.mem_map.1 hmem
    trivial
  · intro process hmem
    obtain ⟨s, -, rfl⟩ := List.mem_map.1 hmem
    exact List.forall_mem_nil _

/-- Without trouble the system comes to findings. -/
theorem System.Calm.outcome (h : u.Calm) : ∃ found, u.outcome = .ok (.ok found) := by
  have hfaultless : (u.processes.all fun process => process.activity.fault?.isNone) = true := by
    refine List.all_eq_true.2 ?_
    intro process hmem
    have huntroubled := h.untroubled process hmem
    cases hactivity : process.activity with
    | stopped fault =>
      rw [hactivity] at huntroubled
      cases huntroubled
    | searching => rfl
    | sending => rfl
    | leaving => rfl
    | ended => rfl
  refine ⟨⟨u.tally.solutions.toList, u.tally.count, u.tally.workers.foldl .merge .zero,
    u.tally.workers.toList⟩, ?_⟩
  rw [System.outcome, hfaultless, if_pos rfl, Tally.outcome, h.failure]

/-! ### One solver -/

namespace Printing

variable {α β : Type} {P : α → Prop} {Q : β → Prop} {x : Printing α} {f : α → Printing β}

theorem returns_pure {a : α} (h : P a) : (pure a : Printing α).Returns P := by
  intro lines lines' a' hrun
  cases hrun
  exact h

theorem returns_throw (e : Stop) : (throw e : Printing α).Returns P := by
  intro lines lines' a hrun
  cases hrun

/-- Only what comes last matters. -/
theorem returns_bind (h : ∀ a, (f a).Returns Q) : (x >>= f).Returns Q := by
  intro lines lines' b hrun
  cases hx : x.run.run lines with
  | mk r middle =>
    have hrun : (do let r ← x.run; ExceptT.bindCont f r : StateM (Array String) _).run lines =
        (.ok b, lines') := hrun
    rw [StateT.run_bind, hx] at hrun
    cases r with
    | ok a => exact h a _ _ _ hrun
    | error e => cases hrun

end Printing

namespace Solver

/-- Without its log a solver searches on as with it. -/
theorem forgetLog_sound {m : Network} (hs : s.Sound m) : s.forgetLog.Sound m := by
  have hcoherent : s.forgetLog.state.Coherent m :=
    ⟨hs.coherent.inside, hs.coherent.faithful, hs.coherent.flags, hs.coherent.settled⟩
  refine ⟨hs.network, hcoherent, ?_, hs.points, hs.rooted⟩
  intro hph
  exact ⟨hcoherent, (hs.primed hph).alive, (hs.primed hph).attends⟩

/-- Once a pending solution has been handed out the others are left. -/
theorem Lists.erase {m : Network} {ass : List (List Int)} {values : List Int} (h : s.Lists m ass)
    (haccounts : Accounts m s t (some (.solution values))) :
    ∃ rest, t.Lists m rest ∧ ass.length = rest.length + 1 := by
  obtain ⟨as, -, hgone, hiff⟩ := haccounts
  have has : as ∈ ass := (h.mem_iff as).2 ((hiff as).2 (.inl rfl))
  refine ⟨ass.erase as, ⟨h.nodup.erase as, ?_⟩, ?_⟩
  · intro bs
    rw [h.nodup.mem_erase_iff, h.mem_iff, hiff]
    constructor
    · rintro ⟨hne, heq | hpending⟩
      · exact absurd heq hne
      · exact hpending
    · intro hpending
      refine ⟨?_, .inr hpending⟩
      rintro rfl
      exact hgone hpending
  · have := List.length_pos_of_mem has
    rw [List.length_erase_of_mem has]
    omega

end Solver

/-- **The loop of the command line counts the pending solutions**, up to the limit. -/
theorem search_count {m : Network} (hn : m.WellFormed) (a : Arguments)
    (draw : List Int → Checked (List String)) (hs : s.Sound m) (ho : s.Orderly)
    {ass : List (List Int)} (hlists : s.Lists m ass) (hle : count ≤ limit) :
    (a.search draw (some limit) count s).Returns (· = min limit (count + ass.length)) := by
  induction hw : s.weight using Nat.strongRecOn generalizing s ass count with
  | _ w ih =>
    rw [Arguments.search]
    split
    · rename_i hlimit
      obtain rfl := Option.some.inj hlimit
      exact Printing.returns_bind fun _ => Printing.returns_pure (by omega)
    · rename_i hmore
      split <;> rename_i hu
      · exact Printing.returns_throw _
      · exact Printing.returns_bind fun _ => Printing.returns_throw _
      · obtain ⟨-, -, hnone⟩ := Solver.solveOne_accounts hn hs ho hu
        have hempty : ass = [] := List.eq_nil_iff_forall_not_mem.2 fun as has =>
          hnone as ((hlists.mem_iff as).1 has)
        subst hempty
        refine Printing.returns_bind fun _ => Printing.returns_bind fun _ => ?_
        exact Printing.returns_pure (Nat.min_eq_right hle).symm
      · rename_i values t
        obtain ⟨hs', ho', haccounts⟩ := Solver.solveOne_accounts hn hs ho hu
        obtain ⟨rest, hrest, hlength⟩ := hlists.erase haccounts
        have hlt : t.forgetLog.weight < s.weight := by
          rw [Solver.weight_forgetLog]
          exact Solver.solveOne_solution_weight hu
        have hne : count ≠ limit := fun heq => hmore (congrArg some heq.symm)
        refine Printing.returns_bind fun _ => Printing.returns_bind fun _ => ?_
        have hforget : t.forgetLog.Lists m rest := ⟨hrest.nodup, hrest.mem_iff⟩
        have hcount := ih _ (hw ▸ hlt) (Solver.forgetLog_sound hs') ⟨ho'.fresh, ho'.apart⟩ hforget
          (Nat.lt_of_le_of_ne hle hne) rfl
        rw [hlength, Nat.add_comm rest.length, ← Nat.add_assoc]
        exact hcount

/-! ### Whatever the order -/

namespace Division

/-- Taking the workers one after the other meets the limit. -/
theorem solve_meets {d : Division} {rs : List Interval} (hp : Built p) (hparts : p.Divides ps)
    (hrs : d.ranges = .ok rs) (hps : d.parts rs = .ok ps) (hlength : rs.length = ps.length)
    (hlimit : setup.limit = some limit)
    (hclean : ∀ q ∈ ps, (run setup q).fault = none ∧ ∀ e, ¬ (run setup q).Fails e) :
    ∃ found log, d.solve setup = (.ok (.ok found), log) ∧ found.Meets p (max limit 1) := by
  cases rs with
  | nil =>
    obtain rfl := List.length_eq_zero_iff.1 hlength.symm
    have hnone : p.Enumerates (([] : List Problem).flatMap fun _ => []) :=
      hparts.enumerates hp (List.forall_mem_nil _)
    refine ⟨⟨[], 0, .zero, []⟩, setup.log.add .noWorkers, ?_, hnone.meets (Nat.zero_le _), rfl⟩
    rw [solve, hrs]
  | cons r rs =>
    let log := (setup.log.addAll (starts (r :: rs))).addAll (messages 0 (ps.map (run setup))).2
    let t := (Tally.start ps.length log).receiveAll (some limit) (messages 0 (ps.map (run setup))).1
    have harrives := messages_arrive (ps.map (run setup))
    have hfaultless : ((ps.map (run setup)).all fun t => t.fault.isNone) = true := by
      rw [List.all_map, List.all_eq_true]
      intro q hq
      exact Option.isNone_iff_eq_none.2 (hclean q hq).1
    have hbegun {k : Nat} {q : Problem} (hq : ps[k]? = some q) :
        reportsOf k (messages 0 (ps.map (run setup))).1 <+: (run setup q).reports := by
      rw [harrives.whole (by rw [List.getElem?_map, hq]; rfl)]
    have hnone : t.failure = none := by
      obtain ⟨taken, hpre, hholds, -⟩ :=
        Tally.receiveAll_some limit ps.length log (messages 0 (ps.map (run setup))).1
      rw [hholds.failure, List.findSome?_eq_none_iff]
      rintro ⟨k, r'⟩ hm
      obtain ⟨transcript, ht, hr'⟩ := harrives.mem_iff.1 (hpre.subset hm)
      obtain ⟨q, hq, rfl⟩ := List.mem_map.1 (List.mem_of_getElem? ht)
      cases he : r'.error? with
      | none => rfl
      | some e => exact absurd ⟨r', hr', he⟩ ((hclean q hq).2 e)
    have hfound : t.outcome = .ok ⟨t.solutions.toList, t.count, t.workers.foldl .merge .zero,
        t.workers.toList⟩ := by
      rw [Tally.outcome, hnone]
    refine ⟨_, t.log, ?_, taken_meets hp hparts hlimit ?_ hbegun rfl ?_ hfound⟩
    · simp only [solve, hrs, hps, combine, hfaultless, if_true, hlimit]
      exact congrArg (fun r => (Except.ok r, t.log)) hfound
    · intro m hm
      rw [← List.length_map (f := run setup)]
      exact harrives.known m hm
    · exact fun _ => ⟨harrives, fun q hq => (hclean q hq).1⟩

/-- Findings meet the limit, in whatever order they have come together. -/
theorem final_meets {found : Findings} (hp : Built p) (hparts : p.Divides ps)
    (hlimit : setup.limit = some limit) (hu : (system setup ps log).Reaches setup.limit u)
    (hfinal : u.Final) (hfound : u.outcome = .ok (.ok found)) : found.Meets p (max limit 1) := by
  obtain ⟨ms, hms⟩ := hu.arriving (system_arriving setup ps log)
  have htally : u.tally.outcome = .ok found := by
    unfold System.outcome at hfound
    split at hfound
    · exact Except.ok.inj hfound
    · cases hfound
  refine taken_meets hp hparts hlimit ?_ ?_ (hlimit ▸ hms.taken) ?_ htally
  · intro m hm
    rw [← List.length_map (f := run setup)]
    exact hms.known m hm
  · intro k q hq
    exact hms.begun (by rw [List.getElem?_map, hq]; rfl)
  · intro hopen
    obtain ⟨harrives, houtcome⟩ := hfinal.arrives hms hopen
    refine ⟨harrives, ?_⟩
    intro q hq
    rw [hfound] at houtcome
    split at houtcome
    · rename_i hfaultless
      exact Option.isNone_iff_eq_none.1
        (List.all_eq_true.1 hfaultless _ (List.mem_map_of_mem hq))
    · cases houtcome

end Division

/-- **A limit is met in whatever order the workers move**, as long as none runs out of choice
points or stops with a fault:

* whoever moves next and whichever message arrives next, the workers come to an end, and nothing
  gets stuck before;
* what they come to then are distinct solutions, as many as are wanted, or all if there are
  fewer; findings are always so, also if a worker that is not listened to gets into trouble;
* `Division.solve`, which takes the workers in one of these orders, comes to such findings.

One solution is wanted at least, even with a limit of zero; the loop of the command line counts
as many solutions as the limit says, or all if there are fewer. -/
theorem divided_search_limit {y : VariableId} {workers : Nat} (hp : Built p)
    (hworkers : 0 < workers) (hy : y.index < p.numVariables) (hlimit : setup.limit = some limit) :
    ∃ d rs ps all, Division.of p y workers = .ok d ∧ d.ranges = .ok rs ∧ d.parts rs = .ok ps ∧
      p.Enumerates all ∧
      (WellFounded fun v u : System σ => u.Step setup.limit v) ∧
      (∀ {log : Log} {u : System σ}, (Division.system setup ps log).Reaches setup.limit u →
        (u.Final ∨ ∃ v, u.Step setup.limit v) ∧
        (u.Final → ∀ found, u.outcome = .ok (.ok found) → found.Meets p (max limit 1))) ∧
      (∀ {log : Log} {u : System σ}, (Division.system setup ps log).Goes setup.limit u → u.Final →
        ∃ found, u.outcome = .ok (.ok found) ∧ found.Meets p (max limit 1)) ∧
      ((∀ q ∈ ps, (Division.run setup q).fault = none ∧ ∀ e, ¬ (Division.run setup q).Fails e) →
        ∃ found log, d.solve setup = (.ok (.ok found), log) ∧ found.Meets p (max limit 1)) ∧
      ∀ (a : Arguments) (draw : List Int → Checked (List String)),
        (a.search draw (some limit) 0
          (Solver.ofProblem p a.options a.threshold).forgetLog).Returns
            (· = min limit all.length) := by
  have hd : Division.of p y workers = .ok ⟨p, y, workers⟩ :=
    Division.of_eq_ok.2 ⟨hworkers, hy, rfl⟩
  obtain ⟨rs, ps, hrs, hps, hlength, hparts⟩ := Division.exists_parts hp hd
  have hfresh (o : Options) (log : Log) : (Solver.ofProblem p o log).Fresh p :=
    Solver.start_fresh hp o log (Solver.ofProblem p o log).brancher ()
  obtain ⟨ass, hass⟩ := (hfresh .default .off).exists_lists
  refine ⟨_, rs, ps, ass.map p.network.valuesOf, hd, hrs, hps,
    (hfresh .default .off).enumerates hp hass, System.step_wellFounded, ?_, ?_, ?_, ?_⟩
  · intro log u hu
    exact ⟨u.final_or_step setup.limit, fun hfinal found hfound =>
      Division.final_meets hp hparts hlimit hu hfinal hfound⟩
  · intro log u hu hfinal
    obtain ⟨found, hfound⟩ := (hu.calm (System.start_calm _ _ log)).outcome
    exact ⟨found, hfound, Division.final_meets hp hparts hlimit hu.reaches hfinal hfound⟩
  · exact Division.solve_meets hp hparts hrs hps hlength hlimit
  · intro a draw
    let first := Solver.ofProblem p a.options a.threshold
    have hlists : first.forgetLog.Lists p.network ass := by
      refine ⟨hass.nodup, ?_⟩
      intro as
      rw [hass.mem_iff, (hfresh .default .off).pending_iff]
      exact ((hfresh a.options a.threshold).pending_iff as).symm
    have hidle : first.Idle p.network := (hfresh a.options a.threshold).idle
    have hcount := search_count hp.sound.network a draw (Solver.forgetLog_sound hidle.sound)
      ⟨hidle.orderly.fresh, hidle.orderly.apart⟩ hlists (Nat.zero_le limit)
    rw [Nat.zero_add] at hcount
    rw [List.length_map]
    exact hcount

/-- With a limit of one, two workers who share out a truth value come to one of its values. -/
theorem divided_search_limit_bit : ∃ d ps, Division.of .bit ⟨0⟩ 2 = .ok d ∧
    d.parts [⟨0, 0⟩, ⟨1, 1⟩] = .ok ps ∧
      ∀ u, (Division.system (.default .default (some 1)) ps .off).Reaches (some 1) u → u.Final →
        ∀ found, u.outcome = .ok (.ok found) →
          found.solutions.length = 1 ∧ found.count = 1 := by
  let setup := Division.Setup.default .default (some 1)
  let d : Division := ⟨.bit, ⟨0⟩, 2⟩
  have hbuilt : Built .bit := .addVariable .empty (by decide)
  have hd : Division.of .bit ⟨0⟩ 2 = .ok d := rfl
  have hworkers : 0 < 2 := by decide
  have hvariable : (⟨0⟩ : VariableId).index < Problem.bit.numVariables := by decide
  have hlimit : setup.limit = some 1 := rfl
  have hranges : d.ranges = .ok [⟨0, 0⟩, ⟨1, 1⟩] := by decide +kernel
  obtain ⟨_, rs, ps, all, hd', hrs, hps, hall, -, hruns, -⟩ :=
    divided_search_limit hbuilt hworkers hvariable hlimit
  obtain rfl := Except.ok.inj (hd.symm.trans hd')
  obtain rfl := Except.ok.inj (hranges.symm.trans hrs)
  refine ⟨d, ps, hd, hps, ?_⟩
  intro u hu hfinal found hfound
  have hzero : [0] ∈ all := by
    refine (hall.mem_iff [0]).2 ⟨[0], List.forall_mem_nil _, ?_, rfl⟩
    exact mem_singleton_iff.2 ⟨0, rfl, by decide⟩
  have hpos : 0 < all.length := List.length_pos_of_mem hzero
  obtain ⟨hmeets, hcount⟩ := (hruns hu).2 hfinal found hfound
  have hlength := hmeets.count all hall
  omega

/-- A shared domain with a single value. -/
def Problem.nought : Problem := .ofIntervals [⟨0, 0⟩]

/-- With a limit of zero a division takes in a solution all the same, where the loop of the
command line counts none. -/
theorem limit_of_zero :
    Built .nought ∧ Problem.nought.Enumerates [[0]] ∧
      (∃ d found log, Division.of .nought ⟨0⟩ 1 = .ok d ∧
        d.solve (.default .default (some 0)) = (.ok (.ok found), log) ∧
          found.solutions = [[0]] ∧ found.count = 1) ∧
      ∀ (a : Arguments) (draw : List Int → Checked (List String)) (lines : Array String),
        ∃ lines', (a.search draw (some 0) 0
          (Solver.ofProblem .nought a.options a.threshold).forgetLog).run.run lines =
            (.ok 0, lines') := by
  refine ⟨.addVariable .empty (by decide), ⟨List.nodup_singleton _, ?_⟩, ?_, ?_⟩
  · intro values
    rw [List.mem_singleton]
    constructor
    · rintro rfl
      exact ⟨[0], List.forall_mem_nil _, mem_singleton_iff.2 ⟨0, rfl, by decide⟩, rfl⟩
    · rintro ⟨as, -, has, rfl⟩
      obtain ⟨x, rfl, hlo, hhi⟩ := mem_singleton_iff.1 has
      obtain rfl : x = 0 := Int.le_antisymm hhi hlo
      rfl
  · let d : Division := ⟨.nought, ⟨0⟩, 1⟩
    have hsolve : ∃ x, (d.solve (.default .default (some 0))).1 = .ok x ∧
        ∃ found, x = .ok found ∧ found.solutions = [[0]] ∧ found.count = 1 := by
      decide +kernel
    obtain ⟨_, hsolve, found, rfl, hsolutions, hcount⟩ := hsolve
    exact ⟨d, found, _, rfl, Prod.ext hsolve rfl, hsolutions, hcount⟩
  · intro a draw lines
    rw [Arguments.search, if_pos rfl]
    exact ⟨_, rfl⟩

end BoundsSolver
