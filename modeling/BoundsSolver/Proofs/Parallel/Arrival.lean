/-
# What arrives

A worker that is listened to sends what its `Solver.work` says, move by move
(`Solver.work_sends`).  As long as all are listened to, what has arrived from a worker, what
is in flight and what it is still to send make up its transcript, whichever step is taken
(`System.step_arriving`).  So in a final system everything has arrived from everyone, and
only the order between workers is left open (`System.Final.arrives`); one of the orders is
that of `Division.messages` (`Division.messages_arrive`).
-/

import BoundsSolver.Proofs.Parallel.System

namespace BoundsSolver

/-- The reports of one worker among the messages. -/
def reportsOf (k : Nat) (ms : List Message) : List Report :=
  (ms.filter fun m => m.worker = k).map Message.report

/-- The messages are those of the transcripts, each worker's in its order. -/
structure Arrives (ts : List Transcript) (ms : List Message) : Prop where
  known : ∀ m ∈ ms, m.worker < ts.length
  whole : ∀ {k : Nat} {t : Transcript}, ts[k]? = some t → reportsOf k ms = t.reports

/-- What a worker sends to somebody who listens from here to its end, and the fault that
ends it, if one does. -/
inductive Activity.Sends {σ : Type} (limit : Option Nat) :
    Activity σ → List Report → Option Fault → Prop
  | ended : Sends limit .ended [] none
  | stopped {fault : Fault} : Sends limit (.stopped fault) [] (some fault)
  | move {a a' : Activity σ} {sent rest : List Report} {fault : Option Fault} :
    a.move limit true = some (a', sent) → Sends limit a' rest fault →
      Sends limit a (sent ++ rest) fault

/-- What a worker has in flight and is still to send to somebody who listens completes its
transcript. -/
def Process.Owes {σ : Type} (limit : Option Nat) (t : Transcript) (received : List Report)
    (process : Process σ) : Prop :=
  ∃ rest, process.activity.Sends limit rest t.fault ∧
    t.reports = received ++ (process.inFlight ++ rest)

/-- These messages have arrived, and as long as somebody listens, each worker owes the rest of
its transcript. -/
structure System.Arriving {σ : Type} (limit : Option Nat) (ts : List Transcript) (tally : Tally)
    (s : System σ) (ms : List Message) : Prop where
  taken : s.tally = tally.receiveAll limit ms
  known : ∀ m ∈ ms, m.worker < ts.length
  size : s.processes.length = ts.length
  begun : ∀ {k : Nat} {t : Transcript}, ts[k]? = some t → reportsOf k ms <+: t.reports
  owed : s.tally.closed = false → ∀ {k : Nat} {process : Process σ} {t : Transcript},
    s.processes[k]? = some process → ts[k]? = some t → process.Owes limit t (reportsOf k ms)

variable {σ : Type} {limit wanted : Option Nat} {a a' : Activity σ} {s t : Solver σ}
  {sent rs : List Report} {fault : Option Fault} {found : List (List Int)} {k : Nat}
  {ts : List Transcript} {ms : List Message} {tally : Tally}

/-! ### One worker -/

namespace Activity.Sends

theorem of_move (h : a.Sends limit rs fault) (hmove : a.move limit true = some (a', sent)) :
    ∃ rest, rs = sent ++ rest ∧ a'.Sends limit rest fault := by
  cases h with
  | ended => cases hmove
  | stopped => cases hmove
  | move hmove' hrest =>
    obtain ⟨rfl, rfl⟩ := Prod.mk.inj (Option.some.inj (hmove'.symm.trans hmove))
    exact ⟨_, rfl, hrest⟩

theorem of_done (h : a.Sends limit rs fault) (hdone : a.Done) : rs = [] ∧ a.fault? = fault := by
  cases h with
  | ended => exact ⟨rfl, rfl⟩
  | stopped => exact ⟨rfl, rfl⟩
  | move hmove =>
    cases a with
    | searching => cases hdone
    | sending => cases hdone
    | leaving => cases hdone
    | ended => cases hmove
    | stopped => cases hmove

theorem silent (hmove : a.move limit true = some (a', [])) (h : a'.Sends limit rs fault) :
    a.Sends limit rs fault :=
  .move hmove h

theorem telling {r : Report} (hmove : a.move limit true = some (a', [r]))
    (h : a'.Sends limit rs fault) : a.Sends limit (r :: rs) fault :=
  .move hmove h

theorem leaving (r : Report) : (Activity.leaving r : Activity σ).Sends limit [r] none :=
  .telling rfl .ended

/-- A worker that has sent enough has its statistics left to send. -/
theorem sending_last {values : List Int} (h : Tally.reached limit k = true) :
    (Activity.sending values s k).Sends limit
      [.solution values, .finished s.state.statistics] none := by
  refine .telling ?_ (leaving _)
  simp only [Activity.move, h, if_true]

theorem sending_on {values : List Int} (h : Tally.reached limit k = false)
    (hrest : (Activity.searching s k).Sends limit rs fault) :
    (Activity.sending values s k).Sends limit (.solution values :: rs) fault := by
  refine .telling ?_ hrest
  simp only [Activity.move, h, if_true, Bool.false_eq_true, if_false]

/-- The moves up to an answer send nothing. -/
theorem searching {answer : Answer} (h : s.solveOne = .ok (answer, t))
    (hrest : (answered t k answer).Sends limit rs fault) :
    (Activity.searching s k).Sends limit rs fault := by
  fun_induction Solver.solveOne s with
  | case1 => cases h
  | case2 s u answer' hstep =>
    obtain ⟨rfl, rfl⟩ := Prod.mk.inj (Except.ok.inj h)
    refine .silent ?_ hrest
    simp only [Activity.move, hstep]
  | case3 s u hstep ih =>
    refine .silent ?_ (ih h)
    simp only [Activity.move, hstep]

theorem searching_stopped {f : Fault} (h : s.solveOne = .error f) :
    (Activity.searching s k).Sends limit [] (some f) := by
  fun_induction Solver.solveOne s with
  | case1 s f' hstep =>
    obtain rfl := Except.error.inj h
    refine .silent ?_ .stopped
    simp only [Activity.move, hstep]
  | case2 => cases h
  | case3 s u hstep ih =>
    refine .silent ?_ (ih h)
    simp only [Activity.move, hstep]

end Activity.Sends

/-- A worker has sent enough when it wants no further solution. -/
theorem reached_iff : Tally.reached limit (k + 1) = true ↔
    limit.map (max · 1 - (k + 1)) = some 0 := by
  cases limit with
  | none => exact ⟨nofun, nofun⟩
  | some limit =>
    simp only [Tally.reached, decide_eq_true_eq, Option.map_some, Option.some.injEq]
    omega

/-- The reports on collected solutions are sent one by one. -/
theorem Solver.collectOnto_sends (hwanted : wanted = limit.map (max · 1 - k))
    (hmore : wanted ≠ some 0) :
    ∃ rest, (s.collectOnto found wanted).transcript.reports =
        found.reverse.map Report.solution ++ rest ∧
      (Activity.searching s k).Sends limit rest (s.collectOnto found wanted).transcript.fault := by
  fun_induction collectOnto found wanted s generalizing k with
  | case1 => exact absurd rfl hmore
  | case2 found wanted s _ f hs => exact ⟨[], rfl, .searching_stopped hs⟩
  | case3 found wanted s _ t ht => exact ⟨_, rfl, .searching ht (.leaving _)⟩
  | case4 found wanted s _ capacity t ht => exact ⟨_, rfl, .searching ht (.leaving _)⟩
  | case5 found wanted s _ values t ht ih =>
    have hrest : wanted.map (· - 1) = limit.map (max · 1 - (k + 1)) := by
      rw [hwanted, Option.map_map]
      rfl
    by_cases hlast : wanted.map (· - 1) = some 0
    · refine ⟨[.solution values, .finished t.state.statistics], ?_,
        .searching ht (?_ : Activity.Sends limit (.sending values t (k + 1)) _ _)⟩
      · rw [collectOnto, if_pos hlast]
        simp [Collected.transcript, Ending.report]
      · rw [collectOnto, if_pos hlast]
        exact .sending_last (reached_iff.2 (hrest ▸ hlast))
    · obtain ⟨rest, hreports, hsends⟩ := ih hrest hlast
      refine ⟨.solution values :: rest, ?_,
        .searching ht (?_ : Activity.Sends limit (.sending values t (k + 1)) _ _)⟩
      · rw [hreports]
        simp
      · refine .sending_on ?_ hsends
        rw [← Bool.not_eq_true, reached_iff, ← hrest]
        exact hlast

/-- **A worker sends what its work says.** -/
theorem Solver.work_sends (s : Solver σ) :
    (Activity.searching s 0).Sends limit (s.work limit).reports (s.work limit).fault := by
  have hmore : limit.map (max · 1) ≠ some 0 := by
    cases limit <;> simp
  obtain ⟨rest, hreports, hsends⟩ :
      ∃ rest, (s.work limit).reports = rest ∧
        (Activity.searching s 0).Sends limit rest (s.work limit).fault :=
    s.collectOnto_sends rfl hmore
  exact hreports ▸ hsends

/-! ### All workers -/

theorem reportsOf_append (k : Nat) (ms ms' : List Message) :
    reportsOf k (ms ++ ms') = reportsOf k ms ++ reportsOf k ms' := by
  rw [reportsOf, List.filter_append, List.map_append]
  rfl

theorem reportsOf_map_mk (k j : Nat) (rs : List Report) :
    reportsOf k (rs.map (Message.mk j)) = if j = k then rs else [] := by
  rw [reportsOf, List.filter_map, List.map_map]
  split
  · rename_i h
    simp [Function.comp_def, h]
  · rename_i h
    simp [Function.comp_def, h]

theorem reportsOf_concat (j k : Nat) (ms : List Message) (r : Report) :
    reportsOf j (ms ++ [⟨k, r⟩]) = reportsOf j ms ++ if k = j then [r] else [] := by
  rw [reportsOf_append]
  exact congrArg _ (reportsOf_map_mk j k [r])

theorem reportsOf_eq_nil (h : ∀ m ∈ ms, m.worker ≠ k) : reportsOf k ms = [] := by
  rw [reportsOf, List.filter_eq_nil_iff.2 fun m hm => by simpa using h m hm]
  rfl

theorem Tally.receiveAll_concat (limit : Option Nat) (t : Tally) (ms : List Message) (m : Message) :
    t.receiveAll limit (ms ++ [m]) = (t.receiveAll limit ms).receive limit m := by
  rw [receiveAll, List.foldl_append]
  rfl

namespace Process.Owes

variable {process : Process σ} {t : Transcript} {received : List Report}

/-- A move takes nothing away from what is owed. -/
theorem work (h : process.Owes limit t received)
    (hmove : process.activity.move limit true = some (a', sent)) :
    (⟨a', process.inFlight ++ sent⟩ : Process σ).Owes limit t received := by
  obtain ⟨rest, hsends, hreports⟩ := h
  obtain ⟨rest', rfl, hsends'⟩ := hsends.of_move hmove
  exact ⟨rest', hsends', by rw [hreports, List.append_assoc]⟩

/-- What arrives was owed first. -/
theorem deliver {r : Report} {rest : List Report}
    (h : (⟨a, r :: rest⟩ : Process σ).Owes limit t received) :
    (⟨a, rest⟩ : Process σ).Owes limit t (received ++ [r]) := by
  obtain ⟨rest', hsends, hreports⟩ := h
  refine ⟨rest', hsends, ?_⟩
  rw [hreports, List.append_assoc]
  rfl

theorem begun (h : process.Owes limit t received) : received <+: t.reports := by
  obtain ⟨rest, -, hreports⟩ := h
  exact ⟨_, hreports.symm⟩

theorem settled (h : process.Owes limit t received) (hdone : process.activity.Done)
    (hnone : process.inFlight = []) :
    received = t.reports ∧ process.activity.fault? = t.fault := by
  obtain ⟨rest, hsends, hreports⟩ := h
  obtain ⟨rfl, hfault⟩ := hsends.of_done hdone
  rw [hnone, List.append_nil, List.append_nil] at hreports
  exact ⟨hreports.symm, hfault⟩

end Process.Owes

namespace System

variable {u v : System σ}

/-- A worker that does something still owes the rest. -/
theorem Arriving.work (hu : u.Arriving limit ts tally ms) {process : Process σ}
    (hk : u.processes[k]? = some process)
    (hmove : process.activity.move limit (!u.tally.closed) = some (a', sent)) :
    ({ u with processes := u.processes.set k ⟨a', process.inFlight ++ sent⟩ } : System σ).Arriving
      limit ts tally ms := by
  refine ⟨hu.taken, hu.known, (List.length_set ..).trans hu.size, hu.begun, ?_⟩
  intro hopen j process' t hj ht
  rw [List.getElem?_set] at hj
  split at hj
  · rename_i hjk
    subst hjk
    rw [if_pos (List.getElem?_eq_some_iff.1 hk).1] at hj
    obtain rfl := Option.some.inj hj
    rw [show (!u.tally.closed) = true by rw [hopen]; rfl] at hmove
    exact (hu.owed hopen hk ht).work hmove
  · exact hu.owed hopen hj ht

/-- A message that arrives was the next to arrive from its worker. -/
theorem Arriving.deliver (hu : u.Arriving limit ts tally ms) {r : Report} {rest : List Report}
    (hopen : u.tally.closed = false) (hk : u.processes[k]? = some ⟨a, r :: rest⟩) :
    (⟨u.processes.set k ⟨a, rest⟩, u.tally.receive limit ⟨k, r⟩⟩ : System σ).Arriving
      limit ts tally (ms ++ [⟨k, r⟩]) := by
  have hlt := (List.getElem?_eq_some_iff.1 hk).1
  have howed {t : Transcript} (ht : ts[k]? = some t) :
      (⟨a, rest⟩ : Process σ).Owes limit t (reportsOf k ms ++ [r]) :=
    (hu.owed hopen hk ht).deliver
  refine ⟨?_, ?_, (List.length_set ..).trans hu.size, ?_, ?_⟩
  · rw [Tally.receiveAll_concat, ← hu.taken]
  · intro m hm
    rcases List.mem_append.1 hm with hm | hm
    · exact hu.known m hm
    · rw [List.mem_singleton.1 hm, ← hu.size]
      exact hlt
  · intro j t ht
    rw [reportsOf_concat]
    split
    · rename_i hjk
      subst hjk
      exact (howed ht).begun
    · rw [List.append_nil]
      exact hu.begun ht
  · intro _ j process' t hj ht
    rw [List.getElem?_set] at hj
    rw [reportsOf_concat]
    split at hj
    · rename_i hjk
      subst hjk
      obtain rfl := Option.some.inj hj
      rw [if_pos rfl]
      exact howed ht
    · rename_i hjk
      rw [if_neg hjk, List.append_nil]
      exact hu.owed hopen hj ht

/-- **Whichever step is taken, every worker still owes the rest of its transcript.** -/
theorem step_arriving (h : u.Step limit v) (hu : u.Arriving limit ts tally ms) :
    ∃ ms', v.Arriving limit ts tally ms' := by
  cases h with
  | work hk hmove => exact ⟨ms, hu.work hk hmove⟩
  | deliver hopen hk => exact ⟨_, hu.deliver hopen hk⟩

/-- **In whatever order the steps are taken.** -/
theorem Reaches.arriving (h : u.Reaches limit v) (hu : u.Arriving limit ts tally ms) :
    ∃ ms', v.Arriving limit ts tally ms' := by
  induction h with
  | refl => exact ⟨ms, hu⟩
  | tail _ hstep ih =>
    obtain ⟨ms', hms'⟩ := ih
    exact step_arriving hstep hms'

/-- The workers of these solvers before their first move. -/
def start (ss : List (Solver σ)) (tally : Tally) : System σ :=
  ⟨ss.map fun s => ⟨.searching s 0, []⟩, tally⟩

theorem start_arriving (limit : Option Nat) (ss : List (Solver σ)) (tally : Tally) :
    (start ss tally).Arriving limit (ss.map (·.work limit)) tally [] where
  taken := rfl
  known := List.forall_mem_nil _
  size := by rw [start, List.length_map, List.length_map]
  begun _ := List.nil_prefix
  owed := by
    intro _ k process t hprocess ht
    rw [List.getElem?_map] at ht
    simp only [start, List.getElem?_map] at hprocess
    cases hs : ss[k]? with
    | none => rw [hs] at ht; cases ht
    | some s =>
      rw [hs] at ht hprocess
      obtain rfl := Option.some.inj ht
      obtain rfl := Option.some.inj hprocess
      exact ⟨_, s.work_sends, rfl⟩

/-- At the end of a worker that is listened to, its transcript has arrived. -/
theorem Final.whole {process : Process σ} {t : Transcript} (hf : v.Final)
    (hv : v.Arriving limit ts tally ms) (hopen : v.tally.closed = false)
    (hprocess : v.processes[k]? = some process) (ht : ts[k]? = some t) :
    reportsOf k ms = t.reports ∧ process.activity.fault? = t.fault :=
  have hmem := List.mem_of_getElem? hprocess
  (hv.owed hopen hprocess ht).settled (hf.done process hmem) (hf.delivered hopen process hmem)

/-- **In the end everything has arrived**, and a worker that stopped with a fault stops
everything. -/
theorem Final.arrives (hf : v.Final) (hv : v.Arriving limit ts tally ms)
    (hopen : v.tally.closed = false) :
    Arrives ts ms ∧ v.outcome =
      if ts.all fun t => t.fault.isNone then .ok v.tally.outcome else .error .workerStopped := by
  constructor
  · refine ⟨hv.known, ?_⟩
    intro k t ht
    have hlt : k < v.processes.length := hv.size ▸ (List.getElem?_eq_some_iff.1 ht).1
    exact (hf.whole hv hopen (List.getElem?_eq_getElem hlt) ht).1
  · have hfaults : v.processes.map (·.activity.fault?) = ts.map (·.fault) := by
      refine List.ext_getElem ?_ ?_
      · rw [List.length_map, List.length_map, hv.size]
      · intro k hk hk'
        rw [List.length_map] at hk hk'
        rw [List.getElem_map, List.getElem_map]
        exact (hf.whole hv hopen (List.getElem?_eq_getElem hk) (List.getElem?_eq_getElem hk')).2
    have hall := congrArg (List.all · Option.isNone) hfaults
    simp only [List.all_map] at hall
    unfold outcome
    rw [show (v.processes.all fun process => process.activity.fault?.isNone) =
      ts.all fun t => t.fault.isNone from hall]

end System

/-! ### One worker after the other -/

theorem Division.messages_known {j : Nat} {m : Message} (hm : m ∈ (messages j ts).1) :
    j ≤ m.worker ∧ m.worker < j + ts.length := by
  induction ts generalizing j with
  | nil => cases hm
  | cons t ts ih =>
    rcases List.mem_append.1 hm with hm | hm
    · obtain ⟨r, -, rfl⟩ := List.mem_map.1 hm
      simp
    · have := ih hm
      rw [List.length_cons]
      omega

theorem Division.reportsOf_messages {j : Nat} {t : Transcript} (ht : ts[k]? = some t) :
    reportsOf (j + k) (messages j ts).1 = t.reports := by
  induction ts generalizing j k with
  | nil => cases ht
  | cons t' ts ih =>
    show reportsOf (j + k) (t'.reports.map (Message.mk j) ++ (messages (j + 1) ts).1) = _
    rw [reportsOf_append, reportsOf_map_mk]
    cases k with
    | zero =>
      obtain rfl := Option.some.inj ht
      rw [if_pos (Nat.add_zero j).symm, reportsOf_eq_nil, List.append_nil]
      intro m hm
      have := (messages_known hm).1
      omega
    | succ k =>
      rw [if_neg (by omega), List.nil_append, show j + (k + 1) = j + 1 + k by omega]
      exact ih ht

/-- **What arrives when the workers take turns** is one of the orders. -/
theorem Division.messages_arrive (ts : List Transcript) : Arrives ts (messages 0 ts).1 where
  known m hm := by
    have := (messages_known hm).2
    omega
  whole ht := by
    have := reportsOf_messages (j := 0) ht
    rwa [Nat.zero_add] at this

end BoundsSolver
