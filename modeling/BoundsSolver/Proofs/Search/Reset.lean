/-
# What a reset forgets

A reset clears the set of triggered propagators, the flags, the stack and the objective, and
gives the shared domains their initial intervals back.  The slots of the stack and the room
for marks stay, and so do the counters and the log.  None of this is visible to the search:
after a reset a solver agrees with a fresh one, whatever was called on it before
(`Solver.reset_agrees_fresh`), and calls in any order keep solvers in agreement
(`Call.runAll_agrees`).

`reset_forgets` spells out what agreement means for a caller.
-/

import BoundsSolver.Proofs.Search.Agreement
import BoundsSolver.Proofs.Search.Calls

namespace BoundsSolver

/-- The event without the number of a solution. -/
def Event.unnumbered : Event → Event
  | .solution _ depth => .solution 0 depth
  | e => e

/-- The books of a search that began with some entries: it has counted `c` and told `old`
before, another one has told `old'`, and the same entries were made on both sides since. -/
structure Since (c : Statistics) (threshold : Option Level) (old old' : List Event)
    (x y : Books) : Prop where
  counted : x.1 = c.merge y.1
  left : x.2.threshold = threshold
  right : y.2.threshold = threshold
  told : ∃ news news' : List Event, x.2.latest = news ++ old ∧ y.2.latest = news' ++ old' ∧
    news.map Event.unnumbered = news'.map Event.unnumbered

/-- The depths that so many moves lead to. -/
def Solver.visits {σ : Type} : Nat → Solver σ → Checked (List Nat)
  | 0, _ => .ok []
  | k + 1, s => do
    let (t, _) ← s.step
    let depths ← t.visits k
    return t.depth :: depths

variable {σ : Type} {p : Problem} {n : Network} {B : Books → Books → Prop} {z s t u : Solver σ}
  {cs : List Call} {es : List (Call × Reply)} {o : Options} {log log' : Log} {e e' : Event}
  {x y : Books} {c : Statistics} {threshold : Option Level} {old old' : List Event}

/-! ### Books -/

theorem Log.threshold_add (l : Log) (e : Event) : (l.add e).threshold = l.threshold := by
  unfold Log.add
  split <;> rfl

theorem Log.threshold_addAll (l : Log) (es : List Event) :
    (l.addAll es).threshold = l.threshold := by
  induction es generalizing l with
  | nil => rfl
  | cons e es ih => exact (ih (l.add e)).trans (l.threshold_add e)

/-- A log keeps events that differ in the number of a solution alike. -/
theorem Since.add (h : Since c threshold old old' x y) (he : e.unnumbered = e'.unnumbered)
    (hlevel : e.level = e'.level) :
    Since c threshold old old' (x.1, x.2.add e) (y.1, y.2.add e') := by
  obtain ⟨news, news', hx, hy, hnews⟩ := h.told
  have hkeeps : x.2.keeps e.level = y.2.keeps e'.level := by
    rw [Log.keeps, Log.keeps, h.left, h.right, hlevel]
  refine ⟨h.counted, (Log.threshold_add _ e).trans h.left,
    (Log.threshold_add _ e').trans h.right, ?_⟩
  unfold Log.add
  rw [hkeeps]
  split
  · refine ⟨e :: news, e' :: news', ?_, ?_, ?_⟩
    · exact congrArg (e :: ·) hx
    · exact congrArg (e' :: ·) hy
    · rw [List.map_cons, List.map_cons, he, hnews]
  · exact ⟨news, news', hx, hy, hnews⟩

theorem balanced_since (c : Statistics) (threshold : Option Level) (old old' : List Event) :
    Balanced (Since c threshold old old') where
  count hf h := ⟨(congrArg _ h.counted).trans (hf c _), h.left, h.right, h.told⟩
  tell _ h := h.add rfl rfl
  solved _ h := h.add rfl rfl

/-- What has been told keeps its level of detail. -/
theorem balanced_threshold (threshold : Option Level) :
    Balanced fun x _ => x.2.threshold = threshold where
  count _ h := h
  tell e h := (Log.threshold_add _ e).trans h
  solved _ h := (Log.threshold_add _ _).trans h

/-! ### Calls -/

variable (hB : Balanced B) (hq : z.brancher.Quiet)
include hB hq

theorem Solver.visits_agrees (h : z.Agrees B s u) (k : Nat) : s.visits k = u.visits k := by
  induction k generalizing s u with
  | zero => rfl
  | succ k ih =>
    have hstep := step_agrees hB hq h
    unfold visits
    cases hs : s.step with
    | error f => rw [hstep.of_error hs]
    | ok o =>
      obtain ⟨t, a⟩ := o
      obtain ⟨⟨v, _⟩, hu, htv, rfl⟩ := hstep.of_ok hs
      rw [hu]
      show (t.visits k >>= fun depths => Except.ok (t.depth :: depths)) = _
      rw [ih htv, htv.depth]
      rfl

namespace Call

theorem take_agrees {i j : Solutions σ} (k : Nat) (h : z.Agrees B i.solver j.solver)
    (hf : i.finished = j.finished) :
    Matches (fun x y => x.1 = y.1 ∧ z.Agrees B x.2.solver y.2.solver) (i.take k) (j.take k) := by
  induction k generalizing i j with
  | zero => exact .answer ⟨rfl, h⟩
  | succ k ih =>
    have hnext : Matches (fun x y => x.1 = y.1 ∧ z.Agrees B x.2.solver y.2.solver ∧
        x.2.finished = y.2.finished) i.next j.next := by
      unfold Solutions.next
      rw [hf]
      split
      · exact .answer ⟨rfl, h, hf⟩
      · refine (Solver.solveOne_agrees hB hq h).bind fun {a b} hab => ?_
        obtain ⟨a, v⟩ := a
        obtain ⟨b, w⟩ := b
        obtain ⟨rfl, hvw⟩ : a = b ∧ z.Agrees B v w := hab
        cases a <;> exact .answer ⟨rfl, hvw, rfl⟩
    refine hnext.bind fun {a b} hab => ?_
    refine (ih hab.2.1 hab.2.2).bind fun {a' b'} hab' => ?_
    exact .answer ⟨by rw [hab.1, hab'.1], hab'.2⟩

/-- **Every call returns the same on solvers that agree**, and they agree again. -/
theorem run_agrees (h : z.Agrees B s u) (c : Call) :
    Matches (Solver.Came z B) (c.run s) (c.run u) := by
  cases c with
  | solveOne =>
    refine (Solver.solveOne_agrees hB hq h).bind fun {a b} hab => ?_
    exact .answer ⟨by rw [hab.1], hab.2⟩
  | iterate count =>
    refine (take_agrees hB hq count (i := .of s) (j := .of u) h rfl).bind fun {a b} hab => ?_
    exact .answer ⟨by rw [hab.1], hab.2⟩
  | solveAllWith =>
    refine (Solver.countFrom_agrees hB hq h).bind fun {a b} hab => ?_
    exact .answer ⟨by rw [hab.1, hab.2.1], hab.2.2⟩
  | findOne =>
    refine (Solver.findOne_agrees hB hq h).bind fun {a b} hab => ?_
    exact .answer ⟨by rw [hab.1], hab.2⟩
  | findAll =>
    refine (Solver.findAll_agrees hB hq h).bind fun {a b} hab => ?_
    exact .answer ⟨by rw [hab.1], hab.2⟩
  | minimize x mode =>
    refine (Solver.optimise_agrees hB hq h x mode .minimise).bind fun {a b} hab => ?_
    exact .answer ⟨by rw [hab.1], hab.2⟩
  | maximize x mode =>
    refine (Solver.optimise_agrees hB hq h x mode .maximise).bind fun {a b} hab => ?_
    exact .answer ⟨by rw [hab.1], hab.2⟩
  | backtrack =>
    obtain ⟨hfound, hsolver⟩ := Solver.backtrack_agrees hB h
    exact .answer ⟨congrArg Reply.moved hfound, hsolver⟩
  | reset => exact .answer ⟨rfl, Solver.reset_agrees h⟩

theorem runAll_agrees (h : z.Agrees B s u) (cs : List Call) :
    Matches (Solver.Came z B) (runAll s cs) (runAll u cs) := by
  induction cs generalizing s u with
  | nil => exact .answer ⟨rfl, h⟩
  | cons c cs ih =>
    refine (run_agrees hB hq h c).bind fun {a b} hab => ?_
    refine (ih hab.2).bind fun {a' b'} hab' => ?_
    exact .answer ⟨by rw [hab.1, hab'.1], hab'.2⟩

end Call

omit hB hq

/-! ### A reset -/

theorem default_quiet (b : Box) : (Strategy.default b).brancher.Quiet := by
  intro m m' c g g' d h
  obtain ⟨⟨own, g''⟩, hchoose, h⟩ := bind_eq_ok.1 h
  obtain ⟨rfl, hrest⟩ := Prod.mk.inj (Except.ok.inj h)
  obtain ⟨-, rfl⟩ := Prod.mk.inj hrest
  obtain ⟨first, -, hchoose⟩ := bind_eq_ok.1 hchoose
  cases first with
  | none =>
    obtain ⟨-, rfl⟩ := Prod.mk.inj (Except.ok.inj hchoose)
    rfl
  | some x =>
    obtain ⟨⟨d', g''⟩, hvalue, hchoose⟩ := bind_eq_ok.1 hchoose
    obtain ⟨j, -, hvalue⟩ := bind_eq_ok.1 hvalue
    obtain ⟨-, rfl⟩ := Prod.mk.inj (Except.ok.inj hvalue)
    obtain ⟨-, rfl⟩ := Prod.mk.inj (Except.ok.inj hchoose)
    rfl

theorem Statistics.merge_zero (c : Statistics) : c.merge zero = c := by
  simp only [merge, zero, Nat.add_zero, Nat.max_zero]

/-- A row of calls keeps a solver in agreement with itself, and so set up as it was. -/
theorem History.agrees (h : History s es t) (hB : Balanced B) (hq : z.brancher.Quiet)
    (hs : z.Agrees B s s) : z.Agrees B t t := by
  induction h with
  | nil => exact hs
  | @cons s t u c r es hrun _ ih =>
    obtain ⟨y, hy, hagree⟩ := (Call.run_agrees hB hq hs c).of_ok hrun
    obtain rfl : (r, t) = y := Except.ok.inj (hrun.symm.trans hy)
    exact ih hagree.2

theorem Keyed.map_false_eq {flags : Keyed PropagatorId Bool} {k : Nat} (h : flags.size = k) :
    (flags.map fun _ => false) = .ofList (List.replicate k false) := by
  subst h
  refine congrArg Keyed.mk (Array.ext ?_ ?_)
  · simp [size]
  · intro i hi hi'
    simp

/-- **A solver that is reset agrees with a fresh one.** -/
theorem Solver.reset_agrees_fresh {s : Solver Unit} (hp : Built p)
    (h : History (.ofProblem p o log) es s) (hlog : log'.threshold = log.threshold) :
    (ofProblem p o log).Agrees (Since s.state.statistics log.threshold s.state.log.latest
      (ofProblem p.reset o log').state.log.latest) s.reset (ofProblem p.reset o log') := by
  let z := ofProblem p o log
  have hidle : s.Idle p.network :=
    h.idle hp.sound.network (Solver.start_idle hp o log z.brancher z.memory)
  have hsame : z.Agrees (fun x _ => x.2.threshold = log.threshold) s s := by
    refine h.agrees (balanced_threshold _) (default_quiet p.current) ?_
    exact .intro ⟨.refl _, Log.threshold_addAll _ _⟩ ⟨rfl, rfl⟩ rfl
  obtain ⟨hnetwork, hoptions, hbrancher, hgenerator, hcapacity⟩ := hsame.setting
  have hreset : s.reset = { z with
      memory := ()
      phase := .ready
      state := s.reset.state
      choicePoints := s.choicePoints.clear
      objective := none } := by
    rw [← hnetwork, ← hoptions, ← hbrancher, ← hgenerator]
    rfl
  have hfresh : ofProblem p.reset o log' = { z with
      memory := ()
      phase := .ready
      state := (ofProblem p.reset o log').state
      choicePoints := .ofCapacity o.capacity
      objective := none } := by
    have hsize : p.current.size = p.network.initial.size := hp.sound.inside.size_eq
    have hkeys : p.current.keys = p.network.initial.keys := by rw [Keyed.keys, Keyed.keys, hsize]
    have hsame : z.brancher = (ofProblem p.reset o log').brancher := by
      show (Strategy.default p.current).brancher = (Strategy.default p.network.initial).brancher
      rw [Strategy.default, Strategy.default, hkeys]
    rw [hsame]
    rfl
  have hcoherent := hidle.sound.coherent
  have htwins : s.reset.state.Twins (ofProblem p.reset o log').state := by
    refine ⟨?_, Keyed.map_false_eq hcoherent.flags, ?_⟩
    · show s.network.initial = p.network.initial
      rw [hnetwork]
      rfl
    · exact hcoherent.faithful.clear.twins_of_empty (Triggered.faithful_ofSize _) rfl rfl
  rw [hreset, hfresh]
  refine .intro ⟨htwins, ?_⟩ ⟨ChoicePoints.live_clear _, hcapacity⟩ hcapacity
  refine ⟨(Statistics.merge_zero _).symm, hsame.books, ?_, [], [], rfl, rfl, rfl⟩
  exact (Log.threshold_addAll _ _).trans hlog

/-! ### The result -/

/-- **A reset forgets all but what has been counted and told.**  Take a solver that follows the
default strategy, after any calls that came to no fault, and reset it.  Take a fresh solver for
the problem with its initial intervals, and whatever calls you like.  Either both come to the
same fault, or every call returns the same on both.  Then both end at the same depth and with
the same intervals, and the moves from there visit the same depths.  The one has counted what it
had before and what the other has now, and both have told the same events since, decisions,
backtracks and solutions with their depths, apart from the numbers of the solutions. -/
theorem reset_forgets {s : Solver Unit} (hp : Built p)
    (h : History (.ofProblem p o log) es s) (hlog : log'.threshold = log.threshold)
    (cs : List Call) :
    Matches (fun x y => x.1 = y.1 ∧ x.2.depth = y.2.depth ∧ x.2.problem = y.2.problem ∧
        (∀ k, x.2.visits k = y.2.visits k) ∧
        x.2.state.statistics = s.state.statistics.merge y.2.state.statistics ∧
        ∃ news news', x.2.state.log.latest = news ++ s.state.log.latest ∧
          y.2.state.log.latest = news' ++ (Solver.ofProblem p.reset o log').state.log.latest ∧
          news.map Event.unnumbered = news'.map Event.unnumbered)
      (Call.runAll s.reset cs) (Call.runAll (.ofProblem p.reset o log') cs) := by
  have hfresh := Solver.reset_agrees_fresh hp h hlog
  have hB := balanced_since s.state.statistics log.threshold s.state.log.latest
    (Solver.ofProblem p.reset o log').state.log.latest
  have hq : (Strategy.default p.current).brancher.Quiet := default_quiet p.current
  have hall := Call.runAll_agrees hB hq hfresh cs
  refine hall.mono fun {x y} hxy => ?_
  obtain ⟨hreplies, hagree⟩ := hxy
  have hproblem : x.2.problem = y.2.problem := by
    rw [Solver.problem, Solver.problem, hagree.network, hagree.box]
  exact ⟨hreplies, hagree.depth, hproblem, Solver.visits_agrees hB hq hagree,
    hagree.books.counted, hagree.books.told⟩

/-- In `Problem.either`, in the middle of an enumeration and with a choice point on the stack, a
reset solver hands out both solutions, as a fresh one does, and has then counted three. -/
theorem reset_forgets_either :
    let z := Solver.ofProblem .either .default .off
    ∃ s u, History z [(.solveOne, .answer (.ok (some [2, 0, 1])))] s ∧ 0 < s.depth ∧
      Call.runAll s.reset [.solveAllWith] = .ok ([.count (.ok 2) [[2, 0, 1], [2, 1, 0]]], u) ∧
      u.depth = 0 ∧ u.state.statistics.solutions = 3 := by
  intro z
  have hone : ∃ s, Call.solveOne.run z = .ok (.answer (.ok (some [2, 0, 1])), s) ∧
      (0 < s.depth ∧ s.state.statistics.solutions = 1) := by
    decide +kernel
  have hfresh : ∃ t, Call.runAll z [.solveAllWith] =
      .ok ([.count (.ok 2) [[2, 0, 1], [2, 1, 0]]], t) ∧
      (t.depth = 0 ∧ t.state.statistics.solutions = 2) := by
    decide +kernel
  obtain ⟨s, hs, hdeep, hcount⟩ := hone
  obtain ⟨t, ht, hdepth, hcount'⟩ := hfresh
  have hhistory : History z [(.solveOne, .answer (.ok (some [2, 0, 1])))] s := .cons hs .nil
  have hmatches := reset_forgets .either hhistory rfl [.solveAllWith]
  obtain ⟨⟨replies, u⟩, hu, hreplies, hdepths, -, -, hcounted, -⟩ := hmatches.of_ok_right ht
  obtain rfl : replies = [.count (.ok 2) [[2, 0, 1], [2, 1, 0]]] := hreplies
  refine ⟨s, u, hhistory, hdeep, hu, hdepths.trans hdepth, ?_⟩
  rw [hcounted, Statistics.merge, hcount, hcount']

end BoundsSolver
