/-
# Enumeration is exact

Each solution that the search hands out was pending and is not any more, and in the end
none is pending.  So the solutions handed out are those that were pending at first, each
of them once (`Solver.Lists`), and at the root of the search these are all solutions of
the problem.  Nothing in this depends on the decisions: they only settle the order.

Counting the solutions is the same search as listing them, which `countFrom_of_collectOnto`
shows of the two loops.
-/

import Mathlib.Data.List.Nodup
import BoundsSolver.Proofs.Search.Accounts
import BoundsSolver.Proofs.Search.Reached

namespace BoundsSolver

variable {σ τ : Type} {p : Problem} {n : Network} {s t : Solver σ} {f : τ → List Int → τ}
  {seen seen' : τ} {found solutions ass bss : List (List Int)} {values as bs : List Int}
  {count k : Nat}

/-- **The values of all variables tell assignments apart**, since every shared domain is
one of them. -/
theorem Network.WellFormed.eq_of_valuesOf (hn : n.WellFormed) (ha : Mem as n.initial.toList)
    (hb : Mem bs n.initial.toList) (h : n.valuesOf as = n.valuesOf bs) : as = bs := by
  have hlen : as.length = n.initial.size := (Box.mem_iff.1 ha).1
  have hlen' : bs.length = n.initial.size := (Box.mem_iff.1 hb).1
  refine Box.eq_of_valueIn (hlen.trans hlen'.symm) ?_
  intro d hd
  have hown : (⟨d, 0⟩ : View) ∈ n.views.toList := hn.own d (hlen ▸ hd)
  have hvalue := List.map_inj_left.1 h ⟨d, 0⟩ hown
  simpa only [View.value, Int.add_zero] using hvalue

theorem Network.WellFormed.nodup_valuesOf (hn : n.WellFormed)
    (hwithin : ∀ as ∈ ass, Mem as n.initial.toList) (h : ass.Nodup) :
    (ass.map n.valuesOf).Nodup := by
  refine List.Nodup.map_on ?_ h
  intro as has bs hbs heq
  exact hn.eq_of_valuesOf (hwithin as has) (hwithin bs hbs) heq

namespace Solver

/-- The pending solutions, each of them once. -/
structure Lists (n : Network) (s : Solver σ) (ass : List (List Int)) : Prop where
  nodup : ass.Nodup
  mem_iff : ∀ as, as ∈ ass ↔ s.Pending n as

theorem Lists.perm (h : s.Lists n ass) {r : Solver τ} (h' : r.Lists n bss)
    (hsame : ∀ as, s.Pending n as ↔ r.Pending n as) : ass.Perm bss := by
  refine (List.perm_ext_iff_of_nodup h.nodup h'.nodup).2 ?_
  intro as
  rw [h.mem_iff, h'.mem_iff, hsame]

theorem lists_nil (h : Accounts n s t (some .exhausted)) : s.Lists n [] where
  nodup := .nil
  mem_iff as := by
    constructor
    · intro hmem
      cases hmem
    · intro hp
      exact absurd hp (h as)

theorem lists_cons (h : Accounts n s t (some (.solution values))) (ht : t.Lists n ass) :
    ∃ as, values = n.valuesOf as ∧ s.Lists n (as :: ass) := by
  obtain ⟨as, hvalues, hgone, hiff⟩ := h
  refine ⟨as, hvalues, ?_, ?_⟩
  · rw [List.nodup_cons]
    refine ⟨?_, ht.nodup⟩
    intro hmem
    exact hgone ((ht.mem_iff as).1 hmem)
  · intro bs
    rw [List.mem_cons, ht.mem_iff, hiff]

/-! ### The loops -/

/-- A search for the next answer, taken after one move. -/
theorem solveOne_eq (s : Solver σ) : s.solveOne =
    match s.step with
    | .error e => .error e
    | .ok (t, some a) => .ok (a, t)
    | .ok (t, none) => t.solveOne := by
  rw [solveOne]
  split <;> rename_i hs <;> rw [hs]

/-- Collecting all solutions, taken after the first answer. -/
theorem collectOnto_eq_match (found : List (List Int)) (s : Solver σ) :
    s.collectOnto found none =
      match s.solveOne with
      | .error e => ⟨found.reverse, .stopped e, s⟩
      | .ok (.exhausted, t) => ⟨found.reverse, .complete, t⟩
      | .ok (.overflow capacity, t) => ⟨found.reverse, .failed (.choicePointOverflow capacity), t⟩
      | .ok (.solution values, t) => t.collectOnto (values :: found) none := by
  rw [collectOnto, if_neg (Option.some_ne_none 0).symm]
  split <;> rename_i hs <;> rw [hs]
  rfl

/-- Counting all solutions, taken after the first answer. -/
theorem countFrom_eq (f : τ → List Int → τ) (seen : τ) (k : Nat) (s : Solver σ) :
    s.countFrom f seen k =
      match s.solveOne with
      | .error e => .error e
      | .ok (.exhausted, t) => .ok (.ok k, seen, t)
      | .ok (.overflow capacity, t) => .ok (.error (.choicePointOverflow capacity), seen, t)
      | .ok (.solution values, t) => t.countFrom f (f seen values) (k + 1) := by
  rw [countFrom]
  split <;> rename_i hs <;> rw [hs]

/-- **Collecting lists the pending solutions.** -/
theorem collectOnto_lists (hn : n.WellFormed) (hs : s.Sound n) (ho : s.Orderly)
    (h : (s.collectOnto found none).outcome = .ok (.ok solutions)) :
    ∃ ass, s.Lists n ass ∧ solutions = found.reverse ++ ass.map n.valuesOf := by
  generalize hw : (none : Option Nat) = wanted at h
  fun_induction collectOnto found wanted s with
  | case1 => cases hw
  | case2 => cases h
  | case3 found wanted s _ t ht =>
    obtain ⟨-, -, hacc⟩ := solveOne_accounts hn hs ho ht
    obtain rfl := Except.ok.inj (Except.ok.inj h)
    exact ⟨[], lists_nil hacc, by simp⟩
  | case4 => cases h
  | case5 found wanted s _ values t ht ih =>
    obtain ⟨hs', ho', hacc⟩ := solveOne_accounts hn hs ho ht
    obtain ⟨ass, hass, hsolutions⟩ := ih hs' ho' (hw ▸ rfl) h
    obtain ⟨as, hvalues, hcons⟩ := lists_cons hacc hass
    refine ⟨as :: ass, hcons, ?_⟩
    rw [hsolutions, hvalues]
    simp

theorem collect_lists (hn : n.WellFormed) (hs : s.Sound n) (ho : s.Orderly)
    (h : (s.collect none).outcome = .ok (.ok solutions)) :
    ∃ ass, s.Lists n ass ∧ solutions = ass.map n.valuesOf := by
  obtain ⟨ass, hass, hsolutions⟩ := collectOnto_lists hn hs ho h
  rw [List.reverse_nil, List.nil_append] at hsolutions
  exact ⟨ass, hass, hsolutions⟩

/-- **Counting hands out the pending solutions.** -/
theorem countFrom_lists (hn : n.WellFormed) (hs : s.Sound n) (ho : s.Orderly)
    (h : s.countFrom f seen k = .ok (.ok count, seen', t)) :
    ∃ ass, s.Lists n ass ∧ count = k + ass.length ∧
      seen' = (ass.map n.valuesOf).foldl f seen := by
  fun_induction countFrom f seen k s with
  | case1 => cases h
  | case2 seen k s u hu =>
    obtain ⟨-, -, hacc⟩ := solveOne_accounts hn hs ho hu
    obtain ⟨rfl, rfl, rfl⟩ := by simpa using h
    exact ⟨[], lists_nil hacc, rfl, rfl⟩
  | case3 => cases h
  | case4 seen k s values u hu ih =>
    obtain ⟨hs', ho', hacc⟩ := solveOne_accounts hn hs ho hu
    obtain ⟨ass, hass, hcount, hseen⟩ := ih hs' ho' h
    obtain ⟨as, hvalues, hcons⟩ := lists_cons hacc hass
    refine ⟨as :: ass, hcons, ?_, ?_⟩
    · rw [hcount, List.length_cons]
      omega
    · rw [hseen, hvalues]
      rfl

theorem collectOnto_of_exhausted (h : s.solveOne = .ok (.exhausted, t)) :
    s.collectOnto found none = ⟨found.reverse, .complete, t⟩ := by
  rw [collectOnto_eq_match, h]

theorem collectOnto_of_solution (h : s.solveOne = .ok (.solution values, t)) :
    s.collectOnto found none = t.collectOnto (values :: found) none := by
  rw [collectOnto_eq_match, h]

theorem countFrom_of_exhausted (h : s.solveOne = .ok (.exhausted, t)) :
    s.countFrom f seen k = .ok (.ok k, seen, t) := by
  rw [countFrom_eq, h]

theorem countFrom_of_solution (h : s.solveOne = .ok (.solution values, t)) :
    s.countFrom f seen k = t.countFrom f (f seen values) (k + 1) := by
  rw [countFrom_eq, h]

theorem reset_frontier (s : Solver σ) : s.reset.frontier = [s.network.initial] := by
  show s.reset.choicePoints.live.map _ ++ _ = _
  rw [show s.reset.choicePoints.live = [] from ChoicePoints.live_clear _]
  rfl

theorem reset_orderly (s : Solver σ) : s.reset.Orderly where
  fresh _ := ChoicePoints.live_clear _
  apart := by
    rw [reset_frontier]
    exact List.pairwise_singleton _ _

/-- At the root of the search all solutions are pending. -/
theorem reset_pending_iff (hs : s.network = n) : s.reset.Pending n as ↔ n.Solves as := by
  subst hs
  show _ ∧ (∃ b ∈ s.reset.frontier, _) ↔ _
  rw [reset_frontier]
  constructor
  · rintro ⟨hsat, b, hb, hm⟩
    obtain rfl := List.mem_singleton.1 hb
    exact ⟨hm, hsat⟩
  · rintro ⟨hm, hsat⟩
    exact ⟨hsat, _, List.mem_singleton_self _, hm⟩

/-! ### A search on one branch -/

theorem solveOne_of_step (h : s.step = .ok (t, none)) : s.solveOne = t.solveOne := by
  rw [solveOne_eq, h]

theorem solveOne_of_answer {a : Answer} (h : s.step = .ok (t, some a)) :
    s.solveOne = .ok (a, t) := by
  rw [solveOne_eq, h]

theorem solveOne_of_fault {f : Fault} (h : s.step = .error f) : s.solveOne = .error f := by
  rw [solveOne_eq, h]

/-- A node that filtering leaves with one assignment is a solution. -/
theorem solveOne_of_leaf {u : State} (hph : s.phase = .filtering)
    (hu : filter s.network s.options.consistency s.state = .ok (true, u))
    (hfix : u.box.firstUnfixed? = none) (hv : s.network.lowest u.box = .ok values) :
    s.solveOne = .ok (.solution values, { s with state := u }.solve values) := by
  refine solveOne_of_answer ?_
  unfold step advance
  rw [hph]
  simp only [hu, hfix, hv]
  rfl

/-- A root that filtering leaves with one assignment is a solution. -/
theorem solveOne_of_root {u : State} (hph : s.phase = .ready) (hne : s.state.box.anyEmpty = false)
    (hu : filter s.network s.options.consistency
      (s.state.triggerAll s.network.propagators.keys) = .ok (true, u))
    (hfix : u.box.firstUnfixed? = none) (hv : s.network.lowest u.box = .ok values) :
    ∃ t, s.solveOne = .ok (.solution values, t) := by
  let node : Solver σ := { s with
    phase := .filtering
    state := s.state.triggerAll s.network.propagators.keys }
  have henter : s.step = .ok (node, none) := by
    simp only [step, hph, enter, hne]
    rfl
  exact ⟨_, (solveOne_of_step henter).trans (solveOne_of_leaf (s := node) rfl hu hfix hv)⟩

/-- Without constraints a root with one assignment is a solution. -/
theorem solveOne_of_fixed (hph : s.phase = .ready) (hne : s.state.box.anyEmpty = false)
    (hkeys : s.network.propagators.keys = []) (hidle : s.state.triggered.pop? = none)
    (hbounds : s.options.consistency = .bounds) (hfix : s.state.box.firstUnfixed? = none)
    (hv : s.network.lowest s.state.box = .ok values) :
    ∃ t, s.solveOne = .ok (.solution values, t) := by
  let u := s.state.count fun c => { c with filters := c.filters + 1 }
  have hu : propagate s.network s.state = .ok (true, u) := settle_of_idle hidle
  have hfilter : filter s.network s.options.consistency
      (s.state.triggerAll s.network.propagators.keys) = .ok (true, u) := by
    rw [hkeys, hbounds]
    show filter s.network .bounds s.state = _
    rw [filter, hu]
  exact solveOne_of_root hph hne hfilter hfix hv

end Solver

/-! ### The result -/

/-- The search in `Problem.either` takes three decisions and comes to two solutions. -/
theorem findAll_either : ∃ t, (Solver.ofProblem .either .default .off).findAll =
    .ok (.ok [[2, 0, 1], [2, 1, 0]], t) ∧ t.state.statistics.choices = 3 := by
  decide +kernel

end BoundsSolver
