/-
# Solutions come in ascending order

With the default brancher every decision tries the least value of the first shared domain
that is not fixed (`Decision.LeastFirst`), and so does the search on its own.  Hence what
is still to be searched comes in order: every assignment in the current box is before those
in the branches that were left, and a later branch is before an earlier one
(`Solver.Ascending`).  Propagation and shaving only shrink boxes, so that they cannot break
this, whatever they fix.

A list in strictly ascending order is determined by its members, so that enumeration comes
to the same list under both consistencies, with any capacity and seed, and for constraints
posted in any order (`findAll_ascending`).
-/

import Mathlib.Data.List.Sort
import BoundsSolver.Proofs.Network.Posting
import BoundsSolver.Proofs.Search.Enumeration

namespace BoundsSolver

variable {σ : Type} {p q : Problem} {n : Network} {s t v : Solver σ} {b c b' c' : Box}
  {as bs values : List Int} {found solutions : List (List Int)} {d : Decision} {i : Interval}
  {other : Branch} {ds : List DomainId} {x : DomainId} {a : Option Answer}

/-! ### Decisions -/

/-- Every assignment within the one box comes before every assignment within the other. -/
def Box.Before (b c : Box) : Prop :=
  ∀ as bs : List Int, Mem as b.toList → Mem bs c.toList → as < bs

theorem Box.Before.of_inside (h : b.Before c) (hb : b'.Inside b) (hc : c'.Inside c) :
    b'.Before c' := by
  intro as bs hm hm'
  exact h as bs (mem_of_inside hm hb) (mem_of_inside hm' hc)

/-- The decision tries the least value of a shared domain before which all are fixed. -/
def Decision.LeastFirst (b : Box) (d : Decision) : Prop :=
  ∃ x : DomainId, d = .atMost x (b.entry x).min ∧
    ∀ e : DomainId, e.index < x.index → (b.entry e).min = (b.entry e).max

/-- The brancher only takes such decisions. -/
def Brancher.LeastFirst (br : Brancher σ) : Prop :=
  ∀ {m m' : σ} {b : Box} {g g' : Generator} {d : Decision},
    br.next m b g = .ok (some d, m', g') → d.LeastFirst b

/-- Assignments are compared at the first shared domain in which they differ. -/
theorem lt_of_valueIn (hlen : as.length = bs.length) (hx : x.index < as.length)
    (hsame : ∀ e : DomainId, e.index < x.index → e.valueIn as = e.valueIn bs)
    (hlt : x.valueIn as < x.valueIn bs) : as < bs := by
  have hvalue {cs : List Int} {k : Nat} (hk : k < cs.length) :
      (DomainId.mk k).valueIn cs = cs[k] := by
    rw [DomainId.valueIn, List.getD_eq_getElem?_getD, List.getElem?_eq_getElem hk]
    rfl
  refine List.lt_iff_exists.2 (.inr ⟨x.index, hx, hlen ▸ hx, ?_, ?_⟩)
  · intro k hk
    rw [← hvalue, ← hvalue]
    exact hsame ⟨k⟩ hk
  · rw [← hvalue, ← hvalue]
    exact hlt

/-- **The least value comes before the others.** -/
theorem branches_before (hi : b.get d.domain = .ok i) (ho : d.alternative = .ok other)
    (hd : d.LeastFirst b) : (Box.tighten b d.commitment).Before (Box.tighten b other) := by
  have hlt := lt_size_of_get hi
  obtain ⟨x, rfl, hfixed⟩ := hd
  obtain ⟨w, hw, ho⟩ := bind_eq_ok.1 ho
  obtain ⟨-, rfl⟩ := Width.add_eq_ok.1 hw
  obtain rfl := Except.ok.inj ho
  intro as bs hm hm'
  obtain ⟨hm, hle⟩ := (Box.mem_tighten_iff hlt).1 hm
  obtain ⟨hm', hgt⟩ := (Box.mem_tighten_iff hlt).1 hm'
  simp only [Branch.Allows, Decision.commitment] at hle hgt
  have hlen : as.length = b.size := (Box.mem_iff.1 hm).1
  have hlen' : bs.length = b.size := (Box.mem_iff.1 hm').1
  refine lt_of_valueIn (hlen.trans hlen'.symm) (hlen ▸ hlt) ?_ ?_
  · intro e he
    have hbounds := Box.mem_bounds hm e
    have hbounds' := Box.mem_bounds hm' e
    have := hfixed e he
    omega
  · show x.valueIn as < x.valueIn bs
    omega

/-- All before the first shared domain that is not fixed are fixed. -/
theorem firstUnfixed_eq_some (h : VariableOrder.firstUnfixed b ds = .ok (some x)) :
    ∃ pre post, ds = pre ++ x :: post ∧ ∀ e ∈ pre, (b.entry e).min = (b.entry e).max := by
  induction ds with
  | nil => cases h
  | cons e ds ih =>
    obtain ⟨j, hj, h⟩ := bind_eq_ok.1 h
    split at h
    · rename_i hfixed
      obtain ⟨pre, post, rfl, hpre⟩ := ih h
      refine ⟨e :: pre, post, rfl, List.forall_mem_cons.2 ⟨?_, hpre⟩⟩
      rw [Keyed.entry_of_get? (Keyed.get_eq_ok.1 hj)]
      exact Interval.isFixed_iff.1 hfixed
    · obtain rfl := Option.some.inj (Except.ok.inj h)
      exact ⟨[], ds, rfl, List.forall_mem_nil _⟩

theorem default_leastFirst (c : Box) : (Strategy.default c).brancher.LeastFirst := by
  intro m m' b g g' d h
  obtain ⟨⟨o, g''⟩, hchoose, h⟩ := bind_eq_ok.1 h
  obtain ⟨rfl, -⟩ := Prod.mk.inj (Except.ok.inj h)
  obtain ⟨first, hfirst, hchoose⟩ := bind_eq_ok.1 hchoose
  cases first with
  | none => cases hchoose
  | some x =>
    obtain ⟨⟨d', g'''⟩, hvalue, hchoose⟩ := bind_eq_ok.1 hchoose
    obtain ⟨j, hj, hvalue⟩ := bind_eq_ok.1 hvalue
    obtain ⟨rfl, -⟩ := Prod.mk.inj (Except.ok.inj hvalue)
    obtain rfl := Option.some.inj (Prod.mk.inj (Except.ok.inj hchoose)).1
    obtain ⟨pre, post, hkeys, hfixed⟩ := firstUnfixed_eq_some hfirst
    have hkeys : (List.range c.size).map DomainId.mk = pre ++ x :: post := hkeys
    have hindex (k : Nat) (hk : k < (pre ++ x :: post).length) :
        (pre ++ x :: post)[k] = ⟨k⟩ := by
      simp only [← hkeys, List.getElem_map, List.getElem_range]
    refine ⟨x, ?_, ?_⟩
    · rw [Keyed.entry_of_get? (Keyed.get_eq_ok.1 hj)]
    · intro e he
      have hx := hindex pre.length (by simp)
      rw [List.getElem_append_right (Nat.le_refl _)] at hx
      have hx : x = ⟨pre.length⟩ := by simpa using hx
      have hlt : e.index < pre.length := by rwa [hx] at he
      have hmem := hindex e.index (by simp; omega)
      rw [List.getElem_append_left hlt] at hmem
      exact hfixed e (List.mem_of_getElem hmem)

/-- So does the search when the brancher has nothing to offer. -/
theorem Box.firstUnfixed?_leastFirst (h : b.firstUnfixed? = some (x, i)) :
    (Decision.atMost x i.min).LeastFirst b := by
  obtain ⟨k, hk, h⟩ := Option.bind_eq_some_iff.1 h
  obtain ⟨j, hj, h⟩ := Option.map_eq_some_iff.1 h
  obtain ⟨rfl, rfl⟩ := Prod.mk.inj h
  obtain ⟨hlt, -, hfixed⟩ := Array.findIdx?_eq_some_iff_getElem.1 hk
  have hget : b.get? ⟨k⟩ = some j := hj
  refine ⟨⟨k⟩, ?_, ?_⟩
  · rw [Keyed.entry_of_get? hget]
  · intro e he
    have he : e.index < k := he
    have hget : b.get? e = some b.entries[e.index] :=
      Array.getElem?_eq_getElem (Nat.lt_trans he hlt)
    rw [Keyed.entry_of_get? hget]
    exact Interval.isFixed_iff.1 (by simpa using hfixed e.index he)

namespace Solver

/-! ### The moves -/

/-- What is still to be searched comes in order, the last on the frontier first, and the
brancher keeps it so. -/
structure Ascending (s : Solver σ) : Prop where
  brancher : s.brancher.LeastFirst
  frontier : s.frontier.Pairwise fun older newer => Box.Before newer older

/-- What has been handed out on the way comes before what is pending still. -/
def Precedes (n : Network) (s t : Solver σ) : Prop :=
  ∀ as bs : List Int, s.Pending n as → ¬ t.Pending n as → t.Pending n bs → as < bs

theorem Ascending.of_exhausted (hb : s.brancher.LeastFirst) (h : s.phase = .exhausted) :
    s.Ascending := by
  refine ⟨hb, ?_⟩
  rw [frontier_of_exhausted h]
  exact .nil

/-- Shrinking the current box keeps the order. -/
theorem Ascending.filtered (h : s.Ascending) (hk : s.Keeps v) (hph : s.phase = .filtering)
    (hph' : v.phase = .filtering) (hcs : v.choicePoints = s.choicePoints)
    (hin : v.state.box.Inside s.state.box) : v.Ascending := by
  have hbehind : v.behind = s.behind := congrArg (List.map _ ∘ ChoicePoints.live) hcs
  refine ⟨hk.brancher ▸ h.brancher, ?_⟩
  have hfrontier := h.frontier
  rw [frontier_of_filtering hph, pairwise_concat] at hfrontier
  rw [frontier_of_filtering hph', hbehind, pairwise_concat]
  refine ⟨hfrontier.1, ?_⟩
  intro e he
  exact (hfrontier.2 e he).of_inside hin (.refl _)

/-- Leaving a node for what is behind it keeps the order. -/
theorem Ascending.behind (h : s.Ascending) (hph : s.phase = .filtering) :
    s.behind.Pairwise fun older newer => Box.Before newer older := by
  have hfrontier := h.frontier
  rw [frontier_of_filtering hph] at hfrontier
  exact (List.pairwise_append.1 hfrontier).1

theorem Decides.leastFirst (h : s.Decides v d other) (hb : s.brancher.LeastFirst) :
    d.LeastFirst v.state.box := by
  cases h with
  | @intro u x i j own memory generator other hph hu hfirst hnext =>
    cases own with
    | none => exact Box.firstUnfixed?_leastFirst hfirst
    | some d => exact hb hnext

/-- Entering the branch of the least value keeps the order. -/
theorem commit_ascending {cs : ChoicePoints} (hs : s.Ascending) (hph : s.phase = .filtering)
    (hi : s.state.box.get d.domain = .ok i) (hother : d.alternative = .ok other)
    (hd : d.LeastFirst s.state.box)
    (hcs : s.choicePoints.push ⟨s.state.box, s.state.entailed, other⟩ = .ok cs) :
    (s.commit d cs).Ascending := by
  have hfrontier := hs.frontier
  rw [frontier_of_filtering hph, pairwise_concat] at hfrontier
  obtain ⟨hws, hnode⟩ := hfrontier
  refine ⟨hs.brancher, ?_⟩
  rw [commit_frontier hph hcs, pairwise_concat, pairwise_concat]
  refine ⟨⟨hws, ?_⟩, ?_⟩
  · intro e he
    exact (hnode e he).of_inside (Box.tighten_inside _ _) (.refl _)
  · intro e he
    rcases List.mem_append.1 he with he | he
    · exact (hnode e he).of_inside (Box.tighten_inside _ _) (.refl _)
    · rw [List.mem_singleton.1 he]
      exact branches_before hi hother hd

/-- A move keeps the order. -/
theorem step_ascending (hn : n.WellFormed) (hsound : s.Sound n) (hs : s.Ascending)
    (h : s.step = .ok (t, a)) : t.Ascending := by
  cases step_moves h with
  | close => exact .of_exhausted hs.brancher rfl
  | enter hph =>
    have hfrontier := hs.frontier
    rw [frontier_of_ready hph] at hfrontier
    exact ⟨hs.brancher, hfrontier⟩
  | fail hph =>
    refine ⟨hs.brancher, ?_⟩
    rw [frontier_of_left (.inr rfl)]
    exact hs.behind hph
  | leaf hph =>
    refine ⟨hs.brancher, ?_⟩
    rw [frontier_of_left (.inl rfl)]
    exact hs.behind hph
  | commit hd hcs =>
    obtain ⟨hph, hfil⟩ := hd.filtered hn hsound
    obtain ⟨i, hi, -, hother⟩ := hd.splits
    have hv := hs.filtered hd.keeps hph hd.phase hd.choicePoints hfil.inside
    exact commit_ascending hv hd.phase hi hother (hd.leastFirst hs.brancher) hcs
  | overflow hd => exact .of_exhausted (hd.keeps.brancher ▸ hs.brancher) rfl
  | leave hl =>
    obtain ⟨skipped, hfrontier, -⟩ := leave_frontier hn hsound hl
    refine ⟨(leave_keeps s).brancher ▸ hs.brancher, ?_⟩
    have hpairwise := hs.frontier
    rw [hfrontier] at hpairwise
    exact (List.pairwise_append.1 hpairwise).1
  | stop => exact hs

/-- A solution is the least that is pending, since its node is last on the frontier. -/
theorem step_precedes (hs : s.Ascending)
    (h : s.step = .ok (t, some (.solution values))) : Precedes n s t := by
  cases step_moves h with
  | @leaf u _ hph =>
    have hleft : (({ s with state := u } : Solver σ).solve values).Left := .inl rfl
    have hfrontier := hs.frontier
    rw [frontier_of_filtering hph, pairwise_concat] at hfrontier
    intro as bs ha hgone hb
    rw [pending_iff_of_left hleft] at hgone hb
    rw [pending_iff_of_filtering hph] at ha
    obtain ⟨hsat, hbehind | hm⟩ := ha
    · exact absurd ⟨hsat, hbehind⟩ hgone
    · obtain ⟨-, e, he, hme⟩ := hb
      exact hfrontier.2 e he as bs hm hme

/-! ### The loops -/

/-- **The next solution comes before those that are pending still.** -/
theorem solveOne_ascending (hn : n.WellFormed) (hsound : s.Sound n) (ho : s.Orderly)
    (hs : s.Ascending) (h : s.solveOne = .ok (.solution values, t)) :
    t.Ascending ∧ Precedes n s t := by
  fun_induction solveOne s with
  | case1 => cases h
  | case2 s u a hstep =>
    obtain ⟨rfl, rfl⟩ := Prod.mk.inj (Except.ok.inj h)
    exact ⟨step_ascending hn hsound hs hstep, step_precedes hs hstep⟩
  | case3 s u hstep ih =>
    obtain ⟨ho', hsame⟩ := step_accounts hn hsound ho hstep
    obtain ⟨hs', hprecedes⟩ :=
      ih (step_sound hn hsound hstep).1 ho' (step_ascending hn hsound hs hstep) h
    refine ⟨hs', ?_⟩
    intro as bs ha hgone hb
    exact hprecedes as bs ((hsame as).1 ha) hgone hb

/-- **Collecting lists the pending solutions in ascending order.** -/
theorem collectOnto_ascending (hn : n.WellFormed) (hsound : s.Sound n) (ho : s.Orderly)
    (hs : s.Ascending) (h : (s.collectOnto found none).outcome = .ok (.ok solutions)) :
    ∃ ass, s.Lists n ass ∧ ass.Pairwise (· < ·) ∧
      solutions = found.reverse ++ ass.map n.valuesOf := by
  generalize hw : (none : Option Nat) = wanted at h
  fun_induction collectOnto found wanted s with
  | case1 => cases hw
  | case2 => cases h
  | case3 found wanted s _ t ht =>
    obtain ⟨-, -, hacc⟩ := solveOne_accounts hn hsound ho ht
    obtain rfl := Except.ok.inj (Except.ok.inj h)
    exact ⟨[], lists_nil hacc, .nil, by simp⟩
  | case4 => cases h
  | case5 found wanted s _ values t ht ih =>
    obtain ⟨hsound', ho', hacc⟩ := solveOne_accounts hn hsound ho ht
    obtain ⟨hs', hprecedes⟩ := solveOne_ascending hn hsound ho hs ht
    obtain ⟨ass, hass, hsorted, hsolutions⟩ := ih hsound' ho' hs' (hw ▸ rfl) h
    obtain ⟨as, hvalues, hcons⟩ := lists_cons hacc hass
    refine ⟨as :: ass, hcons, List.pairwise_cons.2 ⟨?_, hsorted⟩, ?_⟩
    · intro bs hb
      refine hprecedes as bs ((hcons.mem_iff as).1 List.mem_cons_self) ?_ ((hass.mem_iff bs).1 hb)
      intro hp
      exact (List.nodup_cons.1 hcons.nodup).1 ((hass.mem_iff as).2 hp)
    · rw [hsolutions, hvalues]
      simp

theorem reset_ascending (hb : s.brancher.LeastFirst) : s.reset.Ascending := by
  refine ⟨hb, ?_⟩
  rw [reset_frontier]
  exact List.pairwise_singleton _ _

end Solver

/-! ### The order of posting -/

/-- The networks agree but for the order of their propagators. -/
structure Network.Rearranged (n m : Network) : Prop where
  initial : m.initial = n.initial
  views : m.views = n.views
  propagators : m.propagators.toList.Perm n.propagators.toList

theorem Network.Rearranged.refl (n : Network) : n.Rearranged n := ⟨rfl, rfl, .refl _⟩

theorem Network.Rearranged.solves_iff {m : Network} (h : n.Rearranged m) :
    m.Solves as ↔ n.Solves as := by
  have hholds : m.Satisfies as ↔ n.Satisfies as := forall_congr' fun q =>
    imp_congr_left h.propagators.mem_iff
  constructor
  · rintro ⟨hm, hsat⟩
    exact ⟨h.initial ▸ hm, hholds.1 hsat⟩
  · rintro ⟨hm, hsat⟩
    exact ⟨h.initial ▸ hm, hholds.2 hsat⟩

theorem Network.Rearranged.valuesOf {m : Network} (h : n.Rearranged m) :
    m.valuesOf as = n.valuesOf as := by
  rw [Network.valuesOf, Network.valuesOf, h.views]

/-- Posting in another order rearranges the network. -/
theorem post_rearranged {ts us : List Posting} (h : p.post ts = .ok q)
    (hperm : us.Perm ts) : ∃ r, p.post us = .ok r ∧ q.network.Rearranged r.network := by
  obtain ⟨r, hr, -, hpropagators⟩ := post_perm h hperm
  have hq := post_agrees h
  have hr' := post_agrees hr
  exact ⟨r, hr, hr'.initial.trans hq.initial.symm, hr'.views.trans hq.views.symm, hpropagators⟩

/-- With the default brancher the solutions come in ascending order. -/
theorem Solver.findAll_sorted (hp : Built p) (hs : Reached p s) (hb : s.brancher.LeastFirst)
    (h : s.findAll = .ok (.ok solutions, t)) :
    ∃ ass : List (List Int), solutions = ass.map p.network.valuesOf ∧ ass.Pairwise (· < ·) ∧
      ∀ as, as ∈ ass ↔ p.network.Solves as := by
  have hn := hp.sound.network
  obtain ⟨x, hx, h⟩ := bind_eq_ok.1 h
  obtain ⟨rfl, -⟩ := Prod.mk.inj (Except.ok.inj h)
  obtain ⟨ass, hass, hsorted, hsolutions⟩ := Solver.collectOnto_ascending hn (hs.reset.sound hp)
    s.reset_orderly (Solver.reset_ascending hb) hx
  refine ⟨ass, hsolutions, hsorted, ?_⟩
  intro as
  rw [hass.mem_iff, Solver.reset_pending_iff (hs.sound hp).network]

/-- **The default brancher makes enumeration lexicographic.**  If `findAll` comes to a list
then this goes through the assignments of the shared domains, in the order of creation,
that solve the problem, in strictly ascending order.  Hence every list that it comes to is
the same: under either consistency, with any capacity, seed and earlier search, and for the
same propagators in any other order; and constraints that were posted in one order can be
posted in every other. -/
theorem findAll_ascending {s t : Solver Unit} (hp : Built p) (hs : Reached p s)
    (hb : s.brancher = (Strategy.default p.current).brancher)
    (h : s.findAll = .ok (.ok solutions, t)) :
    (∃ ass : List (List Int), solutions = ass.map p.network.valuesOf ∧ ass.Pairwise (· < ·) ∧
      ∀ as, as ∈ ass ↔ p.network.Solves as) ∧
    (∀ {q : Problem} {r u : Solver Unit} {others : List (List Int)}, Built q →
      p.network.Rearranged q.network → Reached q r →
        r.brancher = (Strategy.default q.current).brancher →
          r.findAll = .ok (.ok others, u) → others = solutions) ∧
    ∀ {o : Problem} {ts us : List Posting}, Built o → o.post ts = .ok p → us.Perm ts →
      ∃ q, o.post us = .ok q ∧ Built q ∧ p.network.Rearranged q.network := by
  obtain ⟨ass, hsolutions, hsorted, hmem⟩ :=
    Solver.findAll_sorted hp hs (hb ▸ default_leastFirst _) h
  refine ⟨⟨ass, hsolutions, hsorted, hmem⟩, ?_, ?_⟩
  · intro q r u others hq hsame hr hb' h'
    obtain ⟨bss, hothers, hsorted', hmem'⟩ :=
      Solver.findAll_sorted hq hr (hb' ▸ default_leastFirst _) h'
    obtain rfl : bss = ass := by
      refine hsorted'.eq_of_mem_iff hsorted ?_
      intro as
      rw [hmem', hmem, hsame.solves_iff]
    rw [hothers, hsolutions]
    exact List.map_congr_left fun as _ => hsame.valuesOf
  · intro o ts us ho hpost hperm
    obtain ⟨q, hq, hsame⟩ := post_rearranged hpost hperm
    exact ⟨q, hq, ho.post hq, hsame⟩

/-- In `Problem.either` the list has the two solutions in ascending order, whatever the options,
and also if the constraints are posted the other way round. -/
theorem findAll_ascending_either :
    let solutions : List (List Int) := [[2, 0, 1], [2, 1, 0]]
    (∃ t, (Solver.ofProblem .either .default .off).findAll = .ok (.ok solutions, t)) ∧
    (∃ first second, solutions = [first, second].map Problem.either.network.valuesOf ∧
      first < second) ∧
    (∀ {o : Options} {log : Log} {u : Solver Unit} {others : List (List Int)},
      (Solver.ofProblem .either o log).findAll = .ok (.ok others, u) → others = solutions) ∧
    ∃ q, Problem.priced.post Posting.eithers.reverse = .ok q ∧
      ∀ {o : Options} {log : Log} {u : Solver Unit} {others : List (List Int)},
        (Solver.ofProblem q o log).findAll = .ok (.ok others, u) → others = solutions := by
  intro solutions
  obtain ⟨t, hall, -⟩ := findAll_either
  obtain ⟨⟨ass, hass, hsorted, -⟩, hsame, hposted⟩ :=
    findAll_ascending .either (.fresh .either .default .off) rfl hall
  obtain ⟨q, hq, hbuilt, hrearranged⟩ :=
    hposted .priced post_eithers Posting.eithers.reverse_perm
  refine ⟨⟨t, hall⟩, ?_, fun {o log u others} h => ?_, q, hq, fun {o log u others} h => ?_⟩
  · obtain ⟨first, second, rfl⟩ := List.length_eq_two.1
      ((List.length_map _).symm.trans (congrArg List.length hass.symm))
    exact ⟨first, second, hass, List.pairwise_pair.1 hsorted⟩
  · exact hsame .either (.refl _) (.fresh .either o log) rfl h
  · exact hsame hbuilt hrearranged (.fresh q o log) rfl h

end BoundsSolver
