/-
# Branchers that always split

A strategy picks one of its shared domains by one rule and splits it by another.  The rules
that look at sizes pick the first of the best (`VariableOrder.Picks`): those before it lose to
it, and those behind do not beat it.  Whatever the rules are, the decision splits the interval
of the domain, up to the whole range of values: both of its sides have values, no value is in
both, and the bounds of either side are found without a fault (`Decision.Divides`).

`next_splits` puts the two together.  There is no decision exactly when all shared domains of
the strategy are fixed; a strategy that splits at random may draw for ever instead, if the
generator never shows a word that is accepted.
-/

import BoundsSolver.Proofs.Network.Narrowing
import BoundsSolver.Proofs.Search.Draws
import BoundsSolver.Search.Brancher

namespace BoundsSolver

/-- The rule decides on the first interval rather than on the second, wherever they are
listed. -/
def VariableOrder.Prefers : VariableOrder → Interval → Interval → Prop
  | .inputOrder, _, _ => False
  | .firstFail, i, j => i.size < j.size
  | .antiFirstFail, i, j => j.size < i.size

/-- The shared domain is the one that the rule picks: the first that is not fixed, or the
first of the smallest or largest of those. -/
structure VariableOrder.Picks (o : VariableOrder) (b : Box) (ds : List DomainId)
    (d : DomainId) : Prop where
  unfixed : (b.entry d).isFixed = false
  first : ∃ before behind, ds = before ++ d :: behind ∧
    (∀ e ∈ before, (b.entry e).isFixed = true ∨ o.Prefers (b.entry d) (b.entry e)) ∧
    ∀ e ∈ behind, (b.entry e).isFixed = true ∨ ¬ o.Prefers (b.entry e) (b.entry d)

/-- Two intervals with values that share out those of a third. -/
structure Interval.Parts (i j k : Interval) : Prop where
  filled : j.isEmpty = false ∧ k.isEmpty = false
  covers : ∀ x, i.contains x ↔ j.contains x ∨ k.contains x
  apart : ∀ x, ¬ (j.contains x ∧ k.contains x)

/-- What a branch leaves of an interval. -/
def Branch.side (br : Branch) (i : Interval) : Interval := i.tighten br.bound br.value

/-- The decision splits an interval: it has the given alternative, both are about values of
the same shared domain, and they share out those of the interval. -/
structure Decision.Divides (c : Decision) (i : Interval) (other : Branch) : Prop where
  splits : c.splits i = true
  alternative : c.alternative = .ok other
  domain : c.commitment.domain = c.domain ∧ other.domain = c.domain
  fits : Width.value.Fits c.commitment.value ∧ Width.value.Fits other.value
  parts : i.Parts (c.commitment.side i) (other.side i)

variable {b : Box} {ds : List DomainId} {d : DomainId} {i j k : Interval} {c : Decision} {v : Int}
  {o : VariableOrder} {s : Strategy}

/-! ### Both sides of a decision -/

theorem Interval.Parts.symm (h : i.Parts j k) : i.Parts k j where
  filled := h.filled.symm
  covers x := (h.covers x).trans Or.comm
  apart x hx := h.apart x hx.symm

theorem Interval.tighten_parts (hmin : i.min ≤ v) (hmax : v < i.max) :
    i.Parts (i.tighten .max v) (i.tighten .min (v + 1)) where
  filled := by
    simp only [tighten, isEmpty_eq_false_iff, tightenMax_min, tightenMax_max, tightenMin_min,
      tightenMin_max]
    omega
  covers x := by
    rw [contains_tighten_iff, contains_tighten_iff, ← and_or_left]
    simp only [Bound.Admits]
    exact (and_iff_left (by omega)).symm
  apart x := by
    rw [contains_tighten_iff, contains_tighten_iff]
    simp only [Bound.Admits]
    omega

/-- **A decision that splits an interval of values divides it**, without a fault. -/
theorem Decision.divides_of_splits (hi : i.Fits) (h : c.splits i = true) :
    ∃ other, c.Divides i other := by
  obtain ⟨⟨hlo, -⟩, -, hhi⟩ := hi
  cases c with
  | atMost d v =>
    obtain ⟨hmin, hmax⟩ := of_decide_eq_true h
    have hv : Width.value.Fits v := ⟨by omega, by omega⟩
    have hnext : Width.value.Fits (v + 1) := ⟨by omega, by omega⟩
    exact ⟨⟨d, .min, v + 1⟩, h, bind_of_ok (Width.add_eq_ok.2 ⟨hnext, rfl⟩), ⟨rfl, rfl⟩,
      ⟨hv, hnext⟩, Interval.tighten_parts hmin hmax⟩
  | atLeast d v =>
    obtain ⟨hmin, hmax⟩ := of_decide_eq_true h
    have hv : Width.value.Fits v := ⟨by omega, by omega⟩
    have hnext : Width.value.Fits (v - 1) := ⟨by omega, by omega⟩
    have hparts := Interval.tighten_parts (i := i) (v := v - 1) (by omega) (by omega)
    rw [Int.sub_add_cancel] at hparts
    exact ⟨⟨d, .max, v - 1⟩, h, bind_of_ok (Width.sub_eq_ok.2 ⟨hnext, rfl⟩), ⟨rfl, rfl⟩,
      ⟨hv, hnext⟩, hparts.symm⟩

/-- **Every rule splits an interval of more than one value**, unless it draws for ever. -/
theorem ValueOrder.choose_cases (o : ValueOrder) (hi : b.get d = .ok i)
    (hfits : o = .randomSplitter → i.Fits) (hlt : i.min < i.max) (g : Generator) :
    (∃ c g', o.choose b d g = .ok (c, g') ∧ c.domain = d ∧ c.splits i = true) ∨
    (o = .randomSplitter ∧ o.choose b d g = .error .endless ∧
      g.Rejects (i.max - i.min).toNat) := by
  rw [choose, bind_of_ok hi]
  cases o with
  | inDomainMin => exact .inl ⟨_, _, rfl, rfl, decide_eq_true ⟨Int.le_refl _, hlt⟩⟩
  | inDomainMax => exact .inl ⟨_, _, rfl, rfl, decide_eq_true ⟨hlt, Int.le_refl _⟩⟩
  | inDomainSplit =>
    have hmid : i.min ≤ Int.fdiv (i.min + i.max) 2 ∧ Int.fdiv (i.min + i.max) 2 < i.max := by
      rw [Int.fdiv_eq_ediv_of_nonneg _ (by decide)]
      omega
    exact .inl ⟨_, _, rfl, rfl, decide_eq_true hmid⟩
  | randomSplitter =>
    obtain ⟨x, g', hx, hle, hlt⟩ | ⟨hends, hreject⟩ := Generator.valueIn_cases hlt g
    · left
      have hnext : Width.value.Fits (x + 1) := by
        obtain ⟨⟨hlo, -⟩, -, hhi⟩ := hfits rfl
        exact ⟨by omega, by omega⟩
      dsimp only
      rw [bind_of_ok hx]
      cases g'.coin.1 with
      | true => exact ⟨_, _, rfl, rfl, decide_eq_true ⟨hle, hlt⟩⟩
      | false =>
        rw [if_neg Bool.false_ne_true, bind_of_ok (Width.add_eq_ok.2 ⟨hnext, rfl⟩)]
        exact ⟨_, _, rfl, rfl, decide_eq_true (show _ ∧ _ by omega)⟩
    · refine .inr ⟨rfl, ?_, hreject⟩
      dsimp only
      rw [hends]
      rfl

/-! ### The first of the best -/

section Selection

variable {beats : Nat → Nat → Bool} {cs pre : List (DomainId × Nat)} {best : DomainId × Nat}

/-- The candidate is the first of those that no other beats. -/
def FirstBest (beats : Nat → Nat → Bool) (cs : List (DomainId × Nat)) (c : DomainId × Nat) :
    Prop :=
  ∃ before behind, cs = before ++ c :: behind ∧ (∀ e ∈ before, beats c.2 e.2 = true) ∧
    ∀ e ∈ behind, beats e.2 c.2 = false

/-- Of two numbers at most one beats the other, and what beats a number beats all those that do
not. -/
structure Ranks (beats : Nat → Nat → Bool) : Prop where
  asymm : ∀ {x y : Nat}, beats x y = true → beats y x = false
  trans : ∀ {x y z : Nat}, beats x y = true → beats z y = false → beats x z = true

theorem Ranks.irrefl (h : Ranks beats) (x : Nat) : beats x x = false := by
  by_contra hx
  rw [Bool.not_eq_false] at hx
  exact Bool.false_ne_true ((h.asymm hx).symm.trans hx)

theorem Ranks.flip (h : Ranks beats) : Ranks fun x y => beats y x where
  asymm hxy := h.asymm hxy
  trans {x y z} hyx hyz := by
    by_contra hzx
    rw [Bool.not_eq_true] at hzx
    exact Bool.false_ne_true (hyz.symm.trans (h.trans hyx hzx))

theorem FirstBest.not_beaten (hr : Ranks beats) (h : FirstBest beats cs best) :
    ∀ e ∈ cs, beats e.2 best.2 = false := by
  obtain ⟨before, behind, rfl, hbefore, hbehind⟩ := h
  intro e he
  rcases List.mem_append.1 he with he | he
  · exact hr.asymm (hbefore e he)
  · rcases List.mem_cons.1 he with rfl | he
    · exact hr.irrefl _
    · exact hbehind e he

/-- Going through candidates keeps the first of the best so far. -/
theorem FirstBest.foldl (hr : Ranks beats) (h : FirstBest beats pre best) :
    FirstBest beats (pre ++ cs)
      (cs.foldl (fun best d => if beats d.2 best.2 then d else best) best) := by
  induction cs generalizing pre best with
  | nil => exact (List.append_nil pre).symm ▸ h
  | cons e cs ih =>
    rw [List.append_cons, List.foldl_cons]
    refine ih ?_
    split
    · rename_i he
      exact ⟨pre, [], rfl, fun x hx => hr.trans he (h.not_beaten hr x hx),
        fun x hx => absurd hx List.not_mem_nil⟩
    · rename_i he
      obtain ⟨before, behind, rfl, hbefore, hbehind⟩ := h
      refine ⟨before, behind ++ [e], by simp, hbefore, fun x hx => ?_⟩
      rcases List.mem_append.1 hx with hx | hx
      · exact hbehind x hx
      · rw [List.mem_singleton.1 hx]
        exact Bool.eq_false_iff.2 he

theorem exists_firstBest (hr : Ranks beats) (h : VariableOrder.firstBest beats cs = some d) :
    ∃ size, FirstBest beats cs (d, size) := by
  cases cs with
  | nil => cases h
  | cons c cs =>
    obtain rfl := Option.some.inj h
    have hstart : FirstBest beats [c] c :=
      ⟨[], [], rfl, fun e he => absurd he List.not_mem_nil, fun e he => absurd he List.not_mem_nil⟩
    exact ⟨_, hstart.foldl hr⟩

theorem get_of_lt (hd : d.index < b.size) : b.get d = .ok (b.entry d) :=
  Keyed.get_eq_ok.2 (Box.get?_eq_of_lt hd)

/-- The candidates are the listed shared domains that are not fixed. -/
theorem unfixed_eq (hds : ∀ d ∈ ds, d.index < b.size) :
    VariableOrder.unfixed b ds = .ok ((ds.filter fun d => !(b.entry d).isFixed).map fun d =>
      (d, (b.entry d).size)) := by
  induction ds with
  | nil => rfl
  | cons d ds ih =>
    obtain ⟨hd, hds⟩ := List.forall_mem_cons.1 hds
    rw [VariableOrder.unfixed, bind_of_ok (get_of_lt hd), bind_of_ok (ih hds)]
    cases hfixed : (b.entry d).isFixed with
    | true =>
      rw [List.filter_cons_of_neg (by simp [hfixed])]
      rfl
    | false =>
      rw [List.filter_cons_of_pos (by simp [hfixed])]
      rfl

/-- A rule that goes by the sizes picks the first of the best. -/
theorem picks_of_firstBest (hr : Ranks beats)
    (hbeats : ∀ i j : Interval, beats i.size j.size = true ↔ o.Prefers i j)
    (h : VariableOrder.firstBest beats ((ds.filter fun d => !(b.entry d).isFixed).map fun d =>
      (d, (b.entry d).size)) = some d) : o.Picks b ds d := by
  obtain ⟨size, before, behind, heq, hbefore, hbehind⟩ := exists_firstBest hr h
  obtain ⟨l, l', hfilter, rfl, hl'⟩ := List.map_eq_append_iff.1 heq
  obtain ⟨a, r, rfl, ha, rfl⟩ := List.map_eq_cons_iff.1 hl'
  obtain ⟨rfl, rfl⟩ := Prod.mk.inj ha
  obtain ⟨front, rest, rfl, rfl, hrest⟩ := List.filter_eq_append_iff.1 hfilter
  obtain ⟨fixed, tail, rfl, hfixed, hunfixed, rfl⟩ := List.filter_eq_cons_iff.1 hrest
  refine ⟨by simpa using hunfixed, front ++ fixed, tail, by simp, fun e he => ?_, fun e he => ?_⟩
  · rcases List.mem_append.1 he with he | he
    · refine or_iff_not_imp_left.2 fun hopen => (hbeats _ _).1 (hbefore (e, (b.entry e).size) ?_)
      exact List.mem_map.2 ⟨e, List.mem_filter.2 ⟨he, by simpa using hopen⟩, rfl⟩
    · exact .inl (by simpa using hfixed e he)
  · refine or_iff_not_imp_left.2 fun hopen hprefers => ?_
    have hbeaten := hbehind (e, (b.entry e).size)
      (List.mem_map.2 ⟨e, List.mem_filter.2 ⟨he, by simpa using hopen⟩, rfl⟩)
    rw [(hbeats _ _).2 hprefers] at hbeaten
    cases hbeaten

/-- The first shared domain that is not fixed is picked from the input order. -/
theorem firstUnfixed_cases (hds : ∀ d ∈ ds, d.index < b.size) :
    (VariableOrder.firstUnfixed b ds = .ok none ∧ ∀ d ∈ ds, (b.entry d).isFixed = true) ∨
    ∃ d, VariableOrder.firstUnfixed b ds = .ok (some d) ∧
      VariableOrder.Picks .inputOrder b ds d := by
  induction ds with
  | nil => exact .inl ⟨rfl, fun d hd => absurd hd List.not_mem_nil⟩
  | cons e ds ih =>
    obtain ⟨he, hds⟩ := List.forall_mem_cons.1 hds
    rw [VariableOrder.firstUnfixed, bind_of_ok (get_of_lt he)]
    cases hfixed : (b.entry e).isFixed with
    | true =>
      rw [if_pos rfl]
      obtain ⟨hnone, hall⟩ | ⟨d, hd, hopen, before, behind, rfl, hbefore, hbehind⟩ := ih hds
      · exact .inl ⟨hnone, List.forall_mem_cons.2 ⟨hfixed, hall⟩⟩
      · exact .inr ⟨d, hd, hopen, e :: before, behind, rfl,
          List.forall_mem_cons.2 ⟨.inl hfixed, hbefore⟩, hbehind⟩
    | false =>
      rw [if_neg Bool.false_ne_true]
      exact .inr ⟨e, rfl, hfixed, [], ds, rfl, fun _ h => absurd h List.not_mem_nil,
        fun _ _ => .inr id⟩

/-- Going by the sizes, the first of the best is picked. -/
theorem unfixed_cases (hr : Ranks beats)
    (hbeats : ∀ i j : Interval, beats i.size j.size = true ↔ o.Prefers i j)
    (hds : ∀ d ∈ ds, d.index < b.size) :
    ((VariableOrder.unfixed b ds).map (VariableOrder.firstBest beats) = .ok none ∧
      ∀ d ∈ ds, (b.entry d).isFixed = true) ∨
    ∃ d, (VariableOrder.unfixed b ds).map (VariableOrder.firstBest beats) = .ok (some d) ∧
      o.Picks b ds d := by
  rw [unfixed_eq hds]
  cases hcs : (ds.filter fun d => !(b.entry d).isFixed).map fun d => (d, (b.entry d).size) with
  | nil =>
    refine .inl ⟨rfl, fun d hd => ?_⟩
    simpa using List.filter_eq_nil_iff.1 (List.map_eq_nil_iff.1 hcs) d hd
  | cons c cs => exact .inr ⟨_, rfl, picks_of_firstBest hr hbeats (hcs.symm ▸ rfl)⟩

theorem ranks_lt : Ranks fun x y => decide (x < y) where
  asymm h := by
    rw [decide_eq_true_eq] at h
    rw [decide_eq_false_iff_not]
    omega
  trans h h' := by
    rw [decide_eq_true_eq] at h ⊢
    rw [decide_eq_false_iff_not] at h'
    omega

/-- **Every rule picks a shared domain that is not fixed**, unless all are. -/
theorem VariableOrder.select_cases (o : VariableOrder) (hds : ∀ d ∈ ds, d.index < b.size) :
    (o.select ds b = .ok none ∧ ∀ d ∈ ds, (b.entry d).isFixed = true) ∨
    ∃ d, o.select ds b = .ok (some d) ∧ o.Picks b ds d := by
  cases o with
  | inputOrder => exact firstUnfixed_cases hds
  | firstFail => exact unfixed_cases ranks_lt (fun _ _ => decide_eq_true_iff) hds
  | antiFirstFail => exact unfixed_cases ranks_lt.flip (fun _ _ => decide_eq_true_iff) hds

end Selection

theorem VariableOrder.Picks.mem (h : o.Picks b ds d) : d ∈ ds := by
  obtain ⟨-, before, behind, rfl, -, -⟩ := h
  exact List.mem_append_right _ List.mem_cons_self

/-- A strategy has no decision to offer, as all its shared domains are fixed, or it decides on
the one that its rule picks, unless it draws for ever. -/
theorem Strategy.next_cases (ha : b.Alive)
    (hf : s.values = .randomSplitter → ∀ i ∈ b.toList, i.Fits)
    (hds : ∀ d ∈ s.domains, d.index < b.size) (g : Generator) :
    (s.brancher.next () b g = .ok (none, (), g) ∧
      ∀ d ∈ s.domains, (b.entry d).isFixed = true) ∨
    ∃ d, s.order.Picks b s.domains d ∧
      ((∃ c g', s.brancher.next () b g = .ok (some c, (), g') ∧ c.domain = d ∧
          c.splits (b.entry d) = true) ∨
        (s.values = .randomSplitter ∧ s.brancher.next () b g = .error .endless ∧
          g.Rejects ((b.entry d).max - (b.entry d).min).toNat)) := by
  obtain ⟨hnone, hall⟩ | ⟨d, hsome, hpicks⟩ := s.order.select_cases hds
  · exact .inl ⟨bind_of_ok (a := (none, g)) (bind_of_ok hnone), hall⟩
  · have hd := hds d hpicks.mem
    have hget := Box.get?_eq_of_lt hd
    have hlt : (b.entry d).min < (b.entry d).max := by
      have hle := ha.bounds d
      have hne := hpicks.unfixed
      rw [Interval.isFixed, decide_eq_false_iff_not] at hne
      omega
    refine .inr ⟨d, hpicks, ?_⟩
    obtain ⟨c, g', hc, hdomain, hsplits⟩ | ⟨hrandom, hends, hreject⟩ :=
      s.values.choose_cases (get_of_lt hd) (fun h => hf h _ (Keyed.mem_of_get? hget)) hlt g
    · exact .inl ⟨c, g', bind_of_ok (a := (some c, g'))
        ((bind_of_ok hsome).trans (bind_of_ok hc)), hdomain, hsplits⟩
    · refine .inr ⟨hrandom, ?_, hreject⟩
      have hchoose : s.choose b g = .error .endless := by
        rw [choose, bind_of_ok hsome]
        dsimp only
        rw [hends]
        rfl
      show s.choose b g >>= _ = _
      rw [hchoose]
      rfl

/-- **The shipped branchers always split.**  In a box with values for all shared domains, up to
the whole range of values, a strategy over some of them has no decision exactly if those are
fixed.  Otherwise it decides on the one that its rule picks, and the decision divides the
interval of that.  Only a strategy that splits at random may stop without a decision: if no
word that the generator comes to is ever accepted. -/
theorem next_splits (ha : b.Alive) (hf : ∀ i ∈ b.toList, i.Fits)
    (hds : ∀ d ∈ s.domains, d.index < b.size) (g : Generator) :
    (∀ g', s.brancher.next () b g = .ok (none, (), g') ↔
      g' = g ∧ ∀ d ∈ s.domains, (b.entry d).isFixed = true) ∧
    ((∃ d ∈ s.domains, (b.entry d).isFixed = false) →
      ∃ d, s.order.Picks b s.domains d ∧
        ((∃ c other g', s.brancher.next () b g = .ok (some c, (), g') ∧ c.domain = d ∧
            c.Divides (b.entry d) other) ∨
          (s.values = .randomSplitter ∧ s.brancher.next () b g = .error .endless ∧
            g.Rejects ((b.entry d).max - (b.entry d).min).toNat))) := by
  obtain ⟨hnext, hall⟩ | ⟨d, hpicks, hnext⟩ := Strategy.next_cases ha (fun _ => hf) hds g
  · rw [hnext]
    refine ⟨fun g' => ⟨fun h => ?_, fun ⟨hg, _⟩ => hg ▸ rfl⟩, fun ⟨d, hd, hopen⟩ => ?_⟩
    · exact ⟨(Prod.mk.inj (Prod.mk.inj (Except.ok.inj h)).2).2.symm, hall⟩
    · rw [hall d hd] at hopen
      cases hopen
  · have hall : ¬ ∀ d ∈ s.domains, (b.entry d).isFixed = true := fun hall =>
      Bool.false_ne_true (hpicks.unfixed.symm.trans (hall d hpicks.mem))
    refine ⟨fun g' => ⟨fun h => ?_, fun h => absurd h.2 hall⟩, fun _ => ⟨d, hpicks, ?_⟩⟩
    · obtain ⟨c, g', hc, -⟩ | ⟨-, hends, -⟩ := hnext
      · rw [hc] at h
        cases h
      · rw [hends] at h
        cases h
    · refine hnext.imp_left fun ⟨c, g', hc, hdomain, hsplits⟩ => ?_
      have hget := Box.get?_eq_of_lt (hds d hpicks.mem)
      obtain ⟨other, hother⟩ := Decision.divides_of_splits (hf _ (Keyed.mem_of_get? hget)) hsplits
      exact ⟨c, other, g', hc, hdomain, hother⟩

/-- A shared domain with the whole range of values, behind one that is fixed, is split at
random. -/
theorem next_splits_full :
    ∃ c other g', (Strategy.mk .antiFirstFail [⟨1⟩, ⟨0⟩] .randomSplitter).brancher.next ()
        (.ofList [.full, ⟨3, 3⟩]) (.ofSeed 0) = .ok (some c, (), g') ∧
      c.domain = ⟨0⟩ ∧ c.Divides .full other := by
  obtain ⟨-, hnext⟩ := next_splits (b := .ofList [.full, ⟨3, 3⟩])
    (s := ⟨.antiFirstFail, [⟨1⟩, ⟨0⟩], .randomSplitter⟩)
    (Box.anyEmpty_eq_false_iff.1 (by decide +kernel)) (by decide) (by decide) (.ofSeed 0)
  obtain ⟨d, hpicks, hnext⟩ := hnext ⟨⟨0⟩, by decide, by decide⟩
  have hd : d = ⟨0⟩ := by
    obtain rfl | hd := List.mem_cons.1 hpicks.mem
    · cases hpicks.unfixed
    · exact List.mem_singleton.1 hd
  subst hd
  obtain ⟨c, other, g', hc, hdomain, hdivides⟩ | ⟨-, -, hreject⟩ := hnext
  · exact ⟨c, other, g', hc, hdomain, hdivides⟩
  · -- The first word of the generator is accepted.
    refine absurd ?_ (hreject 0)
    show _ ≤ _
    decide +kernel

end BoundsSolver
