/-
# The model of the queens is exact

The shared domains of the model are the columns of the queens, one for each row, so that an
assignment is a list of columns.  The diagonals are variables of the same shared domains
under offsets (`addDiagonals_adds`), and what is posted is that columns and diagonals
of either direction are different.

Two queens are on one diagonal if they are as many columns as rows apart.  The difference of
the columns is then that of the rows or its negation, which are the two directions.
-/

import Mathlib.Data.Fintype.Pi
import BoundsSolver.Model.Queens
import BoundsSolver.Proofs.Model.Posted
import BoundsSolver.Proofs.Search.Enumeration

namespace BoundsSolver

/-- The columns of queens, one for each row, of which no two share a column or a diagonal. -/
def Queens.Safe {n : Nat} (q : Fin n → Fin n) : Prop :=
  ∀ i j, i ≠ j → q i ≠ q j ∧ |(q i : Int) - q j| ≠ |(i : Int) - j|

instance {n : Nat} (q : Fin n → Fin n) : Decidable (Queens.Safe q) :=
  inferInstanceAs (Decidable (∀ _ _, _))

/-- The columns of the queens, row by row, which are an assignment. -/
def Queens.columnsOf {n : Nat} (q : Fin n → Fin n) : List Int := List.ofFn fun i => (q i : Int)

variable {p q : Problem} {m : Queens} {n : Nat} {as : List Int} {rows : List Nat}

/-! ### Enumeration through a list of assignments -/

/-- What `findAll` comes to are the values of the assignments that solve the problem. -/
theorem findAll_lists {σ : Type} {s t : Solver σ} {solutions : List (List Int)} (hp : Built p)
    (hs : Reached p s) (h : s.findAll = .ok (.ok solutions, t)) :
    ∃ ass : List (List Int), ass.Nodup ∧ (∀ as, as ∈ ass ↔ p.network.Solves as) ∧
      solutions = ass.map p.network.valuesOf := by
  obtain ⟨x, hx, h⟩ := bind_eq_ok.1 h
  obtain ⟨rfl, -⟩ := Prod.mk.inj (Except.ok.inj h)
  obtain ⟨ass, hass, hsolutions⟩ :=
    Solver.collect_lists hp.sound.network (hs.reset.sound hp) s.reset_orderly hx
  refine ⟨ass, hass.nodup, fun as => ?_, hsolutions⟩
  rw [hass.mem_iff, Solver.reset_pending_iff (hs.sound hp).network]

/-! ### Diagonals -/

/-- The problem with one more variable. -/
def Problem.withView (p : Problem) (v : View) : Problem :=
  { p with network := { p.network with views := (p.network.views.push v).2 } }

theorem addOffsetVariable_eq_ok_iff {d : DomainId} {offset : Int} {x : VariableId} :
    p.addOffsetVariable d offset = .ok (x, q) ↔
      (∃ i, p.network.initial.get? d = some i ∧ Width.value.Fits (i.min + offset) ∧
        Width.value.Fits (i.max + offset)) ∧
      x = ⟨p.numVariables⟩ ∧
      q = p.withView ⟨d, offset⟩ := by
  unfold Problem.addOffsetVariable
  split
  · rename_i hnone
    simp [hnone]
  · rename_i i hi
    split
    · rename_i hfit
      constructor
      · intro h
        obtain ⟨rfl, rfl⟩ := Prod.mk.inj (Except.ok.inj h)
        exact ⟨⟨i, hi, hfit⟩, rfl, rfl⟩
      · rintro ⟨-, rfl, rfl⟩
        rfl
    · rename_i hfit
      constructor
      · intro h
        cases h
      · rintro ⟨⟨j, hj, hfit'⟩, -⟩
        obtain rfl := Option.some.inj (hi.symm.trans hj)
        exact absurd hfit' hfit

namespace Queens

/-- The two diagonals through the queen of a row. -/
def diagonals (row : Nat) : List View := [⟨⟨row⟩, row⟩, ⟨⟨row⟩, -row⟩]

/-- The initial columns of a row are values on its diagonals. -/
def Fits (b : Box) (row : Nat) : Prop :=
  ∃ i, b.get? ⟨row⟩ = some i ∧
    (Width.value.Fits (i.min + row) ∧ Width.value.Fits (i.max + row)) ∧
    Width.value.Fits (i.min + -row) ∧ Width.value.Fits (i.max + -row)

/-- The second problem is the first with the diagonals of some rows. -/
structure Adds (p q : Problem) (rows : List Nat) : Prop where
  fits : ∀ row ∈ rows, Fits p.network.initial row
  initial : q.network.initial = p.network.initial
  views : q.network.views.toList = p.network.views.toList ++ rows.flatMap diagonals
  propagators : q.network.propagators = p.network.propagators
  built : Built p → Built q

theorem addDiagonals_adds (h : addDiagonals p rows = .ok q) : Adds p q rows := by
  induction rows generalizing p with
  | nil =>
    obtain rfl := Except.ok.inj h
    exact ⟨fun _ h => absurd h List.not_mem_nil, rfl, (List.append_nil _).symm, rfl, id⟩
  | cons row rows ih =>
    obtain ⟨⟨x, r⟩, hr, h⟩ := bind_eq_ok.1 h
    obtain ⟨⟨y, u⟩, hu, h⟩ := bind_eq_ok.1 h
    have hadds := ih h
    have hbuilt (hp : Built p) : Built u := (hp.addOffsetVariable hr).addOffsetVariable hu
    obtain ⟨⟨i, hi, hrising⟩, -, rfl⟩ := addOffsetVariable_eq_ok_iff.1 hr
    obtain ⟨⟨j, hj, hfalling⟩, -, rfl⟩ := addOffsetVariable_eq_ok_iff.1 hu
    obtain rfl := Option.some.inj (hi.symm.trans hj)
    refine ⟨List.forall_mem_cons.2 ⟨⟨i, hi, hrising, hfalling⟩, hadds.fits⟩, hadds.initial, ?_,
      hadds.propagators, fun hp => hadds.built (hbuilt hp)⟩
    rw [hadds.views, List.flatMap_cons, ← List.append_assoc]
    refine congrArg (· ++ rows.flatMap diagonals) ?_
    show ((p.network.views.push _).2.push _).2.toList = _
    rw [Keyed.toList_push, Keyed.toList_push, List.append_assoc]
    rfl

theorem addDiagonals_of_fits (h : ∀ row ∈ rows, Fits p.network.initial row) :
    ∃ q, addDiagonals p rows = .ok q := by
  induction rows generalizing p with
  | nil => exact ⟨p, rfl⟩
  | cons row rows ih =>
    obtain ⟨⟨i, hi, hrising, hfalling⟩, hrows⟩ := List.forall_mem_cons.1 h
    let r := p.withView ⟨⟨row⟩, row⟩
    have hr : p.addOffsetVariable ⟨row⟩ row = .ok (⟨p.numVariables⟩, r) :=
      addOffsetVariable_eq_ok_iff.2 ⟨⟨i, hi, hrising⟩, rfl, rfl⟩
    have hu : r.addOffsetVariable ⟨row⟩ (-row) = .ok (⟨r.numVariables⟩, r.withView _) :=
      addOffsetVariable_eq_ok_iff.2 ⟨⟨i, hi, hfalling⟩, rfl, rfl⟩
    obtain ⟨q, hq⟩ := ih (p := r.withView ⟨⟨row⟩, -row⟩) hrows
    exact ⟨q, bind_eq_ok.2 ⟨_, hr, bind_eq_ok.2 ⟨_, hu, hq⟩⟩⟩

/-! ### The values of the variables -/

/-- The entries of pairs that follow one another. -/
theorem getElem?_flatMap_pair {α β : Type} (f g : α → β) (xs : List α) (k : Nat) :
    (xs.flatMap fun x => [f x, g x])[2 * k]? = xs[k]?.map f ∧
      (xs.flatMap fun x => [f x, g x])[2 * k + 1]? = xs[k]?.map g := by
  induction xs generalizing k with
  | nil => exact ⟨rfl, rfl⟩
  | cons x xs ih =>
    cases k with
    | zero => exact ⟨rfl, rfl⟩
    | succ k => exact ih k

/-- The problem of the columns alone. -/
def bare (n : Nat) : Problem := .ofIntervals (List.replicate n ⟨0, (n : Int) - 1⟩)

theorem ofSize_eq_ok_iff : ofSize n = .ok m ↔
    ∃ p q, Width.value.Fits n ∧ addDiagonals (bare n) (List.range n) = .ok p ∧
      p.post (postings n) = .ok q ∧ m = ⟨n, q⟩ := by
  constructor
  · intro h
    obtain ⟨size, hsize, h⟩ := bind_eq_ok.1 h
    obtain ⟨hn, rfl⟩ := parameter_eq_ok_iff.1 hsize
    obtain ⟨p, hp, h⟩ := bind_eq_ok.1 h
    obtain ⟨q, hq, h⟩ := bind_eq_ok.1 h
    obtain rfl := Except.ok.inj h
    exact ⟨p, q, hn, mapError_eq_ok_iff.1 hp, mapError_eq_ok_iff.1 hq, rfl⟩
  · rintro ⟨p, q, hn, hp, hq, rfl⟩
    exact bind_eq_ok.2 ⟨n, parameter_eq_ok_iff.2 ⟨hn, rfl⟩,
      bind_eq_ok.2 ⟨p, mapError_eq_ok_iff.2 hp, bind_eq_ok.2 ⟨q, mapError_eq_ok_iff.2 hq, rfl⟩⟩⟩

theorem get?_bare {row : Nat} (h : row < n) :
    (bare n).network.initial.get? ⟨row⟩ = some ⟨0, (n : Int) - 1⟩ := by
  rw [Keyed.get?_eq_getElem?, bare, Problem.toList_initial_ofIntervals]
  exact List.getElem?_replicate_of_lt h

/-- The diagonals that are farthest out are those of the last row. -/
theorem fits_bare_iff (hn : Width.value.Fits n) :
    (∀ row ∈ List.range n, Fits (bare n).network.initial row) ↔
      (n : Int) - 1 + (n - 1) ≤ Width.value.hi := by
  simp only [Width.Fits, Width.value] at hn ⊢
  constructor
  · intro h
    rcases Nat.eq_zero_or_pos n with rfl | hpos
    · decide
    · obtain ⟨i, hi, ⟨-, -, hhi⟩, -⟩ := h (n - 1) (List.mem_range.2 (by omega))
      obtain rfl := Option.some.inj ((get?_bare (by omega)).symm.trans hi)
      simp only [Width.value] at hhi
      omega
  · intro h row hrow
    rw [List.mem_range] at hrow
    refine ⟨_, get?_bare hrow, ?_⟩
    simp only [Width.Fits, Width.value]
    omega

/-! ### The values of the variables -/

section Values

variable {values : List Int}

theorem valuesOf_adds (h : Adds (bare n) p (List.range n)) (hlen : as.length = n) :
    p.network.valuesOf as = as ++ (List.range n).flatMap fun row =>
      [as.getD row 0 + row, as.getD row 0 - row] := by
  rw [Network.valuesOf, h.views, bare, Problem.toList_views_ofIntervals, List.map_append,
    List.map_map, List.map_flatMap, List.length_replicate]
  congr 1
  subst hlen
  exact map_value_plain as

theorem getElem?_valuesOf (h : Adds (bare n) p (List.range n)) (hlen : as.length = n) {row : Nat}
    (hrow : row < n) :
    (p.network.valuesOf as)[(queen row).index]? = some (as.getD row 0) ∧
      (p.network.valuesOf as)[(rising n row).index]? = some (as.getD row 0 + row) ∧
      (p.network.valuesOf as)[(falling n row).index]? = some (as.getD row 0 - row) := by
  rw [valuesOf_adds h hlen]
  obtain ⟨hrising, hfalling⟩ := getElem?_flatMap_pair (fun row : Nat => as.getD row 0 + (row : Int))
    (fun row : Nat => as.getD row 0 - (row : Int)) (List.range n) row
  rw [List.getElem?_range hrow] at hrising hfalling
  subst hlen
  refine ⟨?_, ?_, ?_⟩
  · show (as ++ _)[row]? = _
    rw [List.getElem?_append_left hrow, List.getElem?_eq_getElem hrow]
    simp [hrow]
  · show (as ++ _)[as.length + 2 * row]? = _
    rw [List.getElem?_append_right (Nat.le_add_right _ _), Nat.add_sub_cancel_left, hrising]
    rfl
  · show (as ++ _)[as.length + 2 * row + 1]? = _
    rw [Nat.add_assoc, List.getElem?_append_right (Nat.le_add_right _ _), Nat.add_sub_cancel_left, hfalling]
    rfl

end Values

/-! ### What is posted -/

theorem nodup_map_range_iff {f : Nat → Int} :
    ((List.range n).map f).Nodup ↔ ∀ i < n, ∀ j < n, i ≠ j → f i ≠ f j := by
  rw [List.nodup_map_iff_inj_on List.nodup_range]
  simp only [List.mem_range]
  exact forall₄_congr fun i _ j _ => not_imp_not.symm

/-- The variables of a row: the column of its queen and the diagonals through it. -/
def lines (n : Nat) : List (Nat → VariableId) := [queen, rising n, falling n]

theorem postings_of_pos (hn : 0 < n) : postings n =
    (lines n).map fun f => ⟨.allDifferent, (List.range n).map f, []⟩ :=
  if_neg (Nat.ne_of_gt hn)

theorem index_lines_lt {f : Nat → VariableId} (hf : f ∈ lines n) {row : Nat} (h : row < n) :
    (f row).index < n + 2 * n := by
  simp only [lines, List.mem_cons, List.not_mem_nil, or_false] at hf
  rcases hf with rfl | rfl | rfl
  · exact Nat.lt_add_right _ h
  · show n + 2 * row < _
    omega
  · show n + 2 * row + 1 < _
    omega

theorem accepts_postings (h : p.numVariables = n + 2 * n) : ∀ t ∈ postings n, p.Accepts t := by
  intro t ht
  rcases Nat.eq_zero_or_pos n with rfl | hn
  · cases ht
  · rw [postings_of_pos hn] at ht
    obtain ⟨f, hf, rfl⟩ := List.mem_map.1 ht
    refine Problem.accepts_allDifferent (List.ne_nil_of_mem
      (List.mem_map_of_mem (List.mem_range.2 hn))) fun x hx => ?_
    obtain ⟨row, hrow, rfl⟩ := List.mem_map.1 hx
    rw [h]
    exact index_lines_lt hf (List.mem_range.1 hrow)

/-- What is posted says of any two rows that they are on different lines. -/
theorem holds_postings_iff {values : List Int} : (∀ t ∈ postings n, t.Holds values) ↔
    ∀ f ∈ lines n, ∀ i < n, ∀ j < n, i ≠ j →
      values.getD (f i).index 0 ≠ values.getD (f j).index 0 := by
  rcases Nat.eq_zero_or_pos n with rfl | hn
  · exact ⟨fun _ _ _ _ hi => absurd hi (Nat.not_lt_zero _), fun _ _ ht => by cases ht⟩
  · rw [postings_of_pos hn, List.forall_mem_map]
    refine forall₂_congr fun f _ => ?_
    rw [← nodup_map_range_iff]
    show (((List.range n).map f).map _).Nodup ↔ _
    rw [List.map_map]
    rfl

/-- Two queens are on one diagonal if they are as many columns as rows apart. -/
theorem abs_sub_eq_iff {a b i j : Int} :
    |a - b| = |i - j| ↔ a - i = b - j ∨ a + i = b + j := by
  rw [abs_eq_abs]
  omega

theorem length_columnsOf (q : Fin n → Fin n) : (columnsOf q).length = n := List.length_ofFn

theorem getD_columnsOf (q : Fin n → Fin n) (i : Fin n) : (columnsOf q).getD i 0 = q i := by
  rw [columnsOf, List.getD_eq_getElem?_getD, List.getElem?_ofFn, dif_pos i.isLt]
  rfl

theorem columnsOf_injective : Function.Injective (columnsOf (n := n)) := by
  intro q r h
  funext i
  have hi := congrArg (·.getD i 0) h
  simp only [getD_columnsOf] at hi
  exact Fin.ext (Int.ofNat.inj hi)

/-- Columns of the board are the assignments within it. -/
theorem exists_columnsOf_iff : (∃ q : Fin n → Fin n, as = columnsOf q) ↔
    as.length = n ∧ ∀ v ∈ as, 0 ≤ v ∧ v ≤ (n : Int) - 1 := by
  constructor
  · rintro ⟨q, rfl⟩
    refine ⟨length_columnsOf q, fun v hv => ?_⟩
    obtain ⟨i, rfl⟩ := (List.mem_ofFn' _ _).1 hv
    have hlt := (q i).isLt
    dsimp only
    omega
  · rintro ⟨rfl, hall⟩
    have hbounds (i : Fin as.length) : 0 ≤ as.get i ∧ as.get i ≤ (as.length : Int) - 1 :=
      hall _ (List.get_mem as i)
    refine ⟨fun i => ⟨(as.get i).toNat, ?_⟩, ?_⟩
    · have := hbounds i
      omega
    · refine (List.ofFn_get as).symm.trans (congrArg List.ofFn (funext fun i => ?_))
      exact (Int.toNat_of_nonneg (hbounds i).1).symm

/-- The values of the variables of a row. -/
theorem getD_valuesOf (h : Adds (bare n) p (List.range n)) (q : Fin n → Fin n) (i : Fin n) :
    (p.network.valuesOf (columnsOf q)).getD (queen i).index 0 = q i ∧
      (p.network.valuesOf (columnsOf q)).getD (rising n i).index 0 = q i + i ∧
      (p.network.valuesOf (columnsOf q)).getD (falling n i).index 0 = q i - i := by
  obtain ⟨hqueen, hrising, hfalling⟩ := getElem?_valuesOf h (length_columnsOf q) i.isLt
  rw [getD_columnsOf] at hqueen hrising hfalling
  simp only [List.getD_eq_getElem?_getD, hqueen, hrising, hfalling, Option.getD_some, and_self]

/-- What is posted says that the queens do not attack each other. -/
theorem holds_iff_safe (h : Adds (bare n) p (List.range n)) (q : Fin n → Fin n) :
    (∀ t ∈ postings n, t.Holds (p.network.valuesOf (columnsOf q))) ↔ Safe q := by
  have hvalues := getD_valuesOf h q
  rw [holds_postings_iff]
  simp only [lines, List.forall_mem_cons]
  constructor
  · rintro ⟨hqueen, hrising, hfalling, -⟩ i j hij
    have hval : (i : Nat) ≠ j := Fin.val_ne_of_ne hij
    have hqueen := hqueen i i.isLt j j.isLt hval
    have hrising := hrising i i.isLt j j.isLt hval
    have hfalling := hfalling i i.isLt j j.isLt hval
    rw [(hvalues i).1, (hvalues j).1] at hqueen
    rw [(hvalues i).2.1, (hvalues j).2.1] at hrising
    rw [(hvalues i).2.2, (hvalues j).2.2] at hfalling
    refine ⟨fun heq => hqueen (by rw [heq]), fun heq => ?_⟩
    exact (abs_sub_eq_iff.1 heq).elim hfalling hrising
  · intro hsafe
    have hsafe (i j : Fin n) (hij : (i : Nat) ≠ j) := hsafe i j fun heq => hij (by rw [heq])
    refine ⟨fun i hi j hj hij heq => ?_, fun i hi j hj hij heq => ?_,
      fun i hi j hj hij heq => ?_, fun _ h => absurd h List.not_mem_nil⟩
    · rw [(hvalues ⟨i, hi⟩).1, (hvalues ⟨j, hj⟩).1] at heq
      exact (hsafe ⟨i, hi⟩ ⟨j, hj⟩ hij).1 (Fin.ext (Int.ofNat.inj heq))
    · rw [(hvalues ⟨i, hi⟩).2.1, (hvalues ⟨j, hj⟩).2.1] at heq
      exact (hsafe ⟨i, hi⟩ ⟨j, hj⟩ hij).2 (abs_sub_eq_iff.2 (.inr heq))
    · rw [(hvalues ⟨i, hi⟩).2.2, (hvalues ⟨j, hj⟩).2.2] at heq
      exact (hsafe ⟨i, hi⟩ ⟨j, hj⟩ hij).2 (abs_sub_eq_iff.2 (.inl heq))

/-- **The solutions are the placements.** -/
theorem solves_iff (h : ofSize n = .ok m) : m.problem.network.Solves as ↔
    ∃ q : Fin n → Fin n, Safe q ∧ as = columnsOf q := by
  obtain ⟨p, r, -, hp, hr, rfl⟩ := ofSize_eq_ok_iff.1 h
  have hadds := addDiagonals_adds hp
  have hplain : p.network.Solves as ↔ ∃ q : Fin n → Fin n, as = columnsOf q := by
    rw [exists_columnsOf_iff, ← mem_replicate_iff (i := ⟨0, (n : Int) - 1⟩), ← solves_ofIntervals_iff]
    exact Network.solves_congr hadds.initial hadds.propagators
  rw [solves_post_iff hr, hplain]
  constructor
  · rintro ⟨⟨q, rfl⟩, hposted⟩
    exact ⟨q, (holds_iff_safe hadds q).1 hposted, rfl⟩
  · rintro ⟨q, hq, rfl⟩
    exact ⟨⟨q, rfl⟩, (holds_iff_safe hadds q).2 hq⟩

theorem numVariables_adds (h : Adds (bare n) p (List.range n)) : p.numVariables = n + 2 * n := by
  have hlen := congrArg List.length h.views
  rw [bare, Problem.toList_views_ofIntervals, List.length_append, List.length_map,
    List.length_range, List.length_replicate, List.length_flatMap] at hlen
  refine hlen.trans (congrArg (n + ·) ?_)
  show ((List.range n).map fun _ => 2).sum = _
  rw [List.map_const', List.sum_replicate, List.length_range]
  exact Nat.mul_comm n 2

/-- The model exists as long as the farthest diagonal is a value. -/
theorem exists_ofSize_iff : (∃ m, ofSize n = .ok m) ↔ (n : Int) - 1 + (n - 1) ≤ Width.value.hi := by
  constructor
  · rintro ⟨m, h⟩
    obtain ⟨p, q, hn, hp, -⟩ := ofSize_eq_ok_iff.1 h
    exact (fits_bare_iff hn).1 (addDiagonals_adds hp).fits
  · intro h
    have hn : Width.value.Fits n := by
      simp only [Width.Fits, Width.value] at h ⊢
      omega
    obtain ⟨p, hp⟩ := addDiagonals_of_fits ((fits_bare_iff hn).2 h)
    obtain ⟨q, hq⟩ := post_of_accepted
      (accepts_postings (numVariables_adds (addDiagonals_adds hp)))
    exact ⟨_, ofSize_eq_ok_iff.2 ⟨p, q, hn, hp, hq, rfl⟩⟩

theorem built_ofSize (h : ofSize n = .ok m) : Built m.problem := by
  obtain ⟨p, q, hn, hp, hq, rfl⟩ := ofSize_eq_ok_iff.1 h
  refine ((addDiagonals_adds hp).built (.ofIntervals fun i hi => ?_)).post hq
  obtain ⟨hpos, rfl⟩ := List.mem_replicate.1 hi
  simp only [Interval.Fits, Width.Fits, Width.value] at hn ⊢
  omega

/-- The variables have the values of a placement: each queen its column, and the diagonals
through it column plus row and column minus row. -/
structure Reads (m : Queens) (q : Fin n → Fin n) (values : List Int) : Prop where
  columns : m.columns values = .ok (columnsOf q)
  queen (i : Fin n) : (queen i).valueIn values = .ok (q i : Int)
  rising (i : Fin n) : (rising n i).valueIn values = .ok (q i + i)
  falling (i : Fin n) : (falling n i).valueIn values = .ok (q i - i)

theorem reads_columnsOf (h : ofSize n = .ok m) (q : Fin n → Fin n) :
    m.Reads q (m.problem.network.valuesOf (columnsOf q)) := by
  obtain ⟨p, r, -, hp, hr, rfl⟩ := ofSize_eq_ok_iff.1 h
  have hadds := addDiagonals_adds hp
  have hread {f : Nat → VariableId} (hf : f ∈ lines n) (i : Fin n) :
      (f i).index < (p.network.valuesOf (columnsOf q)).length := by
    rw [length_valuesOf]
    exact (index_lines_lt hf i.isLt).trans_eq (numVariables_adds hadds).symm
  have hget := getD_valuesOf hadds q
  show (⟨n, r⟩ : Queens).Reads q (r.network.valuesOf _)
  rw [valuesOf_post hr]
  refine ⟨?_, fun i => ?_, fun i => ?_, fun i => ?_⟩
  · have hqueen : ∀ x ∈ queens ⟨n, r⟩, x.index < (p.network.valuesOf (columnsOf q)).length := by
      intro x hx
      obtain ⟨row, hrow, rfl⟩ := List.mem_map.1 hx
      exact hread (f := queen) (by simp [lines]) ⟨row, List.mem_range.1 hrow⟩
    rw [columns, mapM_valueIn hqueen, queens, List.map_map]
    exact congrArg Except.ok (map_range_eq_ofFn fun i => (hget i).1)
  · rw [valueIn_of_lt (hread (by simp [lines]) i), (hget i).1]
  · rw [valueIn_of_lt (hread (by simp [lines]) i), (hget i).2.1]
  · rw [valueIn_of_lt (hread (by simp [lines]) i), (hget i).2.2]

/-- The search for one queen comes to its placement at the root. -/
theorem findAll_one : ∃ m, ofSize 1 = .ok m ∧
    ∃ t, (Solver.ofProblem m.problem .default .off).findAll = .ok (.ok [[0, 0, 0]], t) := by
  decide +kernel

end Queens

open Queens in
/-- **The model of the queens is exact.**  It is refused if and only if the number of the
farthest diagonal is no value.  Otherwise its solutions correspond one to one, through their
columns, to the placements of a queen in each row of which no two share a column or a diagonal.
The other variables are two for each row, and have the values of column plus row and of column
minus row.  A list that `findAll` comes to has as many members as there are placements. -/
theorem queens_exact (n : Nat) :
    ((∃ e, ofSize n = .error e) ↔ Width.value.hi < (n : Int) - 1 + (n - 1)) ∧
    ∀ m, ofSize n = .ok m →
      Built m.problem ∧ m.problem.numVariables = n + 2 * n ∧
      (∀ as, m.problem.network.Solves as → ∃! q : Fin n → Fin n,
        Safe q ∧ m.columns (m.problem.network.valuesOf as) = .ok (columnsOf q)) ∧
      (∀ q : Fin n → Fin n, Safe q → ∃! as, m.problem.network.Solves as ∧
        m.columns (m.problem.network.valuesOf as) = .ok (columnsOf q)) ∧
      (∀ as, m.problem.network.Solves as → ∀ row < n, ∃ column : Int,
        (queen row).valueIn (m.problem.network.valuesOf as) = .ok column ∧
        (rising n row).valueIn (m.problem.network.valuesOf as) = .ok (column + row) ∧
        (falling n row).valueIn (m.problem.network.valuesOf as) = .ok (column - row)) ∧
      ∀ {σ : Type} {s t : Solver σ} {solutions : List (List Int)}, Reached m.problem s →
        s.findAll = .ok (.ok solutions, t) →
          solutions.length = Fintype.card { q : Fin n → Fin n // Safe q } := by
  constructor
  · rw [← not_le, ← exists_ofSize_iff]
    cases ofSize n <;> simp
  · intro m hm
    have hreads (q : Fin n → Fin n) := reads_columnsOf hm q
    have hvariables : m.problem.numVariables = n + 2 * n := by
      obtain ⟨p, r, -, hp, hr, rfl⟩ := ofSize_eq_ok_iff.1 hm
      show r.network.views.size = _
      rw [(post_agrees hr).views]
      exact numVariables_adds (addDiagonals_adds hp)
    refine ⟨built_ofSize hm, hvariables, fun as has => ?_, fun q hq => ?_, fun as has row hrow => ?_,
      fun hs hfind => ?_⟩
    · obtain ⟨q, hq, rfl⟩ := (solves_iff hm).1 has
      refine ⟨q, ⟨hq, (hreads q).columns⟩, fun r hr => ?_⟩
      exact columnsOf_injective (Except.ok.inj (hr.2.symm.trans (hreads q).columns))
    · refine ⟨columnsOf q, ⟨(solves_iff hm).2 ⟨q, hq, rfl⟩, (hreads q).columns⟩, ?_⟩
      rintro as ⟨has, hcolumns⟩
      obtain ⟨r, -, rfl⟩ := (solves_iff hm).1 has
      exact Except.ok.inj ((hreads r).columns.symm.trans hcolumns)
    · obtain ⟨q, -, rfl⟩ := (solves_iff hm).1 has
      exact ⟨q ⟨row, hrow⟩, (hreads q).queen ⟨row, hrow⟩, (hreads q).rising ⟨row, hrow⟩,
        (hreads q).falling ⟨row, hrow⟩⟩
    · obtain ⟨ass, hnodup, hmem, rfl⟩ := findAll_lists (built_ofSize hm) hs hfind
      have hperm : ass.Perm ((Finset.univ.filter (Safe (n := n))).toList.map columnsOf) := by
        refine (List.perm_ext_iff_of_nodup hnodup
          ((Finset.nodup_toList _).map columnsOf_injective)).2 fun as => ?_
        rw [hmem, solves_iff hm, List.mem_map]
        simp only [Finset.mem_toList, Finset.mem_filter_univ, eq_comm]
      rw [List.length_map, hperm.length_eq, List.length_map, Finset.length_toList,
        Fintype.card_subtype]

open Queens in
/-- One queen has one placement, which `findAll` lists.  Four queens have two, which are all that
it may list; one of them is the only solution with its columns.  The smallest board without a
model has `2 ^ 30 + 1` rows. -/
theorem queens_exact_four :
    (∃ m t, ofSize 1 = .ok m ∧
      (Solver.ofProblem m.problem .default .off).findAll = .ok (.ok [[0, 0, 0]], t) ∧
      Fintype.card { q : Fin 1 → Fin 1 // Safe q } = 1) ∧
    (∃ m, ofSize 4 = .ok m ∧
      (∃! as, m.problem.network.Solves as ∧
        m.columns (m.problem.network.valuesOf as) = .ok [1, 3, 0, 2]) ∧
      ∀ (s t : Solver Unit) (solutions : List (List Int)), Reached m.problem s →
        s.findAll = .ok (.ok solutions, t) → solutions.length = 2) ∧
    (∃ e, ofSize (2 ^ 30 + 1) = .error e) ∧ ∃ m, ofSize (2 ^ 30) = .ok m := by
  obtain ⟨single, hsingle, t, hall⟩ := findAll_one
  obtain ⟨m, hm⟩ := exists_ofSize_iff.2 (by decide : ((4 : Nat) : Int) - 1 + (4 - 1) ≤ Width.value.hi)
  refine ⟨⟨single, t, hsingle, hall, ?_⟩, ⟨m, hm, ?_, fun s t solutions hs hfind => ?_⟩, ?_, ?_⟩
  · obtain ⟨-, hexact⟩ := queens_exact 1
    obtain ⟨-, -, -, -, -, hcount⟩ := hexact single hsingle
    exact (hcount (.fresh single.problem .default .off) hall).symm
  · obtain ⟨-, hexact⟩ := queens_exact 4
    obtain ⟨-, -, -, hone, -⟩ := hexact m hm
    exact hone ![1, 3, 0, 2] (by decide)
  · obtain ⟨-, hexact⟩ := queens_exact 4
    obtain ⟨-, -, -, -, -, hcount⟩ := hexact m hm
    rw [hcount hs hfind]
    decide +kernel
  · exact (queens_exact (2 ^ 30 + 1)).1.2 (by decide)
  · exact exists_ofSize_iff.2 (by decide)

end BoundsSolver
