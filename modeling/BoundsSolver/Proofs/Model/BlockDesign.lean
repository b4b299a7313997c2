/-
# The model of block designs is exact

A solution lists the matrix row by row, and behind it, for each pair of rows, the conjunction
of the two (`Encodes`).  The conjunctions are determined by the matrix, so that a matrix has
one such list, and what is posted over it says that the matrix is a design with ordered rows
and columns.

That the order excludes no design altogether is `exists_ordered`: permuting the rows and
columns of a design makes another one.
-/

import Mathlib.Algebra.BigOperators.Fin
import BoundsSolver.Model.BlockDesign
import BoundsSolver.Proofs.Constraint.Lexicographic
import BoundsSolver.Proofs.Model.Ordered
import BoundsSolver.Proofs.Model.Posted

namespace BoundsSolver

namespace DesignParameters

/-- The matrix is a design with the parameters. -/
structure IsDesign (d : DesignParameters) (M : Fin d.objects → Fin d.blocks → Bool) : Prop where
  rows : ∀ i, (Finset.univ.filter fun j => M i j).card = d.replication
  columns : ∀ j, (Finset.univ.filter fun i => M i j).card = d.blockSize
  pairs : ∀ i i', i ≠ i' → (Finset.univ.filter fun j => M i j ∧ M i' j).card = d.concurrence

/-- The assignment lists the entries of the matrix and the conjunctions of its rows. -/
structure Encodes (d : DesignParameters) (M : Fin d.objects → Fin d.blocks → Bool)
    (as : List Int) : Prop where
  length : as.length = d.size
  entry : ∀ (i : Fin d.objects) (j : Fin d.blocks), as.getD (d.entry i j).index 0 = (M i j).toInt
  together : ∀ {p : Nat} {i i' : Fin d.objects}, (pairs d.objects)[p]? = some (i.val, i'.val) →
    ∀ j : Fin d.blocks, as.getD (d.together p j).index 0 = (M i j && M i' j).toInt

end DesignParameters

/-- A matrix of zeros and ones, row by row. -/
def rowsOf {v b : Nat} (M : Fin v → Fin b → Bool) : List (List Int) :=
  List.ofFn fun i => List.ofFn fun j => (M i j).toInt

variable {d : DesignParameters} {m : BlockDesign} {as bs : List Int} {n p : Nat}
  {M : Fin d.objects → Fin d.blocks → Bool}

theorem rowsOf_injective {v b : Nat} : Function.Injective (rowsOf (v := v) (b := b)) := by
  intro M N h
  funext i j
  have hrow := congrFun (List.ofFn_injective h) i
  have hentry : (M i j).toInt = (N i j).toInt := congrFun (List.ofFn_injective hrow) j
  generalize M i j = x at hentry ⊢
  generalize N i j = y at hentry ⊢
  revert hentry
  cases x <;> cases y <;> decide

/-! ### Permuted designs -/

/-- **Permuting the rows and columns of a design makes a design.** -/
theorem DesignParameters.IsDesign.permute (h : d.IsDesign M) (σ : Equiv.Perm (Fin d.objects))
    (τ : Equiv.Perm (Fin d.blocks)) : d.IsDesign fun i j => M (σ i) (τ j) := by
  have hcard {k : Nat} (π : Equiv.Perm (Fin k)) (P : Fin k → Prop) [DecidablePred P] :
      (Finset.univ.filter fun i => P (π i)).card = (Finset.univ.filter P).card :=
    Finset.card_equiv π (by simp)
  refine ⟨fun i => ?_, fun j => ?_, fun i i' hne => ?_⟩
  · exact (hcard τ fun j => M (σ i) j = true).trans (h.rows (σ i))
  · exact (hcard σ fun i => M i (τ j) = true).trans (h.columns (τ j))
  · exact (hcard τ fun j => M (σ i) j = true ∧ M (σ i') j = true).trans
      (h.pairs _ _ fun heq => hne (σ.injective heq))

/-! ### Positions -/

namespace DesignParameters

theorem exists_pair (h : p < (pairs d.objects).length) :
    ∃ i i' : Fin d.objects, i < i' ∧ (pairs d.objects)[p]? = some (↑i, ↑i') := by
  obtain ⟨⟨i, i'⟩, hget⟩ : ∃ x, (pairs d.objects)[p]? = some x :=
    ⟨_, List.getElem?_eq_getElem h⟩
  obtain ⟨hlt, hlt'⟩ := mem_pairs.1 (List.mem_of_getElem? hget)
  exact ⟨⟨i, hlt.trans hlt'⟩, ⟨i', hlt'⟩, hlt, hget⟩

/-- Every position is that of an entry or of a conjunction. -/
theorem index_cases {k : Nat} (h : k < d.size) :
    (∃ (i : Fin d.objects) (j : Fin d.blocks), k = (d.entry i j).index) ∨
      ∃ (p : Nat) (i i' : Fin d.objects) (j : Fin d.blocks),
        (pairs d.objects)[p]? = some (↑i, ↑i') ∧ k = (d.together p j).index := by
  unfold size at h
  have hpos : 0 < d.blocks := by
    rcases Nat.eq_zero_or_pos d.blocks with h0 | hpos
    · rw [h0] at h
      simp at h
    · exact hpos
  rcases Nat.lt_or_ge k (d.objects * d.blocks) with hk | hk
  · refine .inl ⟨⟨k / d.blocks, (Nat.div_lt_iff_lt_mul hpos).2 hk⟩, ⟨k % d.blocks, Nat.mod_lt _ hpos⟩, ?_⟩
    exact (Nat.div_add_mod' k d.blocks).symm
  · obtain ⟨l, rfl⟩ := Nat.exists_eq_add_of_le hk
    have hl : l < (pairs d.objects).length * d.blocks := by omega
    obtain ⟨i, i', -, hget⟩ := exists_pair ((Nat.div_lt_iff_lt_mul hpos).2 hl)
    refine .inr ⟨l / d.blocks, i, i', ⟨l % d.blocks, Nat.mod_lt _ hpos⟩, hget, ?_⟩
    show _ = d.objects * d.blocks + l / d.blocks * d.blocks + l % d.blocks
    rw [Nat.add_assoc, Nat.div_add_mod']

theorem Encodes.unique (h : d.Encodes M as) (h' : d.Encodes M bs) : as = bs := by
  refine List.ext_getElem (h.length.trans h'.length.symm) fun k hk hk' => ?_
  have hsame : as.getD k 0 = bs.getD k 0 := by
    rcases index_cases (h.length ▸ hk) with ⟨i, j, rfl⟩ | ⟨p, i, i', j, hget, rfl⟩
    · rw [h.entry, h'.entry]
    · rw [h.together hget, h'.together hget]
  simpa [hk, hk'] using hsame

/-- The values of an encoding are truth values. -/
theorem Encodes.mem (h : d.Encodes M as) : Mem as (List.replicate d.size ⟨0, 1⟩) := by
  have hbit (b : Bool) : 0 ≤ b.toInt ∧ b.toInt ≤ 1 := by cases b <;> decide
  refine mem_replicate_iff.2 ⟨h.length, fun v hv => ?_⟩
  obtain ⟨k, hk, rfl⟩ := List.getElem_of_mem hv
  have hget : as[k] = as.getD k 0 := by simp [hk]
  rw [hget]
  rcases index_cases (h.length ▸ hk) with ⟨i, j, rfl⟩ | ⟨p, i, i', j, hpair, rfl⟩
  · rw [h.entry]
    exact hbit _
  · rw [h.together hpair]
    exact hbit _

/-- The entry of a matrix at a row and a column. -/
def entryAt (d : DesignParameters) (M : Fin d.objects → Fin d.blocks → Bool) (i j : Nat) : Bool :=
  if h : i < d.objects ∧ j < d.blocks then M ⟨i, h.1⟩ ⟨j, h.2⟩ else false

/-- The lines of an encoding: the rows of the matrix, and behind them the conjunctions. -/
def lineAt (d : DesignParameters) (M : Fin d.objects → Fin d.blocks → Bool) (line j : Nat) : Bool :=
  if line < d.objects then d.entryAt M line j
  else
    match (pairs d.objects)[line - d.objects]? with
    | some (i, i') => d.entryAt M i j && d.entryAt M i' j
    | none => false

/-- The encoding of a matrix. -/
def encoding (d : DesignParameters) (M : Fin d.objects → Fin d.blocks → Bool) : List Int :=
  (List.range d.size).map fun k => (d.lineAt M (k / d.blocks) (k % d.blocks)).toInt

theorem entryAt_fin (i : Fin d.objects) (j : Fin d.blocks) : d.entryAt M i j = M i j :=
  dif_pos ⟨i.isLt, j.isLt⟩

theorem index_lt_size {line : Nat} (h : line < d.objects + (pairs d.objects).length)
    (j : Fin d.blocks) : line * d.blocks + j < d.size := by
  calc line * d.blocks + j < line * d.blocks + d.blocks := Nat.add_lt_add_left j.isLt _
    _ = (line + 1) * d.blocks := (Nat.succ_mul _ _).symm
    _ ≤ (d.objects + (pairs d.objects).length) * d.blocks := Nat.mul_le_mul_right _ h
    _ = d.size := Nat.add_mul _ _ _

theorem getD_encoding {line : Nat} (h : line < d.objects + (pairs d.objects).length)
    (j : Fin d.blocks) :
    (d.encoding M).getD (line * d.blocks + j) 0 = (d.lineAt M line j).toInt := by
  have hpos : 0 < d.blocks := j.pos
  have hline : (line * d.blocks + j) / d.blocks = line := by
    rw [Nat.add_comm, Nat.add_mul_div_right _ _ hpos, Nat.div_eq_of_lt j.isLt, Nat.zero_add]
  have hblock : (line * d.blocks + j) % d.blocks = j := by
    rw [Nat.add_comm, Nat.add_mul_mod_self_right, Nat.mod_eq_of_lt j.isLt]
  rw [encoding, List.getD_eq_getElem?_getD, List.getElem?_map, List.getElem?_range (index_lt_size h j)]
  show (d.lineAt M (_ / _) (_ % _)).toInt = _
  rw [hline, hblock]

theorem encodes_encoding (d : DesignParameters) (M : Fin d.objects → Fin d.blocks → Bool) :
    d.Encodes M (d.encoding M) where
  length := by rw [encoding, List.length_map, List.length_range]
  entry i j := by
    refine (getD_encoding (Nat.lt_add_right _ i.isLt) j).trans (congrArg Bool.toInt ?_)
    rw [lineAt, if_pos i.isLt, entryAt_fin]
  together {p i i'} hpair j := by
    have hp : p < (pairs d.objects).length := (List.getElem?_eq_some_iff.1 hpair).1
    have hindex : (d.together p j).index = (d.objects + p) * d.blocks + j := by
      show d.objects * d.blocks + p * d.blocks + j = _
      rw [Nat.add_mul]
    rw [hindex, getD_encoding (Nat.add_lt_add_left hp _)]
    refine congrArg Bool.toInt ?_
    rw [lineAt, if_neg (Nat.not_lt.2 (Nat.le_add_right _ _)), Nat.add_sub_cancel_left, hpair]
    show (d.entryAt M i j && d.entryAt M i' j) = _
    rw [entryAt_fin, entryAt_fin]

end DesignParameters

/-! ### What is posted -/

/-- The number of ones among truth values. -/
theorem count_ofFn_toInt (f : Fin n → Bool) :
    (List.ofFn fun i => (f i).toInt).count 1 = (Finset.univ.filter fun i => f i).card := by
  induction n with
  | zero => rfl
  | succ n ih =>
    rw [List.ofFn_succ, List.count_cons, ih, Fin.card_filter_univ_succ', Nat.add_comm]
    cases f 0 <;> rfl

/-- Neighbours that are in order are enough. -/
theorem monotone_iff_neighbours {α : Type} [Preorder α] {f : Fin n → α} :
    Monotone f ↔ ∀ (k : Nat) (h : k + 1 < n), f ⟨k, Nat.lt_of_succ_lt h⟩ ≤ f ⟨k + 1, h⟩ := by
  cases n with
  | zero => exact ⟨fun _ _ h => absurd h (Nat.not_lt_zero _), fun _ i => i.elim0⟩
  | succ n =>
    rw [Fin.monotone_iff_le_succ]
    exact ⟨fun h k hk => h ⟨k, Nat.lt_of_succ_lt_succ hk⟩, fun h k => h k (Nat.succ_lt_succ k.isLt)⟩

namespace DesignParameters

/-- What is posted for the pairs of rows: the conjunctions, and how many there are. -/
theorem forall_pairCounts_iff : (∀ t ∈ d.pairCounts, t.Holds as) ↔
    ∀ (p : Nat) (i i' : Fin d.objects), (pairs d.objects)[p]? = some (i.val, i'.val) →
      (∀ j : Fin d.blocks, as.getD (d.together p j).index 0 = 1 ↔
        as.getD (d.entry i j).index 0 = 1 ∧ as.getD (d.entry i' j).index 0 = 1) ∧
      ((((List.range d.blocks).map fun j => as.getD (d.together p j).index 0).count 1 : Nat) : Int) =
        d.concurrence := by
  have hpair (p i i' : Nat) : (∀ t ∈ d.pairCount p i i', t.Holds as) ↔
      (∀ j : Fin d.blocks, as.getD (d.together p j).index 0 = 1 ↔
        as.getD (d.entry i j).index 0 = 1 ∧ as.getD (d.entry i' j).index 0 = 1) ∧
      ((((List.range d.blocks).map fun j => as.getD (d.together p j).index 0).count 1 : Nat) : Int) =
        d.concurrence := by
    rw [pairCount, List.forall_mem_append, List.forall_mem_map, List.forall_mem_singleton,
      Fin.forall_iff]
    refine and_congr ?_ ?_
    · simp only [List.mem_range]
      refine forall₂_congr fun j _ => ?_
      simp [Posting.Holds, Constraint.Holds]
    · show ((List.count _ (List.map _ (List.map _ _)) : Nat) : Int) = _ ↔ _
      rw [List.map_map]
      rfl
  simp only [← hpair]
  rw [pairCounts, List.forall_mem_flatMap]
  constructor
  · intro h p i i' hget
    exact h ((i, i'), p) (List.mem_zipIdx_iff_getElem?.2 hget)
  · rintro h ⟨⟨i, i'⟩, p⟩ hmem
    have hget : (pairs d.objects)[p]? = some (i, i') := List.mem_zipIdx_iff_getElem?.1 hmem
    obtain ⟨hlt, hlt'⟩ := mem_pairs.1 (List.mem_of_getElem? hget)
    exact h p ⟨i, hlt.trans hlt'⟩ ⟨i', hlt'⟩ hget

/-- A truth value and a number that is one of the two agree if they agree on being one. -/
theorem toInt_of_iff {x : Int} {b : Bool} (hx : 0 ≤ x ∧ x ≤ 1) (h : x = 1 ↔ b = true) :
    x = b.toInt := by
  cases b with
  | true => exact h.2 rfl
  | false =>
    have hne : x ≠ 1 := fun heq => Bool.false_ne_true (h.1 heq)
    show x = 0
    omega

theorem toInt_eq_one {b : Bool} : b.toInt = 1 ↔ b = true := by cases b <;> decide

/-- An assignment for which the conjunctions hold encodes a matrix. -/
theorem exists_encodes (hm : Mem as (List.replicate d.size ⟨0, 1⟩))
    (h : ∀ t ∈ d.pairCounts, t.Holds as) : ∃ M, d.Encodes M as := by
  obtain ⟨hlen, hall⟩ := mem_replicate_iff.1 hm
  have hbit (k : Nat) : 0 ≤ as.getD k 0 ∧ as.getD k 0 ≤ 1 := by
    rcases Nat.lt_or_ge k as.length with hk | hk
    · have hget : as.getD k 0 = as[k] := by simp [hk]
      rw [hget]
      exact hall _ (List.getElem_mem hk)
    · have hget : as.getD k 0 = 0 := by simp [hk]
      rw [hget]
      decide
  refine ⟨fun i j => decide (as.getD (d.entry i j).index 0 = 1), hlen, fun i j => ?_,
    fun {p i i'} hpair j => ?_⟩
  · exact toInt_of_iff (hbit _) decide_eq_true_iff.symm
  · refine toInt_of_iff (hbit _) ?_
    rw [(forall_pairCounts_iff.1 h p i i' hpair).1 j, Bool.and_eq_true, decide_eq_true_iff,
      decide_eq_true_iff]

section Posted

variable (h : d.Encodes M as)

include h

theorem Encodes.values_row (i : Fin d.objects) :
    (d.row i).map (fun x => as.getD x.index 0) = List.ofFn fun j => (M i j).toInt := by
  rw [row, List.map_map]
  exact map_range_eq_ofFn (h.entry i)

theorem Encodes.values_column (j : Fin d.blocks) :
    (d.column j).map (fun x => as.getD x.index 0) = List.ofFn fun i => (M i j).toInt := by
  rw [column, List.map_map]
  exact map_range_eq_ofFn fun i => h.entry i j

theorem Encodes.rowCounts_iff : (∀ t ∈ d.rowCounts, t.Holds as) ↔
    ∀ i, (Finset.univ.filter fun j => M i j).card = d.replication := by
  rw [rowCounts, List.forall_mem_map, Fin.forall_iff]
  simp only [List.mem_range]
  refine forall₂_congr fun i hi => ?_
  show ((List.count _ ((d.row i).map _) : Nat) : Int) = _ ↔ _
  rw [h.values_row ⟨i, hi⟩, count_ofFn_toInt, Nat.cast_inj]

theorem Encodes.columnCounts_iff : (∀ t ∈ d.columnCounts, t.Holds as) ↔
    ∀ j, (Finset.univ.filter fun i => M i j).card = d.blockSize := by
  rw [columnCounts, List.forall_mem_map, Fin.forall_iff]
  simp only [List.mem_range]
  refine forall₂_congr fun j hj => ?_
  show ((List.count _ ((d.column j).map _) : Nat) : Int) = _ ↔ _
  rw [h.values_column ⟨j, hj⟩, count_ofFn_toInt, Nat.cast_inj]

theorem Encodes.rowOrder_iff : (∀ t ∈ d.rowOrder, t.Holds as) ↔ Monotone fun i => toLex (M i) := by
  rw [rowOrder, List.forall_mem_map, monotone_iff_neighbours]
  simp only [List.mem_range, Nat.lt_sub_iff_add_lt]
  refine forall₂_congr fun i hi => ?_
  show Constraint.lexicographicLeq.Holds ((d.row i ++ d.row (i + 1)).map _) _ ↔ _
  rw [List.map_append, h.values_row ⟨i, Nat.lt_of_succ_lt hi⟩, h.values_row ⟨i + 1, hi⟩,
    Lexicographic.holds_append_iff (by simp), lexLe_ofFn_iff]

theorem Encodes.columnOrder_iff : (∀ t ∈ d.columnOrder, t.Holds as) ↔
    Monotone fun j => toLex fun i => M i j := by
  rw [columnOrder, List.forall_mem_map, monotone_iff_neighbours]
  simp only [List.mem_range, Nat.lt_sub_iff_add_lt]
  refine forall₂_congr fun j hj => ?_
  show Constraint.lexicographicLeq.Holds ((d.column j ++ d.column (j + 1)).map _) _ ↔ _
  rw [List.map_append, h.values_column ⟨j, Nat.lt_of_succ_lt hj⟩, h.values_column ⟨j + 1, hj⟩,
    Lexicographic.holds_append_iff (by simp), lexLe_ofFn_iff]

theorem Encodes.pairCounts_iff : (∀ t ∈ d.pairCounts, t.Holds as) ↔ ∀ i i', i ≠ i' →
    (Finset.univ.filter fun j => M i j ∧ M i' j).card = d.concurrence := by
  have hcount {p : Nat} {i i' : Fin d.objects}
      (hpair : (pairs d.objects)[p]? = some (i.val, i'.val)) :
      ((List.range d.blocks).map fun j => as.getD (d.together p j).index 0).count 1 =
        (Finset.univ.filter fun j => M i j ∧ M i' j).card := by
    rw [map_range_eq_ofFn (h.together hpair), count_ofFn_toInt]
    simp only [Bool.and_eq_true]
  rw [forall_pairCounts_iff]
  constructor
  · intro hposted
    have hless (i i' : Fin d.objects) (hlt : i < i') :
        (Finset.univ.filter fun j => M i j ∧ M i' j).card = d.concurrence := by
      obtain ⟨p, hp⟩ := List.getElem?_of_mem (mem_pairs.2 ⟨hlt, i'.isLt⟩)
      rw [← hcount hp]
      exact Int.ofNat.inj (hposted p i i' hp).2
    intro i i' hne
    rcases lt_or_gt_of_ne hne with hlt | hgt
    · exact hless i i' hlt
    · rw [← hless i' i hgt]
      simp only [and_comm]
  · intro hdesign p i i' hpair
    obtain ⟨hlt, -⟩ := mem_pairs.1 (List.mem_of_getElem? hpair)
    refine ⟨fun j => ?_, ?_⟩
    · rw [h.together hpair, h.entry, h.entry, toInt_eq_one, toInt_eq_one, toInt_eq_one,
        Bool.and_eq_true]
    · rw [hcount hpair, hdesign i i' (Fin.ne_of_lt hlt)]

/-- **What is posted over an encoding** says that the matrix is an ordered design. -/
theorem Encodes.postings_iff : (∀ t ∈ d.postings, t.Holds as) ↔ d.IsDesign M ∧ Ordered M := by
  simp only [postings, List.forall_mem_append]
  rw [h.rowCounts_iff, h.columnCounts_iff, h.pairCounts_iff, h.rowOrder_iff, h.columnOrder_iff]
  constructor
  · rintro ⟨⟨⟨⟨hrows, hcolumns⟩, hpairs⟩, hrowOrder⟩, hcolumnOrder⟩
    exact ⟨⟨hrows, hcolumns, hpairs⟩, hrowOrder, hcolumnOrder⟩
  · rintro ⟨⟨hrows, hcolumns, hpairs⟩, hrowOrder, hcolumnOrder⟩
    exact ⟨⟨⟨⟨hrows, hcolumns⟩, hpairs⟩, hrowOrder⟩, hcolumnOrder⟩

end Posted

/-! ### The model -/

/-- What is posted is all that can be refused once the parameters have been checked. -/
theorem of_model (h : d.model = .ok m) : ∃ q,
    (Problem.ofIntervals (List.replicate d.size ⟨0, 1⟩)).post d.postings = .ok q ∧ m = ⟨d, q⟩ := by
  unfold model at h
  dsimp only at h
  by_cases hempty : d.objects = 0 ∨ d.blocks = 0
  · rw [if_pos hempty] at h
    cases h
  · rw [if_neg hempty] at h
    obtain ⟨_, -, h⟩ := bind_eq_ok.1 h
    obtain ⟨_, -, h⟩ := bind_eq_ok.1 h
    obtain ⟨_, -, h⟩ := bind_eq_ok.1 h
    split at h
    · obtain ⟨q, hq, h⟩ := bind_eq_ok.1 h
      exact ⟨q, mapError_eq_ok_iff.1 hq, (Except.ok.inj h).symm⟩
    · cases h

/-- **The solutions are the encodings of ordered designs.** -/
theorem solves_iff (h : d.model = .ok m) : m.problem.network.Solves as ↔
    ∃ M, d.IsDesign M ∧ Ordered M ∧ d.Encodes M as := by
  obtain ⟨q, hq, rfl⟩ := of_model h
  rw [solves_post_iff hq, solves_ofIntervals_iff]
  constructor
  · rintro ⟨hmem, hposted⟩
    have hlen : as.length = (List.replicate d.size (⟨0, 1⟩ : Interval)).length := hmem.length_eq
    rw [valuesOf_ofIntervals hlen] at hposted
    have hpairs : ∀ t ∈ d.pairCounts, t.Holds as := by
      simp only [postings, List.forall_mem_append] at hposted
      exact hposted.1.1.2
    obtain ⟨M, hM⟩ := exists_encodes hmem hpairs
    obtain ⟨hdesign, hordered⟩ := hM.postings_iff.1 hposted
    exact ⟨M, hdesign, hordered, hM⟩
  · rintro ⟨M, hdesign, hordered, hM⟩
    refine ⟨hM.mem, ?_⟩
    rw [valuesOf_ofIntervals (hM.length.trans List.length_replicate.symm)]
    exact hM.postings_iff.2 ⟨hdesign, hordered⟩

theorem built_model (h : d.model = .ok m) : Built m.problem := by
  obtain ⟨q, hq, rfl⟩ := of_model h
  refine (Built.ofIntervals fun i hi => ?_).post hq
  rw [List.eq_of_mem_replicate hi]
  decide

/-- The matrix of an encoding. -/
theorem Encodes.matrix_eq (h : d.model = .ok m) (hM : d.Encodes M as) :
    m.matrix (m.problem.network.valuesOf as) = .ok (rowsOf M) := by
  obtain ⟨q, hq, rfl⟩ := of_model h
  have hvalues : q.network.valuesOf as = as :=
    (valuesOf_post hq as).trans (valuesOf_ofIntervals (hM.length.trans List.length_replicate.symm))
  have hrow : ∀ i ∈ List.range d.objects, (d.row i).mapM (fun x => x.valueIn as) =
      .ok ((d.row i).map fun x => as.getD x.index 0) := by
    intro i hi
    refine mapM_valueIn fun x hx => ?_
    obtain ⟨j, hj, rfl⟩ := List.mem_map.1 hx
    rw [List.mem_range] at hi hj
    rw [hM.length]
    exact index_lt_size (Nat.lt_add_right _ hi) ⟨j, hj⟩
  show BlockDesign.matrix ⟨d, q⟩ (q.network.valuesOf as) = _
  rw [hvalues, BlockDesign.matrix, mapM_of_ok hrow]
  exact congrArg _ (map_range_eq_ofFn hM.values_row)

end DesignParameters

open DesignParameters in
/-- **The model of block designs is exact, and ordering excludes no design.**  The solutions
of a model correspond one to one, through their matrices, to the designs with its parameters
whose rows and columns are in lexicographic order.  The rows and columns of every design can be
permuted so that it becomes one of those; hence the model has a solution if and only if there is
a design. -/
theorem blockDesign_exact (h : d.model = .ok m) :
    Built m.problem ∧
    (∀ as, m.problem.network.Solves as → ∃! M, d.IsDesign M ∧ Ordered M ∧
      m.matrix (m.problem.network.valuesOf as) = .ok (rowsOf M)) ∧
    (∀ M, d.IsDesign M → Ordered M → ∃! as, m.problem.network.Solves as ∧
      m.matrix (m.problem.network.valuesOf as) = .ok (rowsOf M)) ∧
    (∀ M, d.IsDesign M → ∃ (σ : Equiv.Perm (Fin d.objects)) (τ : Equiv.Perm (Fin d.blocks)),
      (d.IsDesign fun i j => M (σ i) (τ j)) ∧ Ordered fun i j => M (σ i) (τ j)) ∧
    ((∃ as, m.problem.network.Solves as) ↔ ∃ M, d.IsDesign M) := by
  have hpermute (M : Fin d.objects → Fin d.blocks → Bool) (hM : d.IsDesign M) :
      ∃ (σ : Equiv.Perm (Fin d.objects)) (τ : Equiv.Perm (Fin d.blocks)),
        (d.IsDesign fun i j => M (σ i) (τ j)) ∧ Ordered fun i j => M (σ i) (τ j) := by
    obtain ⟨σ, τ, hordered⟩ := exists_ordered M
    exact ⟨σ, τ, hM.permute σ τ, hordered⟩
  refine ⟨built_model h, fun as has => ?_, fun M hdesign hordered => ?_, hpermute, ?_, ?_⟩
  · obtain ⟨M, hdesign, hordered, hM⟩ := (solves_iff h).1 has
    refine ⟨M, ⟨hdesign, hordered, hM.matrix_eq h⟩, ?_⟩
    rintro N ⟨-, -, hN⟩
    exact rowsOf_injective (Except.ok.inj (hN.symm.trans (hM.matrix_eq h)))
  · have hM := encodes_encoding d M
    refine ⟨_, ⟨(solves_iff h).2 ⟨M, hdesign, hordered, hM⟩, hM.matrix_eq h⟩, ?_⟩
    rintro bs ⟨hbs, hrows⟩
    obtain ⟨N, -, -, hN⟩ := (solves_iff h).1 hbs
    obtain rfl := rowsOf_injective (Except.ok.inj ((hN.matrix_eq h).symm.trans hrows))
    exact hN.unique hM
  · rintro ⟨as, has⟩
    obtain ⟨M, hdesign, -⟩ := (solves_iff h).1 has
    exact ⟨M, hdesign⟩
  · rintro ⟨M, hM⟩
    obtain ⟨σ, τ, hdesign, hordered⟩ := hpermute M hM
    exact ⟨_, (solves_iff h).2 ⟨_, hdesign, hordered, encodes_encoding d _⟩⟩

/-- Three objects in three blocks of two, any two of them together once: of the designs with
these parameters the model has the one in which every object misses a block of its own, the
first object the first block. -/
theorem blockDesign_exact_three :
    ∃ m, (⟨3, 3, 2, 2, 1⟩ : DesignParameters).model = .ok m ∧
      ∃! as, m.problem.network.Solves as ∧ m.matrix (m.problem.network.valuesOf as) =
        .ok [[0, 1, 1], [1, 0, 1], [1, 1, 0]] := by
  let d : DesignParameters := ⟨3, 3, 2, 2, 1⟩
  let M : Fin 3 → Fin 3 → Bool := fun i j => decide (i ≠ j)
  have hok : d.model.isOk = true := by decide +kernel
  obtain ⟨m, hm⟩ : ∃ m, d.model = .ok m := by
    cases hmodel : d.model with
    | ok m => exact ⟨m, rfl⟩
    | error e =>
      rw [hmodel] at hok
      cases hok
  have hdesign : d.IsDesign M := ⟨by decide, by decide, by decide⟩
  have hordered : Ordered M := by
    refine ⟨Fin.monotone_iff_le_succ.2 fun i => lexLe_ofFn_iff.1 ?_,
      Fin.monotone_iff_le_succ.2 fun j => lexLe_ofFn_iff.1 ?_⟩
    · revert i
      decide
    · revert j
      decide
  obtain ⟨-, -, hone, -⟩ := blockDesign_exact hm
  exact ⟨m, hm, hone M hdesign hordered⟩

end BoundsSolver
