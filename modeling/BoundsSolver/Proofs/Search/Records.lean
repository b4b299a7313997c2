/-
# A stack of choice points as a list of records

What a stack promises is said without slots: a list of records, newest first, each with the
choice point as it was pushed and the bounds that were imposed on all choice points since
(`ChoicePoints.Record`).  A push is refused exactly if the list is as long as the capacity;
what is popped is the newest record with its bounds imposed.  The slots, which outlive what
is popped or cleared and are overwritten one at a time, answer every sequence of operations
as the list does (`ChoicePoints.runAll_onRecords`).
-/

import BoundsSolver.Proofs.Refinement
import BoundsSolver.Proofs.Search.Stacks

namespace BoundsSolver

/-- The interval with one bound moved to a value that lies further in. -/
def Interval.narrow (i : Interval) : Bound → Int → Interval
  | .min, v => ⟨Max.max i.min v, i.max⟩
  | .max, v => ⟨i.min, Min.min i.max v⟩

/-- The box with one bound of one shared domain narrowed. -/
def Branch.narrow (br : Branch) (b : Box) : Box :=
  .ofList (b.toList.modify br.domain.index (·.narrow br.bound br.value))

theorem Interval.narrow_eq (i : Interval) (b : Bound) (v : Int) : i.narrow b v = i.tighten b v := by
  cases b with
  | min => exact Interval.ext (i.tightenMin_min v).symm (i.tightenMin_max v).symm
  | max => exact Interval.ext (i.tightenMax_min v).symm (i.tightenMax_max v).symm

theorem Branch.narrow_eq (br : Branch) (b : Box) : br.narrow b = b.tighten br := by
  refine Keyed.ext_get? fun d => ?_
  rw [Box.tighten, Keyed.get?_modify, Keyed.get?_eq_getElem?, Keyed.get?_eq_getElem?, narrow,
    Keyed.toList_ofList, List.getElem?_modify]
  simp only [Interval.narrow_eq]
  by_cases hd : br.domain.index = d.index
  · simp [Key.index, hd]
  · simp [Key.index, hd]

namespace ChoicePoints

/-- A choice point as it was pushed, and the bounds imposed since then, the latest last. -/
structure Record where
  point : ChoicePoint
  bounds : List Branch

/-- The choice point with the bounds imposed. -/
def Record.read (r : Record) : ChoicePoint :=
  { r.point with box := r.bounds.foldl (fun b br => br.narrow b) r.point.box }

/-- The record with one more bound. -/
def Record.impose (br : Branch) (r : Record) : Record := { r with bounds := r.bounds ++ [br] }

theorem Record.read_impose (br : Branch) (r : Record) :
    (r.impose br).read = { r.read with box := r.read.box.tighten br } := by
  simp only [read, impose, List.foldl_append, List.foldl_cons, List.foldl_nil, Branch.narrow_eq]

/-- What is done with a stack of choice points. -/
inductive Operation where
  | push (c : ChoicePoint)
  | pop
  | tightenAll (br : Branch)
  | clear

/-- The choice point that is popped, if one is, or the error, and the stack afterwards. -/
def Operation.run :
    Operation → ChoicePoints → Except SearchError (Option ChoicePoint) × ChoicePoints
  | .push c, cs =>
    match cs.push c with
    | .error e => (.error e, cs)
    | .ok ds => (.ok none, ds)
  | .pop, cs =>
    match cs.pop? with
    | none => (.ok none, cs)
    | some (c, ds) => (.ok (some c), ds)
  | .tightenAll br, cs => (.ok none, cs.tightenAll br)
  | .clear, cs => (.ok none, cs.clear)

/-- The same on a list of at most `capacity` records. -/
def Operation.onRecords (capacity : Nat) :
    Operation → List Record → Except SearchError (Option ChoicePoint) × List Record
  | .push c, rs =>
    if rs.length = capacity then (.error (.choicePointOverflow capacity), rs)
    else (.ok none, ⟨c, []⟩ :: rs)
  | .pop, [] => (.ok none, [])
  | .pop, r :: rs => (.ok (some r.read), rs)
  | .tightenAll br, rs => (.ok none, rs.map (·.impose br))
  | .clear, _ => (.ok none, [])

/-- The stack holds the records and no more, the newest on top, and has room for `capacity`. -/
structure Holds (capacity : Nat) (cs : ChoicePoints) (rs : List Record) : Prop where
  live : cs.live = (rs.map Record.read).reverse
  capacity_eq : cs.capacity = capacity
  length_le : rs.length ≤ capacity

variable {capacity : Nat} {cs : ChoicePoints} {rs : List Record}

theorem Holds.depth (h : cs.Holds capacity rs) : cs.depth = rs.length := by
  rw [← length_live, h.live, List.length_reverse, List.length_map]

theorem Holds.push (h : cs.Holds capacity rs) (c : ChoicePoint) :
    let answer := (Operation.push c).run cs
    let expected := (Operation.push c).onRecords capacity rs
    answer.1 = expected.1 ∧ answer.2.Holds capacity expected.2 := by
  rw [Operation.run, Operation.onRecords]
  by_cases hfull : rs.length = capacity
  · rw [if_pos hfull, push_full (by rw [h.depth, hfull, h.capacity_eq]), h.capacity_eq]
    exact ⟨rfl, h⟩
  · have hroom : cs.depth ≠ cs.capacity := by
      rw [h.depth, h.capacity_eq]
      exact hfull
    obtain ⟨ds, hds, -, hcapacity⟩ : ∃ ds, cs.push c = .ok ds ∧ _ := push_of_ne hroom
    rw [if_neg hfull, hds]
    refine ⟨rfl, ?_, hcapacity.trans h.capacity_eq, ?_⟩
    · rw [live_push hds, h.live, List.map_cons, List.reverse_cons]
      rfl
    · exact Nat.lt_of_le_of_ne h.length_le hfull

theorem Holds.pop (h : cs.Holds capacity rs) :
    (Operation.pop.run cs).1 = (Operation.pop.onRecords capacity rs).1 ∧
      (Operation.pop.run cs).2.Holds capacity (Operation.pop.onRecords capacity rs).2 := by
  rw [Operation.run]
  cases rs with
  | nil =>
    rw [pop?_eq_none_iff.2 h.live]
    exact ⟨rfl, h⟩
  | cons r rs =>
    have hlive := h.live
    rw [List.map_cons, List.reverse_cons] at hlive
    cases hpop : cs.pop? with
    | none =>
      rw [pop?_eq_none_iff.1 hpop] at hlive
      cases List.append_ne_nil_of_right_ne_nil _ (List.cons_ne_nil r.read []) hlive.symm
    | some top =>
      obtain ⟨c, ds⟩ := top
      rw [live_pop? hpop] at hlive
      obtain ⟨hrest, htop⟩ := List.append_inj' hlive rfl
      obtain rfl := List.singleton_inj.1 htop
      exact ⟨rfl, hrest, (pop?_capacity hpop).trans h.capacity_eq, Nat.le_of_succ_le h.length_le⟩

theorem Holds.tightenAll (h : cs.Holds capacity rs) (br : Branch) :
    (cs.tightenAll br).Holds capacity (rs.map (·.impose br)) where
  live := by
    rw [live_tightenAll, h.live, List.map_reverse, List.map_map, List.map_map]
    exact congrArg _ (List.map_congr_left fun r _ => (r.read_impose br).symm)
  capacity_eq := h.capacity_eq
  length_le := by rw [List.length_map]; exact h.length_le

theorem Holds.clear (h : cs.Holds capacity rs) : cs.clear.Holds capacity [] where
  live := live_clear cs
  capacity_eq := h.capacity_eq
  length_le := Nat.zero_le _

/-- One operation gets the answer of the list, and the stack still holds its records. -/
theorem Operation.run_onRecords (o : Operation) (h : cs.Holds capacity rs) :
    (o.run cs).1 = (o.onRecords capacity rs).1 ∧
      (o.run cs).2.Holds capacity (o.onRecords capacity rs).2 := by
  cases o with
  | push c => exact h.push c
  | pop => exact h.pop
  | tightenAll br => exact ⟨rfl, h.tightenAll br⟩
  | clear => exact ⟨rfl, h.clear⟩

theorem holds_ofCapacity (capacity : Nat) : (ofCapacity capacity).Holds capacity [] :=
  ⟨rfl, rfl, Nat.zero_le _⟩

/-- **A stack of choice points is a bounded list of records.**  Whatever its capacity, any
sequence of operations gets the answers of the list: a push is refused if the list is full
and changes nothing then, and a choice point is popped as it was pushed but for the bounds
that were imposed on it since.  Afterwards the stack shows the records of the list and
nothing else, and it is as deep as the list is long. -/
theorem runAll_onRecords (capacity : Nat) (os : List Operation) :
    let stack := runAll Operation.run os (ofCapacity capacity)
    let records := runAll (Operation.onRecords capacity) os []
    stack.1 = records.1 ∧ stack.2.live = (records.2.map Record.read).reverse ∧
      stack.2.depth = records.2.length ∧ records.2.length ≤ capacity := by
  obtain ⟨hanswers, h⟩ := runAll_refines
    (fun o cs rs (h : cs.Holds capacity rs) => o.run_onRecords h) os (holds_ofCapacity capacity)
  exact ⟨hanswers, h.live, h.depth, h.length_le⟩

/-- A bound does not reach the choice point that is pushed into the same slot later. -/
example (c d : ChoicePoint) (br : Branch) :
    (runAll Operation.run [.push c, .tightenAll br, .push d, .pop, .push d, .pop, .pop]
      (ofCapacity 1)).1 =
      [.ok none, .ok none, .error (.choicePointOverflow 1),
        .ok (some { c with box := c.box.tighten br }), .ok none, .ok (some d), .ok none] := rfl

end ChoicePoints
end BoundsSolver
