/-
# Propagators in flat arrays

A network keeps a record for each propagator.  Laid out flat, the shared domains, the
offsets and the triggers of all propagators stand one after the other in an array each, with
an entry for each variable of a propagator, and so do the parameters; a propagator is then a
slice of these arrays.

Arrays grow at their ends, so that a slice stays where it is (`Layout.Registers.add`).  The
triggers are read with the slice of the variables, which is theirs as well only if a
constraint names triggers for each of its variables: `Constraint.length_triggers`, where the
parameters have been checked.  The records of a network and its layout hold the same
(`Network.layout_registers`).
-/

import BoundsSolver.Proofs.Keyed
import BoundsSolver.Proofs.Network.WellFormed

namespace BoundsSolver

/-- The positions from the first up to the second, which is not among them. -/
structure Slice where
  start : Nat
  stop : Nat
  deriving DecidableEq, Repr

/-- The entries at the positions of a slice, which must not stop beyond the end. -/
def Slice.of {α : Type} (s : Slice) (xs : List α) : Checked (List α) :=
  if s.stop ≤ xs.length then .ok (xs.extract s.start s.stop)
  else .error (.rangeOutOfBounds xs.length s.stop)

/-- The propagators of a network in flat arrays. -/
structure Layout where
  constraints : Keyed PropagatorId Constraint
  variableSlices : Keyed PropagatorId Slice
  parameterSlices : Keyed PropagatorId Slice
  selfAliasing : Keyed PropagatorId Bool
  domains : List DomainId
  offsets : List Int
  triggers : List Triggers
  parameters : List Int
  deriving DecidableEq

namespace Layout

def empty : Layout := ⟨.empty, .empty, .empty, .empty, [], [], [], []⟩

/-- Appends a propagator and hands out its identifier. -/
def add (l : Layout) (c : Constraint) (views : List View) (parameters : List Int) :
    PropagatorId × Layout :=
  let domains := l.domains ++ views.map View.domain
  let offsets := l.offsets ++ views.map View.offset
  let triggers := l.triggers ++ c.triggers views.length parameters
  let variableSlice : Slice := ⟨l.domains.length, domains.length⟩
  let parameterSlice : Slice := ⟨l.parameters.length, (l.parameters ++ parameters).length⟩
  let (id, constraints) := l.constraints.push c
  (id, {
    constraints, domains, offsets, triggers
    parameters := l.parameters ++ parameters
    variableSlices := (l.variableSlices.push variableSlice).2
    parameterSlices := (l.parameterSlices.push parameterSlice).2
    selfAliasing := (l.selfAliasing.push (!decide (views.map View.domain).Nodup)).2 })

/-- The entries of a propagator in one of the arrays. -/
def entriesOf {α : Type} (slices : Keyed PropagatorId Slice) (id : PropagatorId) (xs : List α) :
    Checked (List α) := do
  let s ← slices.get id
  s.of xs

def constraintOf (l : Layout) (id : PropagatorId) : Checked Constraint := l.constraints.get id

def isSelfAliasing (l : Layout) (id : PropagatorId) : Checked Bool := l.selfAliasing.get id

def domainsOf (l : Layout) (id : PropagatorId) : Checked (List DomainId) :=
  entriesOf l.variableSlices id l.domains

def offsetsOf (l : Layout) (id : PropagatorId) : Checked (List Int) :=
  entriesOf l.variableSlices id l.offsets

def triggersOf (l : Layout) (id : PropagatorId) : Checked (List Triggers) :=
  entriesOf l.variableSlices id l.triggers

def parametersOf (l : Layout) (id : PropagatorId) : Checked (List Int) :=
  entriesOf l.parameterSlices id l.parameters

/-- Everything that the layout has of a propagator is what the record has. -/
structure Registers (l : Layout) (id : PropagatorId) (r : Propagator) : Prop where
  constraint : l.constraintOf id = .ok r.constraint
  domains : l.domainsOf id = .ok (r.views.map View.domain)
  offsets : l.offsetsOf id = .ok (r.views.map View.offset)
  triggers : l.triggersOf id = .ok r.triggers
  parameters : l.parametersOf id = .ok r.parameters
  selfAliasing : l.isSelfAliasing id = .ok r.selfAliasing

/-- The arrays with an entry for each propagator have so many, and those with an entry for
each variable are equally long. -/
structure Even (l : Layout) (count : Nat) : Prop where
  constraints : l.constraints.size = count
  variableSlices : l.variableSlices.size = count
  parameterSlices : l.parameterSlices.size = count
  selfAliasing : l.selfAliasing.size = count
  offsets : l.offsets.length = l.domains.length
  triggers : l.triggers.length = l.domains.length

/-- Propagators one after the other, from the first of an empty layout on. -/
def of (rs : List Propagator) : Layout :=
  rs.foldl (fun l r => (l.add r.constraint r.views r.parameters).2) empty

end Layout

/-- The propagators of a network, laid out in the order in which they were posted. -/
def Network.layout (n : Network) : Layout := .of n.propagators.toList

/-! ### Slices -/

section Slices

variable {α : Type} {s : Slice} {xs ys zs : List α} {slices : Keyed PropagatorId Slice}
  {id : PropagatorId}

/-- What is appended to an array does not show in the slices before. -/
theorem Slice.of_append (h : s.of xs = .ok ys) : s.of (xs ++ zs) = .ok ys := by
  unfold Slice.of at h ⊢
  split at h
  · rename_i hstop
    have hlen : s.stop ≤ (xs ++ zs).length := by
      rw [List.length_append]
      omega
    rw [if_pos hlen, ← h, List.extract_eq_take_drop, List.extract_eq_take_drop,
      List.drop_append, List.take_append_of_le_length]
    rw [List.length_drop]
    omega
  · cases h

/-- What is appended to an array is the slice from its old end to its new one. -/
theorem Slice.of_end : (Slice.mk xs.length (xs ++ zs).length).of (xs ++ zs) = .ok zs := by
  rw [Slice.of, if_pos (Nat.le_refl _), List.extract_eq_take_drop, List.drop_left,
    List.length_append, Nat.add_sub_cancel_left, List.take_length]

theorem Keyed.get_push {κ β : Type} [Key κ] {t : Keyed κ β} {k : κ} {a b : β}
    (h : t.get k = .ok a) : (t.push b).2.get k = .ok a := by
  rw [Keyed.get_eq_ok] at h ⊢
  exact (Keyed.get?_push_of_lt (Keyed.lt_size_of_get? h)).trans h

theorem Keyed.get_push_size {κ β : Type} [Key κ] {t : Keyed κ β} {k : κ} {b : β}
    (h : Key.index k = t.size) : (t.push b).2.get k = .ok b :=
  Keyed.get_eq_ok.2 (Keyed.get?_push_size h)

theorem Layout.entriesOf_append (h : entriesOf slices id xs = .ok ys) :
    entriesOf (slices.push s).2 id (xs ++ zs) = .ok ys := by
  obtain ⟨t, ht, hys⟩ := bind_eq_ok.1 h
  exact bind_eq_ok.2 ⟨t, Keyed.get_push ht, Slice.of_append hys⟩

theorem Layout.entriesOf_end (hid : id.index = slices.size)
    (hs : s = ⟨xs.length, (xs ++ zs).length⟩) :
    entriesOf (slices.push s).2 id (xs ++ zs) = .ok zs := by
  subst hs
  exact bind_eq_ok.2 ⟨_, Keyed.get_push_size hid, Slice.of_end⟩

end Slices

/-! ### Adding a propagator -/

/-- **A constraint names triggers for each of its variables**, where the number of its
parameters was checked. -/
theorem Constraint.length_triggers {c : Constraint} {bounds : List Interval}
    {parameters : List Int} (h : c.validate bounds parameters = .ok ()) :
    (c.triggers bounds.length parameters).length = bounds.length := by
  -- Only a linear constraint takes its triggers from its parameters: one for each coefficient.
  have hlinear (hp : c.expectParameters parameters (bounds.length + 1) = .ok ()) :
      parameters.length = bounds.length + 1 := by
    unfold expectParameters at hp
    split at hp
    · assumption
    · cases hp
  cases c with
  | affineEq =>
    obtain ⟨_, -, hp⟩ := bind_eq_ok.1 h
    simp [triggers, Affine.split, hlinear hp]
  | affineLeq =>
    obtain ⟨_, -, hp⟩ := bind_eq_ok.1 h
    simp [triggers, Affine.split, hlinear hp]
  | _ => exact List.length_replicate

namespace Layout

variable {l : Layout} {id : PropagatorId} {r : Propagator} {c : Constraint} {views : List View}
  {parameters : List Int} {count : Nat} {rs pre : List Propagator} {n : Network}

/-- **What was registered stays so**, whatever is added later. -/
theorem Registers.add (h : l.Registers id r) : (l.add c views parameters).2.Registers id r where
  constraint := Keyed.get_push h.constraint
  domains := entriesOf_append h.domains
  offsets := entriesOf_append h.offsets
  triggers := entriesOf_append h.triggers
  parameters := entriesOf_append h.parameters
  selfAliasing := Keyed.get_push h.selfAliasing

theorem Even.add_fst (h : l.Even count) : (l.add c views parameters).1 = ⟨count⟩ :=
  congrArg PropagatorId.mk h.constraints

/-- **What is added is registered** under the identifier that is handed out. -/
theorem Even.registers (h : l.Even count)
    (htriggers : (c.triggers views.length parameters).length = views.length) :
    (l.add c views parameters).2.Registers (l.add c views parameters).1
      (.post c views parameters) := by
  have hmap {α : Type} (f : View → α) : (views.map f).length = views.length :=
    List.length_map f
  rw [h.add_fst]
  exact
    { constraint := Keyed.get_push_size h.constraints.symm
      domains := entriesOf_end h.variableSlices.symm rfl
      offsets := by
        refine entriesOf_end h.variableSlices.symm ?_
        rw [List.length_append, List.length_append, h.offsets, hmap, hmap]
      triggers := by
        refine entriesOf_end h.variableSlices.symm ?_
        rw [List.length_append, List.length_append, h.triggers, hmap, htriggers]
      parameters := entriesOf_end h.parameterSlices.symm rfl
      selfAliasing := Keyed.get_push_size h.selfAliasing.symm }

theorem Even.add (h : l.Even count)
    (htriggers : (c.triggers views.length parameters).length = views.length) :
    (l.add c views parameters).2.Even (count + 1) where
  constraints := (Keyed.size_push ..).trans (congrArg (· + 1) h.constraints)
  variableSlices := (Keyed.size_push ..).trans (congrArg (· + 1) h.variableSlices)
  parameterSlices := (Keyed.size_push ..).trans (congrArg (· + 1) h.parameterSlices)
  selfAliasing := (Keyed.size_push ..).trans (congrArg (· + 1) h.selfAliasing)
  offsets := by
    simp only [Layout.add, List.length_append, List.length_map, h.offsets]
  triggers := by
    simp only [Layout.add, List.length_append, List.length_map, h.triggers, htriggers]

/-- Propagators that are laid out after others leave those as they are. -/
theorem registers_foldl (hl : l.Even pre.length)
    (hpre : ∀ {id : PropagatorId} {r : Propagator}, pre[id.index]? = some r → l.Registers id r)
    (hrs : ∀ r ∈ rs, n.Posts r) (hr : (pre ++ rs)[id.index]? = some r) :
    (rs.foldl (fun l r => (l.add r.constraint r.views r.parameters).2) l).Registers id r := by
  induction rs generalizing l pre with
  | nil => exact hpre ((List.append_nil pre) ▸ hr)
  | cons a rs ih =>
    obtain ⟨ha, hrs⟩ := List.forall_mem_cons.1 hrs
    have htriggers : (a.constraint.triggers a.views.length a.parameters).length =
        a.views.length := by
      simpa only [Propagator.reads, List.length_map] using Constraint.length_triggers ha.valid
    rw [List.append_cons] at hr
    refine ih ?_ (fun {id r} hr => ?_) hrs hr
    · rw [List.length_append]
      exact hl.add htriggers
    · rcases Nat.lt_or_ge id.index pre.length with hlt | hge
      · rw [List.getElem?_append_left hlt] at hr
        exact (hpre hr).add
      · have hlen := (List.getElem?_eq_some_iff.1 hr).1
        rw [List.length_append, List.length_singleton] at hlen
        have hid : id = ⟨pre.length⟩ := congrArg PropagatorId.mk (by omega : id.index = _)
        subst hid
        rw [List.getElem?_concat_length] at hr
        obtain rfl := Option.some.inj hr
        have hnew := hl.registers htriggers
        rwa [hl.add_fst, ← ha.eq_post] at hnew

end Layout

/-- **The layout of a network has of every propagator what its record has.** -/
theorem Network.layout_registers {n : Network} (hn : n.WellFormed) {id : PropagatorId}
    {r : Propagator} (hr : n.propagators.get? id = some r) : n.layout.Registers id r := by
  have hempty : Layout.empty.Even ([] : List Propagator).length :=
    ⟨rfl, rfl, rfl, rfl, rfl, rfl⟩
  refine Layout.registers_foldl hempty (fun hnone => ?_) hn.posted ?_
  · cases hnone
  · rw [List.nil_append]
    exact (Keyed.get?_eq_getElem? ..).symm.trans hr

end BoundsSolver
