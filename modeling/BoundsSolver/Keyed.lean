/-
# Tables addressed by typed keys

Shared domains, variables and propagators are numbered from zero in the order
in which they are created.  Each kind of number is a type of its own, so that a
variable cannot be looked up in the table of the domains.  A `Keyed` table
hands out the key of an entry when the entry is pushed.

`Keyed.get?` is the view of a table: `get?_push`, `get?_set` and `get?_modify`
say what each operation does to it.
-/

import BoundsSolver.Interval

namespace BoundsSolver

/-- The keys of a table: numbers under a type of their own. -/
class Key (κ : Type) where
  index : κ → Nat
  ofIndex : Nat → κ
  index_ofIndex : ∀ n, index (ofIndex n) = n

/-- The key that a number names: keys have 32 bits, which are the last ones of a larger
number. -/
def Key.named {κ : Type} [Key κ] (n : Nat) : κ := Key.ofIndex (n % 4294967296)

/-- A shared domain, by its position in the order of creation. -/
structure DomainId where
  index : Nat
  deriving DecidableEq, Hashable, Repr, Inhabited

/-- A variable, by its position in the order of creation. -/
structure VariableId where
  index : Nat
  deriving DecidableEq, Hashable, Repr, Inhabited

/-- A propagator, by its position in the order of posting. -/
structure PropagatorId where
  index : Nat
  deriving DecidableEq, Hashable, Repr, Inhabited

def DomainId.display (d : DomainId) : String := s!"d{d.index}"

def VariableId.display (x : VariableId) : String := s!"x{x.index}"

instance : Key DomainId := ⟨DomainId.index, DomainId.mk, fun _ => rfl⟩

instance : Key VariableId := ⟨VariableId.index, VariableId.mk, fun _ => rfl⟩

instance : Key PropagatorId := ⟨PropagatorId.index, PropagatorId.mk, fun _ => rfl⟩

/-- A sequence whose entries are addressed by keys of one kind. -/
structure Keyed (κ α : Type) where
  entries : Array α
  deriving DecidableEq, Repr

namespace Keyed

variable {κ α β : Type}

instance : Inhabited (Keyed κ α) := ⟨⟨#[]⟩⟩

/-- The table without entries. -/
def empty : Keyed κ α := ⟨#[]⟩

def size (t : Keyed κ α) : Nat := t.entries.size

def ofList (xs : List α) : Keyed κ α := ⟨xs.toArray⟩

def toList (t : Keyed κ α) : List α := t.entries.toList

def map (f : α → β) (t : Keyed κ α) : Keyed κ β := ⟨t.entries.map f⟩

variable [Key κ]

/-- Whether the key addresses an entry. -/
def has (t : Keyed κ α) (k : κ) : Bool := decide (Key.index k < t.size)

/-- The entry at a key, if there is one. -/
def get? (t : Keyed κ α) (k : κ) : Option α := t.entries[Key.index k]?

/-- The entry at a key that is known to address one. -/
def entry [Inhabited α] (t : Keyed κ α) (k : κ) : α := t.entries.getD (Key.index k) default

/-- Appends an entry and hands out its key. -/
def push (t : Keyed κ α) (a : α) : κ × Keyed κ α := (Key.ofIndex t.size, ⟨t.entries.push a⟩)

/-- Replaces the entry at a key; without such an entry nothing changes. -/
def set (t : Keyed κ α) (k : κ) (a : α) : Keyed κ α :=
  ⟨t.entries.setIfInBounds (Key.index k) a⟩

/-- Applies a function to the entry at a key; without such an entry nothing changes. -/
def modify (t : Keyed κ α) (k : κ) (f : α → α) : Keyed κ α :=
  match t.get? k with
  | some a => t.set k (f a)
  | none => t

/-- The keys of all entries, in order. -/
def keys (t : Keyed κ α) : List κ := (List.range t.size).map Key.ofIndex

omit [Key κ] in
@[simp] theorem toList_ofList (xs : List α) : (ofList xs : Keyed κ α).toList = xs := rfl

omit [Key κ] in
@[simp] theorem length_toList (t : Keyed κ α) : t.toList.length = t.size := rfl

theorem get?_eq_getElem? (t : Keyed κ α) (k : κ) : t.get? k = t.toList[Key.index k]? := by
  simp [get?, toList]

theorem has_iff {t : Keyed κ α} {k : κ} : t.has k = true ↔ Key.index k < t.entries.size :=
  decide_eq_true_iff

theorem get?_isSome (t : Keyed κ α) (k : κ) : (t.get? k).isSome = t.has k := by
  rw [Bool.eq_iff_iff, has_iff]; simp [get?]

theorem get?_eq_some_entry [Inhabited α] {t : Keyed κ α} {k : κ} (h : t.has k = true) :
    t.get? k = some (t.entry k) := by
  rw [has_iff] at h
  simp [get?, entry, Array.getD, h]

theorem entry_of_get? [Inhabited α] {t : Keyed κ α} {k : κ} {a : α} (h : t.get? k = some a) :
    t.entry k = a := by
  have : t.has k = true := by rw [← get?_isSome, h]; rfl
  rw [get?_eq_some_entry this] at h
  exact Option.some.inj h

@[simp] theorem toList_push (t : Keyed κ α) (a : α) : (t.push a).2.toList = t.toList ++ [a] := by
  simp [push, toList]

@[simp] theorem toList_set (t : Keyed κ α) (k : κ) (a : α) :
    (t.set k a).toList = t.toList.set (Key.index k) a := by
  simp [set, toList]

@[simp] theorem size_set (t : Keyed κ α) (k : κ) (a : α) : (t.set k a).size = t.size := by
  simp [set, size]

@[simp] theorem size_modify (t : Keyed κ α) (k : κ) (f : α → α) :
    (t.modify k f).size = t.size := by
  unfold modify; split <;> simp

@[simp] theorem size_push (t : Keyed κ α) (a : α) : (t.push a).2.size = t.size + 1 := by
  simp [push, size]

theorem get?_push (t : Keyed κ α) (a : α) (k : κ) :
    (t.push a).2.get? k = if Key.index k = t.size then some a else t.get? k := by
  show (t.entries.push a)[Key.index k]? = _
  rw [Array.getElem?_push]; rfl

theorem get?_set (t : Keyed κ α) (k l : κ) (a : α) :
    (t.set k a).get? l =
      if Key.index k = Key.index l ∧ t.has l then some a else t.get? l := by
  simp only [has_iff, set, get?, Array.getElem?_setIfInBounds]
  by_cases h : Key.index k = Key.index l
  · by_cases hl : Key.index l < t.entries.size <;> simp [h, hl]
  · simp [h]

theorem get?_modify (t : Keyed κ α) (k l : κ) (f : α → α) :
    (t.modify k f).get? l =
      if Key.index k = Key.index l then (t.get? l).map f else t.get? l := by
  unfold modify
  by_cases h : Key.index k = Key.index l
  · have hkl : t.get? k = t.get? l := by simp [get?, h]
    cases hl : t.get? l with
    | none => simp [h, hkl, hl]
    | some a =>
      have : t.has l = true := by rw [← get?_isSome, hl]; rfl
      simp [h, hkl, hl, get?_set, this]
  · cases hk : t.get? k with
    | none => simp [h]
    | some a => simp [h, get?_set]

/-- A table is determined by its entries. -/
theorem ext_get? {t u : Keyed κ α} (h : ∀ k, t.get? k = u.get? k) : t = u := by
  obtain ⟨xs⟩ := t
  obtain ⟨ys⟩ := u
  congr 1
  apply Array.ext_getElem?
  intro n
  simpa [get?, Key.index_ofIndex] using h (Key.ofIndex n)

theorem modify_comm (t : Keyed κ α) (k l : κ) {f g : α → α} (h : ∀ a, f (g a) = g (f a)) :
    (t.modify k f).modify l g = (t.modify l g).modify k f := by
  apply ext_get?
  intro m
  simp only [get?_modify]
  by_cases hl : Key.index l = Key.index m
  · by_cases hk : Key.index k = Key.index m
    · simp [hl, hk, Function.comp_def, h]
    · simp [hl, hk]
  · simp [hl]

end Keyed

end BoundsSolver
