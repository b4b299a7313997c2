/-
# Intervals of integers

A domain is kept as its two bounds.  An interval whose lower bound exceeds its
upper bound is empty, and is a legal value: emptiness is how a failed
propagation shows.

Tightening a bound moves it inwards or not at all.  `size_lt_of_isWithin` turns
that into progress: an interval that lies within a non-empty one and differs
from it holds fewer integers.  `Shrinks` carries the same fact to lists, where
it is the measure of every propagation loop.
-/

namespace BoundsSolver

/-- One of the two bounds of an interval. -/
inductive Bound where
  | min
  | max
  deriving DecidableEq, Hashable, Repr, Inhabited

namespace Bound

/-- The other bound. -/
def opposite : Bound → Bound
  | .min => .max
  | .max => .min

end Bound

/-- The integers from `min` to `max`, none if `max < min`. -/
structure Interval where
  min : Int
  max : Int
  deriving DecidableEq, Hashable, Repr, Inhabited

namespace Interval

/-- The interval that holds one value. -/
def singleton (value : Int) : Interval := ⟨value, value⟩

/-- No value lies between the bounds. -/
def isEmpty (i : Interval) : Bool := decide (i.max < i.min)

/-- Exactly one value lies between the bounds. -/
def isFixed (i : Interval) : Bool := decide (i.min = i.max)

def contains (i : Interval) (value : Int) : Bool := decide (i.min ≤ value ∧ value ≤ i.max)

/-- Each interval starts no later than the other ends. -/
def intersects (i j : Interval) : Bool := decide (i.min ≤ j.max ∧ j.min ≤ i.max)

/-- Both bounds lie between the bounds of `j`, or beyond them on the inner side. -/
def isWithin (i j : Interval) : Bool := decide (j.min ≤ i.min ∧ i.max ≤ j.max)

/-- The number of values. -/
def size (i : Interval) : Nat := (i.max - i.min + 1).toNat

def get (i : Interval) : Bound → Int
  | .min => i.min
  | .max => i.max

/-- Raises the lower bound to `value`, if that is higher. -/
def tightenMin (i : Interval) (value : Int) : Interval :=
  if i.min < value then { i with min := value } else i

/-- Lowers the upper bound to `value`, if that is lower. -/
def tightenMax (i : Interval) (value : Int) : Interval :=
  if value < i.max then { i with max := value } else i

/-- Moves one bound inwards to `value`, if `value` lies further in. -/
def tighten (i : Interval) : Bound → Int → Interval
  | .min, value => i.tightenMin value
  | .max, value => i.tightenMax value

/-- The interval with both bounds moved inwards to those of `j`. -/
def tightenTo (i j : Interval) : Interval := (i.tightenMin j.min).tightenMax j.max

/-- The bounds between brackets. -/
def display (i : Interval) : String := s!"[{i.min}, {i.max}]"

instance : ToString Interval := ⟨display⟩

theorem isEmpty_iff {i : Interval} : i.isEmpty = true ↔ i.max < i.min := by
  simp [isEmpty]

theorem isEmpty_eq_false_iff {i : Interval} : i.isEmpty = false ↔ i.min ≤ i.max := by
  simp [isEmpty]

theorem isFixed_iff {i : Interval} : i.isFixed = true ↔ i.min = i.max := by
  simp [isFixed]

theorem contains_iff {i : Interval} {v : Int} : i.contains v = true ↔ i.min ≤ v ∧ v ≤ i.max := by
  simp [contains]

theorem intersects_iff {i j : Interval} :
    i.intersects j = true ↔ i.min ≤ j.max ∧ j.min ≤ i.max := by
  simp [intersects]

theorem isWithin_iff {i j : Interval} : i.isWithin j = true ↔ j.min ≤ i.min ∧ i.max ≤ j.max := by
  simp [isWithin]

@[simp] theorem tightenMin_min (i : Interval) (v : Int) :
    (i.tightenMin v).min = Max.max i.min v := by
  grind [tightenMin]

@[simp] theorem tightenMin_max (i : Interval) (v : Int) : (i.tightenMin v).max = i.max := by
  unfold tightenMin; split <;> rfl

@[simp] theorem tightenMax_max (i : Interval) (v : Int) :
    (i.tightenMax v).max = Min.min i.max v := by
  grind [tightenMax]

@[simp] theorem tightenMax_min (i : Interval) (v : Int) : (i.tightenMax v).min = i.min := by
  unfold tightenMax; split <;> rfl

@[simp] theorem tightenTo_min (i j : Interval) :
    (i.tightenTo j).min = Max.max i.min j.min := by simp [tightenTo]

@[simp] theorem tightenTo_max (i j : Interval) :
    (i.tightenTo j).max = Min.min i.max j.max := by simp [tightenTo]

theorem ext {i j : Interval} (hmin : i.min = j.min) (hmax : i.max = j.max) : i = j := by
  cases i; cases j; simp_all

theorem tightenMin_eq_self {i : Interval} {v : Int} (h : v ≤ i.min) : i.tightenMin v = i :=
  ext (by simp; omega) (by simp)

theorem tightenMax_eq_self {i : Interval} {v : Int} (h : i.max ≤ v) : i.tightenMax v = i :=
  ext (by simp) (by simp; omega)

theorem tightenTo_eq_self {i j : Interval} (hmin : j.min ≤ i.min) (hmax : i.max ≤ j.max) :
    i.tightenTo j = i :=
  ext (by simp; omega) (by simp; omega)

theorem tightenMin_isWithin (i : Interval) (v : Int) : (i.tightenMin v).isWithin i := by
  rw [isWithin_iff, tightenMin_min, tightenMin_max]; omega

theorem tightenMax_isWithin (i : Interval) (v : Int) : (i.tightenMax v).isWithin i := by
  rw [isWithin_iff, tightenMax_max, tightenMax_min]; omega

theorem tighten_isWithin (i : Interval) (b : Bound) (v : Int) : (i.tighten b v).isWithin i := by
  cases b
  · exact tightenMin_isWithin i v
  · exact tightenMax_isWithin i v

/-- The order of two tightenings does not matter. -/
theorem tighten_comm (i : Interval) (b c : Bound) (v w : Int) :
    (i.tighten b v).tighten c w = (i.tighten c w).tighten b v := by
  cases b <;> cases c <;> apply ext <;> simp [tighten] <;> omega

@[simp] theorem isWithin_refl (i : Interval) : i.isWithin i := by simp [isWithin]

theorem isWithin_trans {i j k : Interval} (hij : i.isWithin j) (hjk : j.isWithin k) :
    i.isWithin k := by
  rw [isWithin_iff] at *; omega

theorem tightenTo_isWithin (i j : Interval) : (i.tightenTo j).isWithin i :=
  isWithin_trans (tightenMax_isWithin _ _) (tightenMin_isWithin _ _)

theorem size_le_of_isWithin {i j : Interval} (h : i.isWithin j) : i.size ≤ j.size := by
  rw [isWithin_iff] at h; simp only [size]; omega

/-- **Progress.**  Within a non-empty interval, only the interval itself is as
large. -/
theorem size_lt_of_isWithin {i j : Interval} (h : i.isWithin j) (hne : i ≠ j)
    (hj : j.isEmpty = false) : i.size < j.size := by
  rw [isWithin_iff] at h
  rw [isEmpty_eq_false_iff] at hj
  have : i.min ≠ j.min ∨ i.max ≠ j.max := by
    by_cases hmin : i.min = j.min
    · exact .inr fun hmax => hne (ext hmin hmax)
    · exact .inl hmin
  simp only [size]; omega

theorem isEmpty_eq_false_of_isWithin {i j : Interval} (h : i.isWithin j)
    (hi : i.isEmpty = false) : j.isEmpty = false := by
  rw [isWithin_iff] at h; rw [isEmpty_eq_false_iff] at *; omega

end Interval

/-- The number of values of all intervals together. -/
def totalSize : List Interval → Nat
  | [] => 0
  | i :: is => i.size + totalSize is

@[simp] theorem totalSize_nil : totalSize [] = 0 := rfl

@[simp] theorem totalSize_cons (i : Interval) (is : List Interval) :
    totalSize (i :: is) = i.size + totalSize is := rfl

theorem totalSize_set {is : List Interval} {n : Nat} {i j : Interval} (h : is[n]? = some i) :
    totalSize (is.set n j) + i.size = totalSize is + j.size := by
  induction is generalizing n with
  | nil => simp at h
  | cons k is ih =>
    cases n with
    | zero =>
      have hki : k = i := by simpa using h
      subst hki; simp; omega
    | succ n =>
      have := ih (n := n) (by simpa using h)
      simp; omega

/-- One interval is left as it was, or has fewer values. -/
def Interval.Shrinks (after before : Interval) : Prop :=
  after = before ∨ after.size < before.size

/-- The intervals are left as they were, or have fewer values together. -/
def Shrinks (after before : List Interval) : Prop :=
  after = before ∨ totalSize after < totalSize before

namespace Shrinks

theorem refl (is : List Interval) : Shrinks is is := .inl rfl

theorem trans {is js ks : List Interval} (h : Shrinks is js) (h' : Shrinks js ks) :
    Shrinks is ks := by
  rcases h with rfl | h
  · exact h'
  · rcases h' with rfl | h'
    · exact .inr h
    · exact .inr (by omega)

theorem cons {i j : Interval} {is js : List Interval} (h : i.Shrinks j) (hs : Shrinks is js) :
    Shrinks (i :: is) (j :: js) := by
  rcases h with rfl | h <;> rcases hs with rfl | hs
  · exact refl _
  · exact .inr (by simp; omega)
  · exact .inr (by simp; omega)
  · exact .inr (by simp; omega)

theorem totalSize_lt {is js : List Interval} (h : Shrinks is js) (hne : is ≠ js) :
    totalSize is < totalSize js := by
  rcases h with rfl | h
  · exact absurd rfl hne
  · exact h

end Shrinks

theorem Interval.Shrinks.refl (i : Interval) : i.Shrinks i := .inl rfl

theorem Interval.Shrinks.size_le {i j : Interval} (h : i.Shrinks j) : i.size ≤ j.size := by
  rcases h with rfl | h
  · exact Nat.le_refl _
  · omega

/-- An interval that stays non-empty while it is tightened shrinks. -/
theorem Interval.shrinks_of_isWithin {i j : Interval} (h : i.isWithin j)
    (hi : i.isEmpty = false) : i.Shrinks j := by
  by_cases hne : i = j
  · exact .inl hne
  · exact .inr (size_lt_of_isWithin h hne (isEmpty_eq_false_of_isWithin h hi))

end BoundsSolver
