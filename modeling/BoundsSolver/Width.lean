/-
# Integers of limited width

Values of variables, offsets and parameters are 32-bit integers, sums of
products are 64-bit integers, and positions are 64-bit numbers without a sign.
A `Width` is such a range.  Its arithmetic is exact or a fault; `clamp` is the
arithmetic that stops at the ends of the range instead.
-/

import BoundsSolver.Fault

namespace BoundsSolver

/-- A range of representable integers. -/
structure Width where
  lo : Int
  hi : Int
  deriving DecidableEq, Repr

namespace Width

/-- Values of variables: 32 bits with a sign. -/
def value : Width := ⟨-2147483648, 2147483647⟩

/-- Sums of products of values: 64 bits with a sign. -/
def sum : Width := ⟨-9223372036854775808, 9223372036854775807⟩

/-- Positions and counts: 64 bits without a sign. -/
def index : Width := ⟨0, 18446744073709551615⟩

/-- The integer has a representation. -/
def Fits (w : Width) (v : Int) : Prop := w.lo ≤ v ∧ v ≤ w.hi

instance (w : Width) (v : Int) : Decidable (w.Fits v) := inferInstanceAs (Decidable (_ ∧ _))

/-- The representable integer nearest to `v`. -/
def clamp (w : Width) (v : Int) : Int := max w.lo (min w.hi v)

/-- The integer itself if it is representable, the given fault otherwise. -/
def check (w : Width) (v : Int) (otherwise : Fault) : Checked Int :=
  if w.Fits v then .ok v else .error otherwise

def add (w : Width) (a b : Int) : Checked Int := w.check (a + b) .addOverflow

def sub (w : Width) (a b : Int) : Checked Int := w.check (a - b) .subOverflow

def mul (w : Width) (a b : Int) : Checked Int := w.check (a * b) .mulOverflow

def neg (w : Width) (a : Int) : Checked Int := w.check (-a) .negOverflow

/-- The quotient rounded down. -/
def floorDiv (w : Width) (a b : Int) : Checked Int := w.check (Int.fdiv a b) .divOverflow

/-- The quotient rounded up. -/
def ceilDiv (w : Width) (a b : Int) : Checked Int := w.check (-Int.fdiv (-a) b) .divOverflow

/-- The bits of `v` that the width keeps, read as an integer of that width. -/
def wrap (w : Width) (v : Int) : Int :=
  if w.Fits v then v else w.lo + (v - w.lo) % (w.hi - w.lo + 1)

theorem check_eq_ok {w : Width} {v u : Int} {f : Fault} :
    w.check v f = .ok u ↔ w.Fits v ∧ v = u := by
  unfold check; split <;> simp_all

theorem check_eq_error {w : Width} {v : Int} {f g : Fault} :
    w.check v f = .error g ↔ ¬ w.Fits v ∧ f = g := by
  unfold check; split <;> simp_all

theorem add_eq_ok {w : Width} {a b c : Int} : w.add a b = .ok c ↔ w.Fits (a + b) ∧ a + b = c :=
  check_eq_ok

theorem sub_eq_ok {w : Width} {a b c : Int} : w.sub a b = .ok c ↔ w.Fits (a - b) ∧ a - b = c :=
  check_eq_ok

theorem neg_eq_ok {w : Width} {a c : Int} : w.neg a = .ok c ↔ w.Fits (-a) ∧ -a = c :=
  check_eq_ok

theorem clamp_eq_self {w : Width} {v : Int} (h : w.Fits v) : w.clamp v = v := by
  unfold Fits at h; unfold clamp; omega

theorem wrap_eq_self {w : Width} {v : Int} (h : w.Fits v) : w.wrap v = v := if_pos h

/-- One less than a position, which the first position does not have. -/
def predecessor : Nat → Checked Nat
  | 0 => .error .subOverflow
  | n + 1 => .ok n

end Width

namespace Interval

/-- Both bounds moved by `offset`; a bound stops at the ends of the value range. -/
def shifted (i : Interval) (offset : Int) : Interval :=
  ⟨Width.value.clamp (i.min + offset), Width.value.clamp (i.max + offset)⟩

/-- The interval that holds every value. -/
def full : Interval := ⟨Width.value.lo, Width.value.hi⟩

/-- Both bounds are values. -/
def Fits (i : Interval) : Prop := Width.value.Fits i.min ∧ Width.value.Fits i.max

instance (i : Interval) : Decidable i.Fits := inferInstanceAs (Decidable (_ ∧ _))

theorem shifted_eq {i : Interval} {o : Int} (h : Width.value.Fits (i.min + o))
    (h' : Width.value.Fits (i.max + o)) : i.shifted o = ⟨i.min + o, i.max + o⟩ := by
  simp [shifted, Width.clamp_eq_self h, Width.clamp_eq_self h']

end Interval

namespace Decision

/-- The branch in which the decision does not hold. -/
def alternative : Decision → Checked Branch
  | .atMost d v => do return ⟨d, .min, ← Width.value.add v 1⟩
  | .atLeast d v => do return ⟨d, .max, ← Width.value.sub v 1⟩

end Decision

end BoundsSolver
