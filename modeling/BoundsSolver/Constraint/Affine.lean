/-
# Linear equations and inequalities

The parameters are the coefficients followed by the right-hand side, so that
`a₁ x₁ + … + aₙ xₙ = c` has `n + 1` of them.  Every term is confined to what the
other terms leave of the right-hand side.

Narrowing a term of an inequality does not change its least value, hence one
pass settles it.  Narrowing a term of an equation changes the room of the
others, hence passes are repeated until one changes nothing; `sweep_shrinks` is
why that comes to an end.  Sums are exact in 64 bits or a fault.
-/

import BoundsSolver.Constraint.Status

namespace BoundsSolver
namespace Affine

/-- The coefficients and the right-hand side; without parameters the latter is zero. -/
def split (parameters : List Int) : List Int × Int :=
  (parameters.dropLast, parameters.getLastD 0)

/-- The least value of `a * x` for `x` in the interval. -/
def termMin (a : Int) (i : Interval) : Int := if 0 ≤ a then a * i.min else a * i.max

/-- The greatest value of `a * x` for `x` in the interval. -/
def termMax (a : Int) (i : Interval) : Int := if 0 ≤ a then a * i.max else a * i.min

/-- The sum of `term` over the coefficients and the intervals at the same positions. -/
def total (term : Int → Interval → Int) (as : List Int) (is : List Interval) : Checked Int :=
  (as.zip is).foldlM (fun acc t => Width.sum.add acc (term t.1 t.2)) 0

/-- One variable of an inequality, confined to what the least values of the other
terms leave; `low` is the sum of the least values of all terms. -/
def capTerm (rhs low a : Int) (i : Interval) : Checked Interval :=
  if a = 0 then .ok i
  else do
    let slack ← Width.sum.sub rhs (← Width.sum.sub low (termMin a i))
    if 0 < a then
      return i.tightenMax (Width.value.clamp (← Width.sum.floorDiv slack a))
    else
      return i.tightenMin (Width.value.clamp (← Width.sum.ceilDiv slack a))

/-- Every variable of an inequality confined in turn. -/
def capTerms (rhs low : Int) : List Int → List Interval → Checked (List Interval)
  | a :: as, i :: is => do
    let j ← capTerm rhs low a i
    let js ← capTerms rhs low as is
    return j :: js
  | _, is => .ok is

/-- Narrows the variables of `a₁ x₁ + … + aₙ xₙ ≤ c`. -/
def atMost (bounds : List Interval) (parameters : List Int) : Checked Narrowing := do
  let (as, rhs) := split parameters
  let low ← total termMin as bounds
  if rhs < low then return ⟨.inconsistent, bounds⟩
  let high ← total termMax as bounds
  if high ≤ rhs then return ⟨.entailed, bounds⟩
  return ⟨.consistent, ← capTerms rhs low as bounds⟩

/-- One variable of an equation, confined to what the ranges of the other terms
leave; `low` and `high` are the ends of the range of the whole sum. -/
def fitTerm (rhs a : Int) (i : Interval) (low high : Int) : Checked Interval := do
  let least ← Width.sum.sub rhs (← Width.sum.sub high (termMax a i))
  let most ← Width.sum.sub rhs (← Width.sum.sub low (termMin a i))
  if 0 < a then
    let min ← Width.sum.ceilDiv least a
    let max ← Width.sum.floorDiv most a
    return (i.tightenMin (Width.value.clamp min)).tightenMax (Width.value.clamp max)
  else
    let min ← Width.sum.ceilDiv most a
    let max ← Width.sum.floorDiv least a
    return (i.tightenMin (Width.value.clamp min)).tightenMax (Width.value.clamp max)

/-- The outcome of one pass over the terms of an equation. -/
inductive Sweep where
  /-- A variable lost its last value; those after it are as they were. -/
  | emptied (bounds : List Interval)
  /-- The narrowed variables, and the ends of the range of their sum. -/
  | swept (bounds : List Interval) (low high : Int)

namespace Sweep

def cons (i : Interval) : Sweep → Sweep
  | .emptied is => .emptied (i :: is)
  | .swept is low high => .swept (i :: is) low high

theorem cons_eq_swept {i : Interval} {s : Sweep} {js : List Interval} {l h : Int} :
    s.cons i = .swept js l h ↔ ∃ is, s = .swept is l h ∧ js = i :: is := by
  cases s with
  | emptied is => simp [cons]
  | swept is a b =>
    simp only [cons, swept.injEq]
    constructor
    · rintro ⟨rfl, rfl, rfl⟩; exact ⟨is, ⟨rfl, rfl, rfl⟩, rfl⟩
    · rintro ⟨_, ⟨rfl, rfl, rfl⟩, rfl⟩; exact ⟨rfl, rfl, rfl⟩

end Sweep

/-- One pass over the terms of an equation; the range of the sum follows each
narrowed term. -/
def sweep (rhs : Int) : List Int → List Interval → Int → Int → Checked Sweep
  | a :: as, i :: is, low, high =>
    if a = 0 then do
      let s ← sweep rhs as is low high
      return s.cons i
    else do
      let j ← fitTerm rhs a i low high
      if j.isEmpty then
        return .emptied (j :: is)
      else do
        let low ← Width.sum.add low (← Width.sum.sub (termMin a j) (termMin a i))
        let high ← Width.sum.add high (← Width.sum.sub (termMax a j) (termMax a i))
        let s ← sweep rhs as is low high
        return s.cons j
  | _, is, low, high => .ok (.swept is low high)

theorem fitTerm_isWithin {rhs a : Int} {i j : Interval} {low high : Int}
    (h : fitTerm rhs a i low high = .ok j) : j.isWithin i := by
  unfold fitTerm at h
  obtain ⟨_, _, h⟩ := bind_eq_ok.1 h
  obtain ⟨_, _, h⟩ := bind_eq_ok.1 h
  obtain ⟨_, _, h⟩ := bind_eq_ok.1 h
  obtain ⟨_, _, h⟩ := bind_eq_ok.1 h
  split at h <;>
  · obtain ⟨_, _, h⟩ := bind_eq_ok.1 h
    obtain ⟨_, _, h⟩ := bind_eq_ok.1 h
    obtain rfl := Except.ok.inj h
    exact Interval.isWithin_trans (Interval.tightenMax_isWithin _ _)
      (Interval.tightenMin_isWithin _ _)

/-- **A pass makes progress or changes nothing.** -/
theorem sweep_shrinks {rhs : Int} {as : List Int} {is js : List Interval} {low high l h : Int}
    (e : sweep rhs as is low high = .ok (.swept js l h)) : Shrinks js is := by
  induction as generalizing is js low high with
  | nil =>
    simp only [sweep, Except.ok.injEq, Sweep.swept.injEq] at e
    exact .inl e.1.symm
  | cons a as ih =>
    cases is with
    | nil =>
      simp only [sweep, Except.ok.injEq, Sweep.swept.injEq] at e
      exact .inl e.1.symm
    | cons i is =>
      unfold sweep at e
      split at e
      · obtain ⟨s, hs, e⟩ := bind_eq_ok.1 e
        obtain ⟨ks, rfl, rfl⟩ := Sweep.cons_eq_swept.1 (Except.ok.inj e)
        exact .cons (.refl i) (ih hs)
      · obtain ⟨j, hj, e⟩ := bind_eq_ok.1 e
        split at e
        · cases Except.ok.inj e
        · rename_i hne
          obtain ⟨_, _, e⟩ := bind_eq_ok.1 e
          obtain ⟨_, _, e⟩ := bind_eq_ok.1 e
          obtain ⟨_, _, e⟩ := bind_eq_ok.1 e
          obtain ⟨_, _, e⟩ := bind_eq_ok.1 e
          obtain ⟨s, hs, e⟩ := bind_eq_ok.1 e
          obtain ⟨ks, rfl, rfl⟩ := Sweep.cons_eq_swept.1 (Except.ok.inj e)
          exact .cons (Interval.shrinks_of_isWithin (fitTerm_isWithin hj) (by simpa using hne))
            (ih hs)

/-- Passes over the terms of an equation until one changes nothing; `low` and
`high` are the ends of the range of the sum. -/
def settle (rhs : Int) (as : List Int) (is : List Interval) (low high : Int) :
    Checked Narrowing :=
  if rhs < low ∨ high < rhs then .ok ⟨.inconsistent, is⟩
  else if low = high then .ok ⟨.entailed, is⟩
  else
    match _e : sweep rhs as is low high with
    | .error f => .error f
    | .ok (.emptied js) => .ok ⟨.inconsistent, js⟩
    | .ok (.swept js l h) => if js = is then .ok ⟨.consistent, js⟩ else settle rhs as js l h
termination_by totalSize is
decreasing_by exact (sweep_shrinks _e).totalSize_lt ‹_›

/-- Narrows the variables of `a₁ x₁ + … + aₙ xₙ = c`. -/
def equal (bounds : List Interval) (parameters : List Int) : Checked Narrowing := do
  let (as, rhs) := split parameters
  let low ← total termMin as bounds
  let high ← total termMax as bounds
  settle rhs as bounds low high

end Affine
end BoundsSolver
