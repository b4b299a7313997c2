/-
# Shaving

A stronger consistency: each bound of each shared domain with several values is
tried out, by committing to it and propagating.  A bound whose trial fails is in
no solution and is removed, and the next value at that end is tried.  Passes over
all shared domains are repeated until one removes nothing.

A trial leaves the box and the entailed propagators as they were; a removed
value is gone for good, which is `shaveBound_totalSize` and the reason why the
passes come to an end.
-/

import BoundsSolver.Search.Propagation

namespace BoundsSolver

/-- Commits to a branch, propagates, and undoes everything; the answer is whether
propagation succeeded. -/
def trial (n : Network) (s : State) (branch : Branch) : Checked (Bool × State) := do
  let (consistent, t) ← propagate n (s.narrow n branch)
  return (consistent, { t with box := s.box, entailed := s.entailed })

/-- The value next to a bound, further in. -/
def nextInwards (b : Bound) (value : Int) : Checked Int :=
  match b with
  | .min => Width.value.add value 1
  | .max => Width.value.sub value 1

/-- Removes a value from the end of a shared domain where it is, and propagates. -/
def shaveValue (n : Network) (s : State) (d : DomainId) (b : Bound) (value : Int) :
    Checked (Bool × State) := do
  let s := (s.tell (.shaving value d)).count fun c => { c with shavedValues := c.shavedValues + 1 }
  let next ← nextInwards b value
  propagate n (s.narrow n ⟨d, b, next⟩)

theorem tighten_nextInwards_ne {i : Interval} {b : Bound} {v : Int}
    (hv : nextInwards b (i.get b) = .ok v) : i.tighten b v ≠ i := by
  intro he
  cases b
  · obtain ⟨_, rfl⟩ := Width.add_eq_ok.1 hv
    have := congrArg Interval.min he
    simp only [Interval.tighten, Interval.get, Interval.tightenMin_min] at this
    omega
  · obtain ⟨_, rfl⟩ := Width.sub_eq_ok.1 hv
    have := congrArg Interval.max he
    simp only [Interval.tighten, Interval.get, Interval.tightenMax_max] at this
    omega

/-- **A removed value is gone.** -/
theorem shaveValue_totalSize {n : Network} {s t : State} {d : DomainId} {b : Bound}
    (hi : (s.box.entry d).min < (s.box.entry d).max)
    (h : shaveValue n s d b ((s.box.entry d).get b) = .ok (true, t)) :
    t.box.totalSize < s.box.totalSize := by
  obtain ⟨v, hv, h⟩ := bind_eq_ok.1 h
  have hle := propagate_totalSize_le h
  have hlt := Box.totalSize_tighten_lt hi (tighten_nextInwards_ne hv)
  exact Nat.lt_of_le_of_lt hle hlt

theorem trial_box {n : Network} {s t : State} {branch : Branch} {b : Bool}
    (h : trial n s branch = .ok (b, t)) : t.box = s.box := by
  obtain ⟨⟨_, u⟩, _, h⟩ := bind_eq_ok.1 h
  obtain ⟨_, rfl⟩ := by simpa [pure, Except.pure] using h
  rfl

/-- Removes values at one end of a shared domain until one survives its trial. -/
def shaveBound (n : Network) (s : State) (d : DomainId) (b : Bound) (shaved : Bool) :
    Checked Outcome :=
  let i := s.box.entry d
  if _hi : i.max ≤ i.min then .ok ⟨true, shaved, s⟩
  else
    let value := i.get b
    let counted := s.count fun c => { c with shavingTrials := c.shavingTrials + 1 }
    match _ht : trial n counted ⟨d, b.opposite, value⟩ with
    | .error f => .error f
    | .ok (true, t) => .ok ⟨true, shaved, t⟩
    | .ok (false, t) =>
      match _hs : shaveValue n t d b value with
      | .error f => .error f
      | .ok (false, u) => .ok ⟨false, true, u⟩
      | .ok (true, u) => shaveBound n u d b true
termination_by s.box.totalSize
decreasing_by
  have hbox : t.box = counted.box := trial_box _ht
  have hbox : t.box = s.box := hbox
  rw [← hbox]
  exact shaveValue_totalSize (by rw [hbox]; exact Int.not_le.1 _hi) (by rw [hbox]; exact _hs)

/-- Shaves the ends of several shared domains in turn, as long as that succeeds. -/
def shavePass (n : Network) : List (DomainId × Bound) → State → Bool → Checked Outcome
  | [], s, shaved => .ok ⟨true, shaved, s⟩
  | (d, b) :: ends, s, shaved => do
    let o ← shaveBound n s d b false
    if o.kept then shavePass n ends o.state (shaved || o.changed) else return o

/-- Both ends of every shared domain, in order. -/
def allEnds (b : Box) : List (DomainId × Bound) :=
  b.keys.flatMap fun d => [(d, .min), (d, .max)]

theorem shaveBound_totalSize {n : Network} {s : State} {d : DomainId} {b : Bound}
    {shaved : Bool} {o : Outcome} (h : shaveBound n s d b shaved = .ok o) (hk : o.kept = true) :
    o.state.box.totalSize < s.box.totalSize ∨
      o.state.box.totalSize = s.box.totalSize ∧ o.changed = shaved := by
  fun_induction shaveBound n s d b shaved with
  | case1 => obtain rfl := Except.ok.inj h; exact .inr ⟨rfl, rfl⟩
  | case2 => cases h
  | case3 s shaved i _ value counted t ht =>
    obtain rfl := Except.ok.inj h
    exact .inr ⟨by rw [trial_box ht]; rfl, rfl⟩
  | case4 => cases h
  | case5 => obtain rfl := Except.ok.inj h; cases hk
  | case6 s shaved i hi value counted t ht u hs ih =>
    have hbox : t.box = counted.box := trial_box ht
    have hbox : t.box = s.box := hbox
    have hlt : u.box.totalSize < s.box.totalSize := by
      rw [← hbox]
      exact shaveValue_totalSize (by rw [hbox]; exact Int.not_le.1 hi) (by rw [hbox]; exact hs)
    rcases ih h with h' | ⟨h', _⟩ <;> exact .inl (by omega)

theorem shavePass_totalSize {n : Network} {ends : List (DomainId × Bound)} {s : State}
    {shaved : Bool} {o : Outcome} (h : shavePass n ends s shaved = .ok o) (hk : o.kept = true) :
    o.state.box.totalSize < s.box.totalSize ∨
      o.state.box.totalSize = s.box.totalSize ∧ o.changed = shaved := by
  induction ends generalizing s shaved with
  | nil => obtain rfl := Except.ok.inj h; exact .inr ⟨rfl, rfl⟩
  | cons e ends ih =>
    obtain ⟨o', ho', h⟩ := bind_eq_ok.1 h
    split at h
    · rename_i hk'
      rcases shaveBound_totalSize ho' hk' with h₁ | ⟨h₁, hc⟩
      · rcases ih h with h₂ | ⟨h₂, _⟩ <;> exact .inl (by omega)
      · rcases ih h with h₂ | ⟨h₂, hc'⟩
        · exact .inl (by omega)
        · exact .inr ⟨by omega, by rw [hc', hc, Bool.or_false]⟩
    · rename_i hk'
      obtain rfl := Except.ok.inj h
      exact absurd hk hk'

/-- Passes over all shared domains until one removes nothing; the answer is false if
removing a value leads to a failure. -/
def shave (n : Network) (s : State) : Checked (Bool × State) :=
  match _e : shavePass n (allEnds s.box) s false with
  | .error f => .error f
  | .ok ⟨false, _, t⟩ => .ok (false, t)
  | .ok ⟨true, false, t⟩ => .ok (true, t)
  | .ok ⟨true, true, t⟩ => shave n t
termination_by s.box.totalSize
decreasing_by
  rcases shavePass_totalSize _e rfl with h | ⟨_, h⟩
  · exact h
  · cases h

theorem shave_totalSize_le {n : Network} {s t : State} (h : shave n s = .ok (true, t)) :
    t.box.totalSize ≤ s.box.totalSize := by
  fun_induction shave n s with
  | case1 => cases h
  | case2 => simp at h
  | case3 s u he =>
    obtain rfl : u = t := by simpa using h
    rcases shavePass_totalSize he rfl with h' | ⟨h', _⟩ <;> dsimp only at h' <;> omega
  | case4 s u he ih =>
    have := ih h
    rcases shavePass_totalSize he rfl with h' | ⟨h', _⟩ <;> dsimp only at h' <;> omega

end BoundsSolver
