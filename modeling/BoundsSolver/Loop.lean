/-
# Loops

A loop takes turns.  A turn either comes to an end or says from where the next one goes on.
`Loop turn k a r` says that the loop which starts at `a` ends after `k` turns with `r`: such a
derivation is finite.

Most loops have something that falls with every turn, and recurse on that.  `Turn.iterate` is for
those of which nobody can tell beforehand whether they end.  Its result comes with a proof that it
is what the loop ends with, or the fault `endless` if the loop has no end.
-/

import BoundsSolver.Fault

namespace BoundsSolver

/-- What a turn of a loop comes to. -/
inductive Turn (α β : Type) where
  | again (a : α)
  | done (b : β)

variable {α β : Type} {turn : α → Checked (Turn α β)} {a b : α} {k : Nat} {r : Checked β}

/-- The loop that starts at a point ends after so many turns. -/
inductive Loop (turn : α → Checked (Turn α β)) : Nat → α → Checked β → Prop
  | fault {a : α} {e : Fault} : turn a = .error e → Loop turn 1 a (.error e)
  | done {a : α} {b : β} : turn a = .ok (.done b) → Loop turn 1 a (.ok b)
  | again {a b : α} {k : Nat} {r : Checked β} :
    turn a = .ok (.again b) → Loop turn k b r → Loop turn (k + 1) a r

/-- The loop that starts at a point ends, with some result. -/
def Ends (turn : α → Checked (Turn α β)) (a : α) : Prop := ∃ k r, Loop turn k a r

/-- The result is what the loop that starts at a point ends with, or the fault of a loop without
an end. -/
def ComesTo (turn : α → Checked (Turn α β)) (a : α) (r : Checked β) : Prop :=
  (∃ k, Loop turn k a r) ∨ ¬ Ends turn a ∧ r = .error .endless

theorem ends_of_again (h : turn a = .ok (.again b)) (ha : Ends turn a) : Ends turn b := by
  obtain ⟨k, r, hloop⟩ := ha
  cases hloop with
  | fault h' => cases h.symm.trans h'
  | done h' => cases h.symm.trans h'
  | again h' hrest =>
    obtain rfl := Turn.again.inj (Except.ok.inj (h.symm.trans h'))
    exact ⟨_, r, hrest⟩

/-- A loop comes to what the rest of it comes to. -/
theorem ComesTo.again (h : turn a = .ok (.again b)) (hr : ComesTo turn b r) :
    ComesTo turn a r := by
  rcases hr with ⟨k, hloop⟩ | ⟨hb, rfl⟩
  · exact .inl ⟨k + 1, .again h hloop⟩
  · exact .inr ⟨fun ha => hb (ends_of_again h ha), rfl⟩

instance (turn : α → Checked (Turn α β)) (a : α) : Nonempty { r // ComesTo turn a r } := by
  by_cases h : Ends turn a
  · obtain ⟨k, r, hloop⟩ := h
    exact ⟨r, .inl ⟨k, hloop⟩⟩
  · exact ⟨.error .endless, .inr ⟨h, rfl⟩⟩

/-- What a loop comes to, with the proof that it does. -/
def Turn.outcome (turn : α → Checked (Turn α β)) (a : α) : { r // ComesTo turn a r } :=
  WellFounded.partialExtrinsicFix (C := fun a => { r // ComesTo turn a r })
    (fun b a => turn a = .ok (.again b))
    (fun a goOn =>
      match h : turn a with
      | .error e => ⟨.error e, .inl ⟨1, .fault h⟩⟩
      | .ok (.done b) => ⟨.ok b, .inl ⟨1, .done h⟩⟩
      | .ok (.again b) => ⟨(goOn b h).1, .again h (goOn b h).2⟩) a

/-- What a loop comes to. -/
def Turn.iterate (turn : α → Checked (Turn α β)) (a : α) : Checked β := (Turn.outcome turn a).1

theorem Turn.iterate_comesTo (turn : α → Checked (Turn α β)) (a : α) :
    ComesTo turn a (Turn.iterate turn a) :=
  (Turn.outcome turn a).2

end BoundsSolver
