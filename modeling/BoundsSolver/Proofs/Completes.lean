/-
# Faults of arithmetic

Sums, products and differences that have no representation are faults that a user of the
solver has to reckon with; all others say that something is wrong with the solver itself, that
it reads what is not there or goes on for ever.  A computation `Completes` if it comes to an
answer or to a fault of the first kind, and it does so if each of its parts does.

What a computation comes to is decided by evaluating it: an answer of which something holds
(`decidableAnswer`), or one of which only a part is known beforehand (`decidableLeaves`).
-/

import BoundsSolver.Width

namespace BoundsSolver

/-- An arithmetic result has no representation. -/
def Fault.isArithmetic : Fault → Bool
  | .addOverflow | .subOverflow | .mulOverflow | .negOverflow | .divOverflow => true
  | .outOfBounds .. | .rangeOutOfBounds .. | .emptyRange | .noVariable _ | .noDistance ..
  | .noSplit .. | .crossedBounds | .workerStopped | .endless => false

/-- The computation comes to an answer, or to a fault of arithmetic. -/
def Completes {α : Type} (x : Checked α) : Prop := ∀ f, x = .error f → f.isArithmetic = true

variable {α β : Type} {x : Checked α} {g : α → Checked β} {w : Width} {f : Fault} {a b : Int}

namespace Completes

theorem ok (a : α) : Completes (.ok a) := fun _ h => nomatch h

theorem error (hf : f.isArithmetic = true) : Completes (.error f : Checked α) := by
  intro f' h
  obtain rfl := Except.error.inj h
  exact hf

/-- A computation in two parts completes if both parts do. -/
theorem bind (hx : Completes x) (hg : ∀ a, x = .ok a → Completes (g a)) : Completes (x >>= g) := by
  cases x with
  | error f => exact error (hx f rfl)
  | ok a => exact hg a rfl

theorem foldlM {γ : Type} {g : γ → α → Checked γ} (hg : ∀ c a, Completes (g c a)) (as : List α)
    (c : γ) : Completes (as.foldlM g c) := by
  induction as generalizing c with
  | nil => exact ok c
  | cons a as ih => exact (hg c a).bind fun c' _ => ih c'

theorem mapM {g : α → Checked β} (hg : ∀ a, Completes (g a)) (as : List α) :
    Completes (as.mapM g) := by
  induction as with
  | nil => exact ok []
  | cons a as ih =>
    rw [List.mapM_cons]
    exact (hg a).bind fun b _ => ih.bind fun bs _ => ok (b :: bs)

end Completes

/-! ### Evaluation -/

section Evaluation

variable {ε : Type} {P : α → Prop} {Q : β → Prop} {x : Except ε α} {y : Except ε (α × β)}

instance decidableAnswer [DecidablePred P] : Decidable (∃ a, x = .ok a ∧ P a) :=
  match x with
  | .error _ => isFalse fun ⟨_, h, _⟩ => nomatch h
  | .ok a => decidable_of_iff (P a) (by simp)

/-- The answer has two parts, and the first is known. -/
instance decidableLeaves [DecidableEq α] [DecidablePred Q] {a : α} :
    Decidable (∃ b, y = .ok (a, b) ∧ Q b) :=
  match y with
  | .error _ => isFalse fun ⟨_, h, _⟩ => nomatch h
  | .ok (a', b) => decidable_of_iff (a' = a ∧ Q b) (by simp [and_assoc])

instance decidableLeavesAny [DecidableEq α] {a : α} : Decidable (∃ b, y = .ok (a, b)) :=
  decidable_of_iff (∃ b, y = .ok (a, b) ∧ True) (by simp)

end Evaluation

/-! ### Integers of limited width -/

namespace Width

theorem check_completes (hf : f.isArithmetic = true) (v : Int) : Completes (w.check v f) := by
  unfold check
  split
  · exact .ok v
  · exact .error hf

theorem add_completes (w : Width) (a b : Int) : Completes (w.add a b) := check_completes rfl _

theorem sub_completes (w : Width) (a b : Int) : Completes (w.sub a b) := check_completes rfl _

theorem neg_completes (w : Width) (a : Int) : Completes (w.neg a) := check_completes rfl _

theorem floorDiv_completes (w : Width) (a b : Int) : Completes (w.floorDiv a b) :=
  check_completes rfl _

theorem ceilDiv_completes (w : Width) (a b : Int) : Completes (w.ceilDiv a b) :=
  check_completes rfl _

end Width

theorem Decision.alternative_completes (d : Decision) : Completes d.alternative := by
  cases d with
  | atMost d v => exact (Width.value.add_completes v 1).bind fun _ _ => .ok _
  | atLeast d v => exact (Width.value.sub_completes v 1).bind fun _ _ => .ok _

end BoundsSolver
