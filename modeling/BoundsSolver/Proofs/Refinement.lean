/-
# Machines that answer alike

A machine is given by what one operation answers and by the state after it.  If every
operation keeps a relation between the states of two machines, and both answer it in the
same way, then any sequence of operations gets the same answers from both
(`runAll_refines`).
-/

namespace BoundsSolver

/-- The answers to several operations, one after the other, and the state at the end. -/
def runAll {α ρ σ : Type} (step : α → σ → ρ × σ) : List α → σ → List ρ × σ
  | [], s => ([], s)
  | a :: as, s =>
    let (r, s) := step a s
    let (rs, s) := runAll step as s
    (r :: rs, s)

variable {α ρ σ τ : Type} {f : α → σ → ρ × σ} {g : α → τ → ρ × τ} {R : σ → τ → Prop}

/-- What one operation keeps, all keep. -/
theorem runAll_refines (hstep : ∀ a s t, R s t → (f a s).1 = (g a t).1 ∧ R (f a s).2 (g a t).2)
    (as : List α) {s : σ} {t : τ} (h : R s t) :
    (runAll f as s).1 = (runAll g as t).1 ∧ R (runAll f as s).2 (runAll g as t).2 := by
  induction as generalizing s t with
  | nil => exact ⟨rfl, h⟩
  | cons a as ih =>
    obtain ⟨hanswer, hnext⟩ := hstep a s t h
    obtain ⟨hanswers, hend⟩ := ih hnext
    exact ⟨List.cons_eq_cons.2 ⟨hanswer, hanswers⟩, hend⟩

end BoundsSolver
