/-
# What loops end with

A loop that ends does not go on for ever (`Loop.not_endless`), and has one result
(`Loop.unique`).  `Turn.iterate` computes it (`Loop.iterate_eq`), and comes to no answer where
there is none (`Turn.iterate_eq_ok_iff`).

A function that is one turn followed by itself computes it as well, provided that every turn
lowers a number, which bounds the turns (`endsWithin_of_measure`), also where only turns that
keep an invariant lower it (`Turn.iterate_endsWithin`).
-/

import BoundsSolver.Loop

namespace BoundsSolver

/-- Another turn goes on with the function. -/
def Turn.andThen {α β : Type} (f : α → Checked β) : Turn α β → Checked β
  | .again a => f a
  | .done b => .ok b

/-- Another turn, unless the condition holds. -/
def Turn.unless {α β : Type} (c : Prop) [Decidable c] (b : β) (a : α) : Turn α β :=
  if c then .done b else .again a

variable {α β : Type} {turn : α → Checked (Turn α β)} {f : α → Checked β} {a b : α} {k : Nat}
  {r : Checked β}

theorem Turn.unless_eq_again {c : Prop} [Decidable c] {b : β} {a a' : α} :
    Turn.unless c b a = .again a' ↔ ¬ c ∧ a = a' := by
  unfold Turn.unless
  split <;> simp_all

theorem Turn.andThen_unless (f : α → Checked β) (c : Prop) [Decidable c] (b : β) (a : α) :
    (Turn.unless c b a).andThen f = if c then .ok b else f a := by
  unfold Turn.unless
  split <;> rfl

/-- The loop that starts at a point ends, after as many turns at most. -/
def EndsWithin (turn : α → Checked (Turn α β)) (bound : Nat) (a : α) (r : Checked β) : Prop :=
  ∃ k ≤ bound, Loop turn k a r

/-- A loop that ends does not go on for ever. -/
theorem Loop.not_endless (h : Loop turn k a r) (path : Nat → α) (h0 : path 0 = a) :
    ∃ i, turn (path i) ≠ .ok (.again (path (i + 1))) := by
  induction h generalizing path with
  | fault hturn =>
    refine ⟨0, fun hnext => ?_⟩
    rw [h0, hturn] at hnext
    cases hnext
  | done hturn =>
    refine ⟨0, fun hnext => ?_⟩
    rw [h0, hturn] at hnext
    cases hnext
  | @again a b k r hturn _ ih =>
    by_cases hnext : path 1 = b
    · obtain ⟨i, hi⟩ := ih (fun i => path (i + 1)) hnext
      exact ⟨i + 1, hi⟩
    · refine ⟨0, fun hstep => hnext ?_⟩
      rw [h0, hturn] at hstep
      exact (Turn.again.inj (Except.ok.inj hstep)).symm

/-- What a loop ends with is determined by where it starts. -/
theorem Loop.unique {j : Nat} {r' : Checked β} (h : Loop turn k a r) (h' : Loop turn j a r') :
    r = r' := by
  induction h generalizing j with
  | fault hturn =>
    cases h' with
    | fault hturn' => exact congrArg Except.error (Except.error.inj (hturn.symm.trans hturn'))
    | done hturn' => cases hturn.symm.trans hturn'
    | again hturn' => cases hturn.symm.trans hturn'
  | done hturn =>
    cases h' with
    | fault hturn' => cases hturn.symm.trans hturn'
    | done hturn' =>
      exact congrArg Except.ok (Turn.done.inj (Except.ok.inj (hturn.symm.trans hturn')))
    | again hturn' => cases hturn.symm.trans hturn'
  | again hturn _ ih =>
    cases h' with
    | fault hturn' => cases hturn.symm.trans hturn'
    | done hturn' => cases hturn.symm.trans hturn'
    | again hturn' hloop' =>
      obtain rfl := Turn.again.inj (Except.ok.inj (hturn.symm.trans hturn'))
      exact ih hloop'

/-- **Taking turns computes what the loop ends with.** -/
theorem Loop.iterate_eq (h : Loop turn k a r) : Turn.iterate turn a = r := by
  rcases Turn.iterate_comesTo turn a with ⟨j, hloop⟩ | ⟨hendless, -⟩
  · exact hloop.unique h
  · exact absurd ⟨k, r, h⟩ hendless

/-- It comes to an answer only where the loop ends with it. -/
theorem Turn.iterate_eq_ok_iff {b : β} :
    Turn.iterate turn a = .ok b ↔ ∃ k, Loop turn k a (.ok b) := by
  constructor
  · intro h
    rcases Turn.iterate_comesTo turn a with hloop | ⟨-, hendless⟩
    · rw [h] at hloop
      exact hloop
    · cases h.symm.trans hendless
  · rintro ⟨k, hloop⟩
    exact hloop.iterate_eq

/-- **A loop whose turns lower a number ends within as many turns and one more.** -/
theorem endsWithin_of_measure (μ : α → Nat) (hf : ∀ a, f a = turn a >>= Turn.andThen f)
    (hturn : ∀ {a b}, turn a = .ok (.again b) → μ b < μ a) (a : α) :
    EndsWithin turn (μ a + 1) a (f a) := by
  induction hm : μ a using Nat.strongRecOn generalizing a with
  | _ m ih =>
    rw [hf a]
    cases h : turn a with
    | error e => exact ⟨1, by omega, .fault h⟩
    | ok t =>
      cases t with
      | again b =>
        have hlt := hturn h
        obtain ⟨k, hk, hloop⟩ := ih (μ b) (by omega) b rfl
        exact ⟨k + 1, by omega, .again h hloop⟩
      | done b => exact ⟨1, by omega, .done h⟩

/-- **Turns that lower a number while they keep an invariant come to an end.** -/
theorem Turn.iterate_endsWithin {P : α → Prop} (μ : α → Nat)
    (hturn : ∀ {a b}, P a → turn a = .ok (.again b) → P b ∧ μ b < μ a) (ha : P a) :
    EndsWithin turn (μ a + 1) a (Turn.iterate turn a) := by
  obtain ⟨r, k, hk, hloop⟩ : ∃ r, EndsWithin turn (μ a + 1) a r := by
    induction hm : μ a using Nat.strongRecOn generalizing a with
    | _ m ih =>
      cases h : turn a with
      | error e => exact ⟨_, 1, by omega, .fault h⟩
      | ok t =>
        cases t with
        | again b =>
          obtain ⟨hb, hlt⟩ := hturn ha h
          obtain ⟨r, k, hk, hloop⟩ := ih (μ b) (by omega) hb rfl
          exact ⟨r, k + 1, by omega, .again h hloop⟩
        | done b => exact ⟨_, 1, by omega, .done h⟩
  exact ⟨k, hk, hloop.iterate_eq ▸ hloop⟩

end BoundsSolver
