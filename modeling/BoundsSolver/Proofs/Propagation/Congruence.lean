/-
# What propagation goes by

Propagation reads the box, the flags and the triggered propagators.  States that agree
on these are `State.Twins`, whatever they have counted and told, and however much room
there is for marks: `propagate_twins` says that propagation comes to the same answer on
both and leaves twins again.

It also counts and tells the same on both.  So a relation between their books, the counters
and the log, that such entries keep (`Balanced`) holds afterwards if it held before: this is
what `State.Agrees` adds to twins, and `propagate_agrees` shows it of propagation.
-/

import BoundsSolver.Proofs.Loop
import BoundsSolver.Proofs.Propagation.Settle

namespace BoundsSolver

/-- The computations end with the same fault, or with related answers. -/
inductive Matches {α β : Type} (R : α → β → Prop) : Checked α → Checked β → Prop
  | fault (f : Fault) : Matches R (.error f) (.error f)
  | answer {a : α} {b : β} : R a b → Matches R (.ok a) (.ok b)

/-- The turns go on from related points, or come to related ends. -/
inductive Turn.Alike {α β γ δ : Type} (R : α → γ → Prop) (S : β → δ → Prop) :
    Turn α β → Turn γ δ → Prop
  | again {a : α} {c : γ} : R a c → Alike R S (.again a) (.again c)
  | done {b : β} {d : δ} : S b d → Alike R S (.done b) (.done d)

/-- The sets hold the same propagators and hand them out in the same order. -/
structure Triggered.Twins (t u : Triggered) : Prop where
  queue : t.queue = u.queue
  marks : ∀ i, t.marks.getD i false = u.marks.getD i false

/-- Propagation cannot tell the states apart. -/
structure State.Twins (s t : State) : Prop where
  box : s.box = t.box
  entailed : s.entailed = t.entailed
  triggered : s.triggered.Twins t.triggered

/-- The counters and the log. -/
abbrev Books := Statistics × Log

def State.books (s : State) : Books := (s.statistics, s.log)

/-- It counts the same whatever has been counted before. -/
def Additive (f : Statistics → Statistics) : Prop :=
  ∀ c d : Statistics, f (c.merge d) = c.merge (f d)

/-- A relation between books that entries of a search on both sides keep.  Solutions are
told under the number that they have on each side. -/
structure Balanced (B : Books → Books → Prop) : Prop where
  count {x y : Books} {f : Statistics → Statistics} :
    Additive f → B x y → B (f x.1, x.2) (f y.1, y.2)
  tell {x y : Books} (e : Event) : B x y → B (x.1, x.2.add e) (y.1, y.2.add e)
  solved {x y : Books} (depth : Nat) : B x y →
    B (x.1, x.2.add (.solution x.1.solutions depth)) (y.1, y.2.add (.solution y.1.solutions depth))

/-- The states are twins, and their books are related. -/
structure State.Agrees (B : Books → Books → Prop) (s t : State) : Prop where
  twins : s.Twins t
  books : B s.books t.books

/-- The steps ended alike. -/
structure Outcome.Agrees (B : Books → Books → Prop) (o p : Outcome) : Prop where
  kept : o.kept = p.kept
  changed : o.changed = p.changed
  state : o.state.Agrees B p.state

/-- Propagation ended alike. -/
def Ended (B : Books → Books → Prop) (x y : Bool × State) : Prop := x.1 = y.1 ∧ x.2.Agrees B y.2

variable {n : Network} {id self : PropagatorId} {again changed : Bool} {s t : State}
  {p : Position} {ps : List Position} {br : Branch} {B : Books → Books → Prop}

namespace Matches

variable {α β γ δ : Type} {R : α → β → Prop} {S : γ → δ → Prop} {x : Checked α} {y : Checked β}
  {f : α → Checked γ} {g : β → Checked δ}

/-- Computations go on alike from related answers of their first parts. -/
theorem bind_of (h : Matches R x y) (hf : ∀ {a b}, x = .ok a → R a b → Matches S (f a) (g b)) :
    Matches S (x >>= f) (y >>= g) := by
  cases h with
  | fault e => exact .fault e
  | answer hab => exact hf rfl hab

theorem bind (h : Matches R x y) (hf : ∀ {a b}, R a b → Matches S (f a) (g b)) :
    Matches S (x >>= f) (y >>= g) :=
  h.bind_of fun _ => hf

/-- Computations that start with the same part match if their rests do. -/
theorem bind_same {x : Checked α} {f : α → Checked γ} {g : α → Checked δ}
    (hf : ∀ a, Matches S (f a) (g a)) : Matches S (x >>= f) (x >>= g) := by
  cases x with
  | error e => exact .fault e
  | ok a => exact hf a

theorem mono {R' : α → β → Prop} (h : Matches R x y) (hR : ∀ {a b}, R a b → R' a b) :
    Matches R' x y := by
  cases h with
  | fault e => exact .fault e
  | answer hab => exact .answer (hR hab)

/-- An answer on the one side is one on the other. -/
theorem of_ok {a : α} (h : Matches R x y) (hx : x = .ok a) : ∃ b, y = .ok b ∧ R a b := by
  cases h with
  | fault e => cases hx
  | answer hab =>
    obtain rfl := Except.ok.inj hx
    exact ⟨_, rfl, hab⟩

theorem of_ok_right {b : β} (h : Matches R x y) (hy : y = .ok b) : ∃ a, x = .ok a ∧ R a b := by
  cases h with
  | fault e => cases hy
  | answer hab =>
    obtain rfl := Except.ok.inj hy
    exact ⟨_, rfl, hab⟩

/-- A fault on the one side is one on the other. -/
theorem of_error {e : Fault} (h : Matches R x y) (hx : x = .error e) : y = .error e := by
  cases h with
  | fault e' =>
    obtain rfl := Except.error.inj hx
    rfl
  | answer => cases hx

theorem swap (h : Matches R x y) : Matches (fun b a => R a b) y x := by
  cases h with
  | fault e => exact .fault e
  | answer hab => exact .answer hab

end Matches

section Loops

variable {α β γ δ : Type} {R : α → γ → Prop} {S : β → δ → Prop} {turn : α → Checked (Turn α β)}
  {turn' : γ → Checked (Turn γ δ)} {a : α} {c : γ} {k : Nat} {r : Checked β}

theorem Turn.Alike.swap {t : Turn α β} {u : Turn γ δ} (h : t.Alike R S u) :
    u.Alike (fun c a => R a c) (fun d b => S b d) t := by
  cases h with
  | again hac => exact .again hac
  | done hbd => exact .done hbd

/-- Where one loop ends, a loop whose turns match ends as well, and alike. -/
theorem Loop.matched (hturn : ∀ {a c}, R a c → Matches (Turn.Alike R S) (turn a) (turn' c))
    (h : Loop turn k a r) (hac : R a c) : ∃ r', Loop turn' k c r' ∧ Matches S r r' := by
  induction h generalizing c with
  | fault hfault => exact ⟨_, .fault ((hturn hac).of_error hfault), .fault _⟩
  | done hdone =>
    obtain ⟨_, hdone', halike⟩ := (hturn hac).of_ok hdone
    cases halike with
    | done hbd => exact ⟨_, .done hdone', .answer hbd⟩
  | again hagain _ ih =>
    obtain ⟨_, hagain', halike⟩ := (hturn hac).of_ok hagain
    cases halike with
    | again hac' =>
      obtain ⟨r', hloop, hr⟩ := ih hac'
      exact ⟨r', .again hagain' hloop, hr⟩

/-- **Loops whose turns match come to the same**, which may be to go on for ever. -/
theorem Matches.iterate (hturn : ∀ {a c}, R a c → Matches (Turn.Alike R S) (turn a) (turn' c))
    (hac : R a c) : Matches S (Turn.iterate turn a) (Turn.iterate turn' c) := by
  rcases Turn.iterate_comesTo turn a with ⟨k, hloop⟩ | ⟨hendless, h⟩
  · obtain ⟨r', hloop', hr⟩ := hloop.matched hturn hac
    rw [hloop'.iterate_eq]
    exact hr
  · rcases Turn.iterate_comesTo turn' c with ⟨k, hloop'⟩ | ⟨-, h'⟩
    · -- If the other loop ends then so does this one.
      obtain ⟨r, hloop, -⟩ := hloop'.matched (R := fun c a => R a c) (S := fun d b => S b d)
        (fun hac => (hturn hac).swap.mono Turn.Alike.swap) hac
      exact absurd ⟨k, r, hloop⟩ hendless
    · rw [h, h']
      exact .fault .endless

end Loops

/-! ### Triggered propagators -/

namespace Triggered

variable {t u : Triggered}

theorem Twins.insert (h : t.Twins u) (id : PropagatorId) : (t.insert id).Twins (u.insert id) := by
  unfold Triggered.insert
  simp only [getD_grow, h.marks]
  split
  · exact ⟨h.queue, fun i => by rw [getD_grow, getD_grow, h.marks]⟩
  · refine ⟨by rw [h.queue], fun i => ?_⟩
    simp only [getD_setIfInBounds, lt_size_grow, getD_grow, h.marks]

theorem Twins.foldl_insert (h : t.Twins u) (ids : List PropagatorId) :
    (ids.foldl Triggered.insert t).Twins (ids.foldl Triggered.insert u) := by
  induction ids generalizing t u with
  | nil => exact h
  | cons id ids ih => exact ih (h.insert id)

/-- A mark that is cleared is none, whether there was room for it or not. -/
theorem getD_unset {marks : Array Bool} {i j : Nat} :
    (marks.setIfInBounds i false).getD j false = if i = j then false else marks.getD j false := by
  rw [getD_setIfInBounds]
  by_cases hij : i = j
  · subst hij
    by_cases hi : i < marks.size
    · simp [hi]
    · simp [Array.getD, hi]
  · simp [hij]

/-- Twins hand out the same propagator and leave twins. -/
theorem Twins.pop? (h : t.Twins u) : t.pop? = none ∧ u.pop? = none ∨
    ∃ id t' u', t.pop? = some (id, t') ∧ u.pop? = some (id, u') ∧ t'.Twins u' := by
  unfold Triggered.pop?
  rw [h.queue]
  split
  · exact .inl ⟨rfl, rfl⟩
  · exact .inr ⟨_, _, _, rfl, rfl, rfl, fun i => by rw [getD_unset, getD_unset, h.marks]⟩

theorem Twins.pop?_of_some (h : t.Twins u) {id : PropagatorId} {t' : Triggered}
    (hp : t.pop? = some (id, t')) : ∃ u', u.pop? = some (id, u') ∧ t'.Twins u' := by
  rcases h.pop? with ⟨hn, -⟩ | ⟨id', t'', u', hp', hq, h'⟩
  · rw [hp] at hn
    cases hn
  · obtain ⟨rfl, rfl⟩ := Prod.mk.inj (Option.some.inj (hp.symm.trans hp'))
    exact ⟨u', hq, h'⟩

theorem Twins.clear (h : t.Twins u) : t.clear.Twins u.clear := by
  refine ⟨rfl, fun i => Bool.eq_iff_iff.2 ?_⟩
  simp only [Triggered.clear, getD_foldl_clear, h.queue, h.marks]

/-- Sets without a propagator are twins. -/
theorem Faithful.twins_of_empty (h : t.Faithful) (h' : u.Faithful) (ht : t.isEmpty = true)
    (hu : u.isEmpty = true) : t.Twins u := by
  have leaf {v : Triggered} (hv : v.isEmpty = true) : v.queue = .leaf := by
    have hsize : v.queue.size = 0 := of_decide_eq_true hv
    cases hq : v.queue with
    | leaf => rfl
    | node x l r =>
      rw [hq, Heap.size] at hsize
      omega
  have hq : t.queue = u.queue := (leaf ht).trans (leaf hu).symm
  exact ⟨hq, fun i => Bool.eq_iff_iff.2 (by rw [h.marked, h'.marked, hq])⟩

end Triggered

/-! ### Steps of propagation -/

namespace State.Twins

theorem refl (s : State) : s.Twins s := ⟨rfl, rfl, rfl, fun _ => rfl⟩

theorem of_alike (h : s.Alike t) : s.Twins t :=
  ⟨h.box, h.entailed, by rw [h.triggered], fun _ => by rw [h.triggered]⟩

theorem symm (h : s.Twins t) : t.Twins s :=
  ⟨h.box.symm, h.entailed.symm, h.triggered.queue.symm, fun i => (h.triggered.marks i).symm⟩

theorem trans {u : State} (h : s.Twins t) (h' : t.Twins u) : s.Twins u :=
  ⟨h.box.trans h'.box, h.entailed.trans h'.entailed, h.triggered.queue.trans h'.triggered.queue,
    fun i => (h.triggered.marks i).trans (h'.triggered.marks i)⟩

variable (h : s.Twins t)
include h

theorem count {f g : Statistics → Statistics} : (s.count f).Twins (t.count g) :=
  ⟨h.box, h.entailed, h.triggered⟩

theorem tell {e e' : Event} : (s.tell e).Twins (t.tell e') := ⟨h.box, h.entailed, h.triggered⟩

theorem with_box (b : Box) : State.Twins { s with box := b } { t with box := b } :=
  ⟨rfl, h.entailed, h.triggered⟩

theorem with_triggered {v w : Triggered} (hv : v.Twins w) :
    State.Twins { s with triggered := v } { t with triggered := w } := ⟨h.box, h.entailed, hv⟩

theorem triggerAll (ids : List PropagatorId) : (s.triggerAll ids).Twins (t.triggerAll ids) := by
  refine ⟨h.box, h.entailed, ?_⟩
  rw [State.triggerAll, State.triggerAll, h.entailed]
  exact h.triggered.foldl_insert _

theorem narrow (n : Network) (br : Branch) : (s.narrow n br).Twins (t.narrow n br) := by
  unfold State.narrow State.wake
  rw [h.box]
  exact (h.with_box _).triggerAll _

end State.Twins

/-- Any books are related if nothing is asked of them. -/
theorem balanced_true : Balanced fun _ _ => True := ⟨fun _ _ => trivial, fun _ _ => trivial,
  fun _ _ => trivial⟩

theorem State.Twins.agrees (h : s.Twins t) : s.Agrees (fun _ _ => True) t := ⟨h, trivial⟩

namespace State.Agrees

variable (h : s.Agrees B t)
include h

theorem count (hB : Balanced B) {f : Statistics → Statistics} (hf : Additive f) :
    (s.count f).Agrees B (t.count f) := ⟨h.twins.count, hB.count hf h.books⟩

theorem tell (hB : Balanced B) (e : Event) : (s.tell e).Agrees B (t.tell e) :=
  ⟨h.twins.tell, hB.tell e h.books⟩

theorem with_box (b : Box) : State.Agrees B { s with box := b } { t with box := b } :=
  ⟨h.twins.with_box b, h.books⟩

theorem with_triggered {v w : Triggered} (hv : v.Twins w) :
    State.Agrees B { s with triggered := v } { t with triggered := w } :=
  ⟨h.twins.with_triggered hv, h.books⟩

theorem triggerAll (ids : List PropagatorId) : (s.triggerAll ids).Agrees B (t.triggerAll ids) :=
  ⟨h.twins.triggerAll ids, h.books⟩

theorem narrow (n : Network) (br : Branch) : (s.narrow n br).Agrees B (t.narrow n br) :=
  ⟨h.twins.narrow n br, h.books⟩

theorem triggerIf (cond : Prop) [Decidable cond] (ids : List PropagatorId) :
    State.Agrees B (if cond then s.triggerAll ids else s)
      (if cond then t.triggerAll ids else t) := by
  split
  · exact h.triggerAll ids
  · exact h

end State.Agrees

theorem cut_agrees (h : s.Agrees B t) :
    Matches (Outcome.Agrees B) (cut n self again p s) (cut n self again p t) := by
  unfold cut
  rw [h.twins.box]
  refine .bind_same fun back => .bind_same fun old => ?_
  dsimp only
  split
  · exact .answer ⟨rfl, rfl, h.with_box _⟩
  · exact .answer ⟨rfl, rfl, ((h.with_box _).triggerIf _ _).triggerIf _ _⟩

theorem writeBack_agrees (h : s.Agrees B t) :
    Matches (Outcome.Agrees B) (writeBack n self again ps s changed)
      (writeBack n self again ps t changed) := by
  induction ps generalizing s t changed with
  | nil => exact .answer ⟨rfl, rfl, h⟩
  | cons p ps ih =>
    unfold writeBack
    split
    · exact ih h
    · split
      · exact .answer ⟨rfl, rfl, h⟩
      · refine (cut_agrees h).bind fun {o o'} ho => ?_
        rw [ho.kept, ho.changed]
        split
        · exact ih ho.state
        · exact .answer ⟨rfl, rfl, ho.state⟩

theorem run_agrees (hB : Balanced B) (h : s.Agrees B t) :
    Matches (Outcome.Agrees B) (run n s id) (run n t id) := by
  have hcalled : (s.count fun c => { c with propagatorCalls := c.propagatorCalls + 1 }).Agrees B
      (t.count fun c => { c with propagatorCalls := c.propagatorCalls + 1 }) :=
    h.count hB fun _ _ => rfl
  unfold run
  generalize s.count _ = s at hcalled ⊢
  generalize t.count _ = t at hcalled ⊢
  refine .bind_same fun q => ?_
  dsimp only
  rw [hcalled.twins.box]
  refine .bind_same fun r => ?_
  split
  · exact .answer ⟨rfl, rfl, hcalled.tell hB _⟩
  · have hentailed := hcalled.count hB (f := fun c => { c with entailments := c.entailments + 1 })
      fun _ _ => rfl
    refine (writeBack_agrees (B := B) ?_).bind fun {o o'} ho => ?_
    · split
      · rw [hcalled.twins.entailed]
        exact ⟨⟨hentailed.twins.box, rfl, hentailed.twins.triggered⟩, hentailed.books⟩
      · exact hcalled
    · have hidle := ho.state.count hB (f := fun c => { c with noOpCalls := c.noOpCalls + 1 })
        fun _ _ => rfl
      rw [ho.kept, ho.changed]
      split
      · exact .answer ⟨rfl, rfl, hidle⟩
      · exact .answer ho

/-! ### The loop -/

/-- **The loop ends alike on twins.** -/
theorem settle_agrees (hB : Balanced B) (h : s.Agrees B t) :
    Matches (Ended B) (settle n s) (settle n t) := by
  fun_induction settle n s generalizing t with
  | case1 s hp =>
    rcases h.twins.triggered.pop? with ⟨-, hq⟩ | ⟨_, _, _, hp', -⟩
    · rw [settle_of_idle hq]
      exact .answer ⟨rfl, h⟩
    · rw [hp] at hp'
      cases hp'
  | case2 s id rest hp he ih =>
    obtain ⟨rest', hq, hrest⟩ := h.twins.triggered.pop?_of_some hp
    rw [h.twins.entailed] at he
    rw [settle_of_pop hq, if_pos he]
    exact ih (h.with_triggered hrest)
  | case3 s id rest hp he f hr =>
    obtain ⟨rest', hq, hrest⟩ := h.twins.triggered.pop?_of_some hp
    rw [h.twins.entailed] at he
    rw [settle_of_pop hq, if_neg he, (run_agrees hB (h.with_triggered hrest)).of_error hr]
    exact .fault f
  | case4 s id rest hp he changed u hr ih =>
    obtain ⟨rest', hq, hrest⟩ := h.twins.triggered.pop?_of_some hp
    rw [h.twins.entailed] at he
    obtain ⟨o, ho, hrun⟩ := (run_agrees hB (h.with_triggered hrest)).of_ok hr
    rw [settle_of_pop hq, if_neg he, bind_of_ok ho, if_pos hrun.kept.symm]
    exact ih hrun.state
  | case5 s id rest hp he changed u hr =>
    obtain ⟨rest', hq, hrest⟩ := h.twins.triggered.pop?_of_some hp
    rw [h.twins.entailed] at he
    obtain ⟨o, ho, hrun⟩ := (run_agrees hB (h.with_triggered hrest)).of_ok hr
    rw [settle_of_pop hq, if_neg he, bind_of_ok ho, if_neg (by rw [← hrun.kept]; exact Bool.false_ne_true)]
    refine .answer ⟨rfl, State.Agrees.with_triggered ?_ hrun.state.twins.triggered.clear⟩
    exact hrun.state.count hB fun _ _ => rfl

/-- **Propagation ends alike on twins**, and keeps the relation between their books. -/
theorem propagate_agrees (hB : Balanced B) (h : s.Agrees B t) :
    Matches (Ended B) (propagate n s) (propagate n t) :=
  settle_agrees hB (h.count hB fun _ _ => rfl)

theorem propagate_twins (h : s.Twins t) :
    Matches (fun x y => x.1 = y.1 ∧ x.2.Twins y.2) (propagate n s) (propagate n t) :=
  (propagate_agrees balanced_true h.agrees).mono fun hend => ⟨hend.1, hend.2.twins⟩

end BoundsSolver
