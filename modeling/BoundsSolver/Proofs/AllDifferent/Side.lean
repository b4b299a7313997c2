/-
# The two sides of a pass

Both passes of the propagator are one step, `Side.take`, read from below or from
above: positions are counted from the other end and values change their sign
(`raise_eq_take`, `lower_eq_take`).  An array `Shows` a function of positions if
it holds, at each place, what the function says of the position there, and the
walks along the arrays do to the function what is said in terms of forests.
-/

import BoundsSolver.Proofs.AllDifferent.Forest

namespace BoundsSolver
namespace AllDifferent

/-- How the positions `0` to `M` and the values are read. -/
structure Side (M : Nat) where
  pos : Nat → Nat
  value : Int → Int
  next : Nat → Checked Nat
  back : Nat → Checked Nat
  ahead : Nat → Nat → Prop
  decAhead : DecidableRel ahead
  /-- Goes on with the values between the second position and the first. -/
  withGap : Array Int → Nat → Nat → (Int → Checked (Option Pass)) → Checked (Option Pass)
  follow : Array Nat → Nat → Checked Nat
  pos_le : ∀ k ≤ M, pos k ≤ M
  pos_pos : ∀ k ≤ M, pos (pos k) = k
  value_value : ∀ v, value (value v) = v
  next_pos : ∀ k < M, next (pos k) = .ok (pos (k + 1))
  back_pos : ∀ k < M, back (pos (k + 1)) = .ok (pos k)
  ahead_pos : ∀ k ≤ M, ∀ n ≤ M, ahead (pos k) (pos n) ↔ k < n
  withGap_pos : ∀ {critical : Array Int} {z y : Nat} {a b : Int}
    {go : Int → Checked (Option Pass)}, critical[pos z]? = some (value a) →
    critical[pos y]? = some (value b) → Width.sum.Fits (a - b) →
    withGap critical (pos z) (pos y) go = go (a - b)
  follow_pos : ∀ {links : Array Nat} {k n : Nat}, k ≤ M → n ≤ M → links[pos k]? = some (pos n) →
    follow links (pos k) = if k < n then follow links (pos n) else .ok (pos k)

namespace Side

variable {M : Nat}

instance (e : Side M) : DecidableRel e.ahead := e.decAhead

/-- Positions and values as they are. -/
def below (M : Nat) : Side M where
  pos := id
  value := id
  next k := .ok (k + 1)
  back := Width.predecessor
  ahead k n := k < n
  decAhead := inferInstance
  withGap critical z y go := do
    let a ← readAt critical z
    let b ← readAt critical y
    let gap ← Width.sum.sub a b
    go gap
  follow := climb
  pos_le _ h := h
  pos_pos _ _ := rfl
  value_value _ := rfl
  next_pos _ _ := rfl
  back_pos _ _ := rfl
  ahead_pos _ _ _ _ := Iff.rfl
  withGap_pos hz hy hfit := by
    rw [readAt_eq_ok.2 hz, readAt_eq_ok.2 hy]
    exact bind_of_ok (Width.sub_eq_ok.2 ⟨hfit, rfl⟩)
  follow_pos {links k n} _ _ h := by
    rw [climb]
    split
    · rename_i he
      rw [he] at h
      cases h
    · rename_i next he
      obtain rfl := Option.some.inj (he.symm.trans h)
      rfl

/-- Walking down from a position counted from the last one. -/
theorem sink_pos {links : Array Nat} {k n : Nat} (hk : k ≤ M) (hn : n ≤ M)
    (h : links[M - k]? = some (M - n)) :
    sink links (M - k) = if k < n then sink links (M - n) else .ok (M - k) := by
  rw [sink]
  split
  · rename_i he
    rw [he] at h
    cases h
  · rename_i next he
    obtain rfl := Option.some.inj (he.symm.trans h)
    by_cases hlt : k < n
    · rw [if_pos hlt, if_pos (by omega)]
    · rw [if_neg hlt, if_neg (by omega)]

/-- Positions counted from the last one, and values with their sign changed; a value and
the bound above it change places. -/
def above (M : Nat) : Side M where
  pos k := M - k
  value v := 1 - v
  next := Width.predecessor
  back k := .ok (k + 1)
  ahead k n := n < k
  decAhead k n := inferInstanceAs (Decidable (n < k))
  withGap critical z y go := do
    let b ← readAt critical y
    let a ← readAt critical z
    let gap ← Width.sum.sub b a
    go gap
  follow := sink
  pos_le k _ := Nat.sub_le M k
  pos_pos _ := Nat.sub_sub_self
  value_value := Int.sub_sub_self 1
  next_pos k h := by
    rw [show M - k = (M - (k + 1)) + 1 by omega]
    rfl
  back_pos k h := by rw [show M - k = M - (k + 1) + 1 by omega]
  ahead_pos _ _ _ _ := by omega
  withGap_pos {critical z y a b go} hz hy hfit := by
    have hgap : 1 - b - (1 - a) = a - b := by omega
    rw [readAt_eq_ok.2 hz, readAt_eq_ok.2 hy]
    exact bind_of_ok (Width.sub_eq_ok.2 ⟨hgap ▸ hfit, hgap⟩)
  follow_pos := sink_pos

variable (e : Side M)

theorem pos_injective {k n : Nat} (hk : k ≤ M) (hn : n ≤ M) (h : e.pos k = e.pos n) : k = n := by
  rw [← e.pos_pos k hk, h, e.pos_pos n hn]

/-- Goes on with the first position that has free values, once one at `start` is taken; `j`
is the position before `start`. -/
def vacate (tree : Array Nat) (start j : Nat) (free : Int)
    (go : Nat → Array Nat → Checked (Option Pass)) : Checked (Option Pass) :=
  if free = 0 then do
    let next ← e.next start
    let tree ← writeAt tree start next
    let z ← e.follow tree next
    let tree ← writeAt tree z j
    go z tree
  else go start tree

/-- Goes on with the bound of a variable past the Hall intervals around it, of which `up` is
the first link. -/
def clear (critical : Array Int) (v x up : Nat) (bounds : Array Int) (hall : Array Nat)
    (go : Array Int → Array Nat → Checked (Option Pass)) : Checked (Option Pass) :=
  if e.ahead x up then do
    let w ← e.follow hall up
    let b ← readAt critical w
    let bounds ← writeAt bounds v b
    let hall ← redirect hall x w w
    go bounds hall
  else go bounds hall

/-- Goes on with a Hall interval up to `y`, if the free values are just those beyond it. -/
def record (hall : Array Nat) (y j : Nat) (free gap : Int)
    (go : Array Nat → Checked (Option Pass)) : Checked (Option Pass) :=
  if free = gap then do
    let first ← readAt hall y
    let stop ← e.back j
    let hall ← redirect hall first stop y
    let hall ← writeAt hall y stop
    go hall
  else go hall

/-- Takes one variable of a pass; `near` are the ranks of the bounds to be narrowed, `far`
those of the other ones. -/
def take (critical : Array Int) (near far : Array Nat) (v : Nat) (p : Pass) :
    Checked (Option Pass) := do
  let x ← readAt near v
  let y ← readAt far v
  let beyond ← e.next x
  let start ← e.follow p.forest.tree beyond
  let j ← readAt p.forest.tree start
  let free ← Width.sum.sub (← readAt p.forest.room start) 1
  let room ← writeAt p.forest.room start free
  e.vacate p.forest.tree start j free fun z tree => do
    let tree ← redirect tree beyond z z
    let free ← readAt room z
    e.withGap critical z y fun gap => do
      if free < gap then return none
      let up ← readAt p.forest.hall x
      e.clear critical v x up p.bounds p.forest.hall fun bounds hall =>
        e.record hall y j free gap fun hall => return some ⟨bounds, ⟨tree, hall, room⟩⟩

/-- **The first pass takes variables from below.** -/
theorem raise_eq_take (M : Nat) : raise = (below M).take := by
  funext critical near far v p
  rfl

/-- **The second pass takes variables from above.** -/
theorem lower_eq_take (M : Nat) (critical : Array Int) (minRank maxRank : Array Nat) (v : Nat)
    (p : Pass) : lower critical minRank maxRank v p =
      (above M).take critical maxRank minRank v p := by
  rfl

/-! ### Arrays -/

/-- The array holds what the function says of the positions from `1` on. -/
def Shows {α β : Type} (read : β → α) (as : Array α) (f : Nat → β) : Prop :=
  ∀ k, 1 ≤ k → k ≤ M → as[e.pos k]? = some (read (f k))

variable {e} {α β : Type} {read : β → α} {as : Array α} {f : Nat → β} {k n t y stop : Nat}
  {links : Array Nat} {link : Nat → Nat} {root : Nat → Prop}

theorem Shows.readAt_eq (h : e.Shows read as f) (h1 : 1 ≤ k) (hM : k ≤ M) :
    readAt as (e.pos k) = .ok (read (f k)) :=
  readAt_eq_ok.2 (h k h1 hM)

theorem Shows.set (h : e.Shows read as f) (hM : k ≤ M) (b : β) :
    e.Shows read (as.setIfInBounds (e.pos k) (read b)) (Function.update f k b) := by
  intro n hn hnM
  rw [Array.getElem?_setIfInBounds]
  by_cases hk : n = k
  · subst hk
    have hlt := (Array.getElem?_eq_some_iff.1 (h n hn hnM)).1
    rw [if_pos rfl, if_pos hlt, Function.update_self]
  · rw [if_neg fun he => hk (e.pos_injective hnM hM he.symm), Function.update_of_ne hk]
    exact h n hn hnM

theorem Shows.writeAt_eq (h : e.Shows read as f) (h1 : 1 ≤ k) (hM : k ≤ M) (b : α) :
    writeAt as (e.pos k) b = .ok (as.setIfInBounds (e.pos k) b) :=
  writeAt_eq_ok.2 ⟨(Array.getElem?_eq_some_iff.1 (h k h1 hM)).1, rfl⟩

/-- The links of a forest stay within it. -/
theorem link_le (h : Climbs M link root) (h1 : 1 ≤ k) (hM : k ≤ M) : link k ≤ M := by
  by_cases hr : root k
  · have := h.down k h1 hM hr
    omega
  · exact (h.up k h1 hM hr).1.2

/-- **A walk ends at the next root.** -/
theorem follow_spec (hs : e.Shows e.pos links link) (h : Climbs M link root) (h1 : 1 ≤ k)
    (ht : IsTop root k t) (htM : t ≤ M) : e.follow links (e.pos k) = .ok (e.pos t) := by
  have hkt := ht.le
  induction hn : t - k using Nat.strong_induction_on generalizing k with
  | _ n ih =>
    rw [e.follow_pos (by omega) (link_le h h1 (by omega)) (hs k h1 (by omega))]
    by_cases hr : root k
    · obtain rfl : k = t := ht.unique ⟨Nat.le_refl k, hr, fun i h₁ h₂ => by omega⟩ ▸ rfl
      rw [if_neg (Nat.not_lt.2 (Nat.le_of_lt (h.down k h1 htM hr)))]
    · have hlt := (h.up k h1 (by omega) hr).1.1
      have hle := h.link_le h1 ht htM hr
      rw [if_pos hlt]
      exact ih _ (by omega) (by omega) (ht.of_le (by omega) hle) hle rfl

/-- One step of a walk that redirects its path. -/
theorem redirect_step (hs : e.Shows e.pos links link) (h1 : 1 ≤ k) (hkM : k ≤ M)
    (hstop : stop ≤ M) (ht : t ≤ M) (hks : k ≠ stop) (hkt : k ≠ t) :
    redirect links (e.pos k) (e.pos stop) (e.pos t) =
      redirect (links.setIfInBounds (e.pos k) (e.pos t)) (e.pos (link k)) (e.pos stop)
        (e.pos t) := by
  rw [redirect, if_neg fun he => hks (e.pos_injective hkM hstop he)]
  have hk := hs k h1 hkM
  split
  · rename_i he
    rw [he] at hk
    cases hk
  · rename_i next he
    obtain rfl := Option.some.inj (he.symm.trans hk)
    rw [if_neg fun hne => hkt (e.pos_injective hkM ht hne.1)]

/-- **Redirecting a path to its end keeps the forest.** -/
theorem compress (hs : e.Shows e.pos links link) (h : Chained M link root) (h1 : 1 ≤ k)
    (ht : IsTop root k t) (htM : t ≤ M) :
    ∃ links' link', redirect links (e.pos k) (e.pos t) (e.pos t) = .ok links' ∧
      e.Shows e.pos links' link' ∧ Chained M link' root := by
  have hkt := ht.le
  induction hn : t - k using Nat.strong_induction_on generalizing k links link with
  | _ n ih =>
    by_cases heq : k = t
    · subst heq
      exact ⟨links, link, by rw [redirect, if_pos rfl], hs, h⟩
    · have hr : ¬ root k := ht.first k (Nat.le_refl k) (by omega)
      have hlt := (h.up k h1 (by omega) hr).1.1
      have hle := h.toClimbs.link_le h1 ht htM hr
      rw [redirect_step hs h1 (by omega) htM htM heq heq]
      exact ih _ (by omega) (hs.set (by omega) t) (h.point hr (by omega) htM ht.first) (by omega)
        (ht.of_le (by omega) hle) hle rfl

/-- **Giving up all roots on a stretch.**  The walk goes down from root to root, and the
root above the stretch links to the root below it in the end. -/
theorem gather {cur : Nat} (hs : e.Shows e.pos links link)
    (h : Chained M (Function.update link y cur) root) (hy : y ≤ M) (hry : root y)
    (hcur : cur < y) (hstop : stop ≤ cur) (hrs : stop = 0 ∨ root stop) :
    ∃ links' link', (redirect links (e.pos cur) (e.pos stop) (e.pos y) >>=
        fun links => writeAt links (e.pos y) (e.pos stop)) = .ok links' ∧
      e.Shows e.pos links' link' ∧ Chained M link' (fun k => root k ∧ ¬ (stop < k ∧ k < y)) := by
  induction cur using Nat.strong_induction_on generalizing links link root with
  | _ cur ih =>
    have hself : Function.update link y cur y = cur := Function.update_self ..
    obtain ⟨hbetween, hprev⟩ := h.chain y (by omega) hy hry
    rw [hself] at hbetween hprev
    by_cases heq : cur = stop
    · subst heq
      refine ⟨_, _, ?_, hs.set hy cur, h.congr fun k => ⟨fun hr => ⟨hr, fun hb => ?_⟩, And.left⟩⟩
      · rw [redirect, if_pos rfl]
        exact hs.writeAt_eq (by omega) hy _
      · exact hbetween k hb.1 hb.2 hr
    · have hrc : root cur := hprev.resolve_left (by omega)
      have hne : cur ≠ y := by omega
      have hlink : Function.update link y cur cur = link cur := Function.update_of_ne hne ..
      have hdown := h.down cur (by omega) (by omega) hrc
      obtain ⟨hbelow, -⟩ := h.chain cur (by omega) (by omega) hrc
      rw [hlink] at hdown hbelow
      have hdem := h.demote (by omega) hrc hry hy hself hcur (Nat.le_refl y)
      rw [hlink, Function.update_comm hne.symm, Function.update_idem] at hdem
      have hle : stop ≤ link cur := by
        by_contra hlt
        exact hbelow stop (by omega) (by omega) (hrs.resolve_left (by omega))
      obtain ⟨links', link', hred, hs', h'⟩ := ih (link cur) hdown (hs.set (by omega) y) hdem
        ⟨hry, hne.symm⟩ (by omega) hle (hrs.imp id fun hr => ⟨hr, Ne.symm heq⟩)
      refine ⟨links', link', ?_, hs', h'.congr fun k => ⟨fun hr => ⟨hr.1.1, hr.2⟩, fun hr =>
        ⟨⟨hr.1, fun he => hr.2 (by omega)⟩, hr.2⟩⟩⟩
      rw [redirect_step hs (by omega) (by omega) (by omega) hy heq hne]
      exact hred

end Side

/-! ### Linking the positions anew -/

namespace Forest

/-- The critical bound `k` is linked to another one, with so many free values between. -/
structure Joined (other : Nat → Nat) (free : Nat → Int) (f : Forest) (k : Nat) : Prop where
  tree : f.tree[k]? = some (other k)
  hall : f.hall[k]? = some (other k)
  room : f.room[k]? = some (free k)

variable {f : Forest} {k : Nat} {other : Nat → Nat} {free : Nat → Int}

/-- Linking a critical bound leaves those as they are that are linked already. -/
theorem join_spec (other : Nat → Nat) (free : Nat → Int) (htree : k < f.tree.size)
    (hhall : k < f.hall.size) (hroom : k < f.room.size) :
    ∃ g, f.join k (other k) (free k) = .ok g ∧ Joined other free g k ∧
      (∀ n, Joined other free f n → Joined other free g n) ∧ g.tree.size = f.tree.size ∧
      g.hall.size = f.hall.size ∧ g.room.size = f.room.size := by
  have hset {α : Type} {as : Array α} {a : Nat → α} (n : Nat) (h : as[n]? = some (a n)) :
      (as.setIfInBounds k (a k))[n]? = some (a n) := by
    rw [Array.getElem?_setIfInBounds]
    split
    · rename_i heq
      subst heq
      rw [if_pos (Array.getElem?_eq_some_iff.1 h).1]
    · exact h
  refine ⟨⟨f.tree.setIfInBounds k (other k), f.hall.setIfInBounds k (other k),
    f.room.setIfInBounds k (free k)⟩, ?_, ⟨?_, ?_, ?_⟩, fun n h => ⟨?_, ?_, ?_⟩,
    Array.size_setIfInBounds, Array.size_setIfInBounds, Array.size_setIfInBounds⟩
  · unfold join
    rw [writeAt_eq_ok.2 ⟨htree, rfl⟩, writeAt_eq_ok.2 ⟨hhall, rfl⟩, writeAt_eq_ok.2 ⟨hroom, rfl⟩]
    rfl
  · exact Array.getElem?_setIfInBounds_self_of_lt htree
  · exact Array.getElem?_setIfInBounds_self_of_lt hhall
  · exact Array.getElem?_setIfInBounds_self_of_lt hroom
  · exact hset n h.tree
  · exact hset n h.hall
  · exact hset n h.room

/-- **A loop that links positions links all of them.** -/
theorem foldlM_join (other : Nat → Nat) (free : Nat → Int) (f : Forest) (ks : List Nat)
    (step : Forest → Nat → Checked Forest)
    (hstep : ∀ k ∈ ks, ∀ f, step f k = f.join k (other k) (free k))
    (hsize : ∀ k ∈ ks, k < f.tree.size ∧ k < f.hall.size ∧ k < f.room.size) :
    ∃ g, ks.foldlM step f = .ok g ∧ (∀ k, Joined other free f k → Joined other free g k) ∧
      ∀ k ∈ ks, Joined other free g k := by
  induction ks generalizing f with
  | nil => exact ⟨f, rfl, fun _ => id, fun k hk => absurd hk List.not_mem_nil⟩
  | cons k ks ih =>
    obtain ⟨⟨htree, hhall, hroom⟩, hsizes⟩ := List.forall_mem_cons.1 hsize
    obtain ⟨hk, hks⟩ := List.forall_mem_cons.1 hstep
    obtain ⟨f', hf', hjoined, hkeep, ht, hh, hr⟩ :=
      join_spec other free htree hhall hroom
    obtain ⟨g, hg, hkeep', hall⟩ := ih f' hks (by rw [ht, hh, hr]; exact hsizes)
    refine ⟨g, ?_, fun n hn => hkeep' n (hkeep n hn), List.forall_mem_cons.2 ⟨?_, hall⟩⟩
    · rw [List.foldlM_cons, hk f, bind_of_ok hf']
      exact hg
    · exact hkeep' k hjoined

end Forest

end AllDifferent
end BoundsSolver
