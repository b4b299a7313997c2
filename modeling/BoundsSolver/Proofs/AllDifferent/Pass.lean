/-
# A pass over the forests

The step of a pass does to the arrays what `Greedy` says of rooms and stretches
(`Side.take_spec`): each of its walks ends at a root of one of the two forests.
By induction over the variables, a pass either meets too many variables for too
few values, or moves the bound of each variable past the stretches that those
before it fill (`Side.takeAll_spec`).  Over all variables, in the order of their
far ends, that is the least value of each (`Side.Cleared.All.least`).
-/

import BoundsSolver.Proofs.AllDifferent.Greedy
import BoundsSolver.Proofs.AllDifferent.Side

namespace BoundsSolver
namespace AllDifferent

/-- The forests of a pass show the rooms and the filled stretches. -/
structure Tracks {M : Nat} (e : Side M) (c : Nat → Int) (placed : List Spot)
    (link up : Nat → Nat) (room : Nat → Int) (hall : Nat → Prop) (f : Forest) : Prop where
  greedy : Greedy M c placed room hall
  showsTree : e.Shows e.pos f.tree link
  tree : Chained M link (fun k => room k ≠ 0)
  showsHall : e.Shows e.pos f.hall up
  halls : Chained M up (fun k => ¬ hall k)
  showsRoom : e.Shows id f.room room

namespace Side

variable {M j k v w x y z start : Nat} {e : Side M} {c room : Nat → Int} {placed : List Spot}
  {link up : Nat → Nat} {hall : Nat → Prop} {critical bounds : Array Int}
  {tree halls near far : Array Nat} {free gap : Int}

/-- The walk to the next position with room. -/
theorem vacate_spec (t : Turn M c placed room x y start) (hs : e.Shows e.pos tree link)
    (h : Chained M link (fun k => room k ≠ 0)) :
    ∃ z tree' link', (∀ go, e.vacate tree (e.pos start) (e.pos (link start)) (room start - 1) go =
        go (e.pos z) tree') ∧ e.Shows e.pos tree' link' ∧
      Chained M link' (fun k => fill room start k ≠ 0) ∧
      IsTop (fun k => fill room start k ≠ 0) (x + 1) z ∧ z ≤ M := by
  have hpos := t.start_pos
  have hroots (k : Nat) (hne : k ≠ start) : fill room start k ≠ 0 ↔ room k ≠ 0 := by
    rw [fill_of_ne hne]
  unfold vacate
  by_cases hfree : room start - 1 = 0
  · have hself : ¬ fill room start start ≠ 0 := by
      rw [fill_self]
      exact fun hn => hn hfree
    have hlt : start < M := by
      rcases Nat.lt_or_eq_of_le t.start_le with hlt | rfl
      · exact hlt
      · exact absurd t.fill_top_ne_zero hself
    have hroot (k : Nat) : (room k ≠ 0 ∧ k ≠ start) ↔ fill room start k ≠ 0 :=
      ⟨fun hk => (hroots k hk.2).2 hk.1, fun hk => by
        have hne : k ≠ start := by
          rintro rfl
          exact hself hk
        exact ⟨(hroots k hne).1 hk, hne⟩⟩
    have hclimb := h.toClimbs.demote (Nat.lt_succ_self start) hlt fun i h₁ h₂ => by omega
    obtain ⟨z, hz, hzM⟩ := hclimb.exists_top (k := start + 1) hlt
    have hsz : start < z := hz.le
    have hlink : link z = start := h.link_eq hz.isRoot.1 (by omega) hzM t.first.isRoot hsz
      (fun i h₁ h₂ hr => hz.first i h₁ h₂ ⟨hr, by omega⟩) hpos
    have hdem := h.demote hpos t.first.isRoot hz.isRoot.1 hzM hlink (Nat.lt_succ_self start) hz.le
    have hset := hs.set (k := start) t.start_le (start + 1)
    refine ⟨z, _, _, fun go => ?_, hset.set hzM (link start), hdem.congr hroot, ?_, hzM⟩
    · rw [if_pos hfree, e.next_pos start hlt]
      simp only [bind, Except.bind]
      rw [hs.writeAt_eq hpos t.start_le]
      simp only
      rw [follow_spec hset hclimb (by omega) hz hzM]
      simp only
      rw [hset.writeAt_eq (by omega) hzM]
    · have hz' : IsTop (fun k => fill room start k ≠ 0) (start + 1) z :=
        ⟨hz.le, (hroot z).1 hz.isRoot, fun i h₁ h₂ hr => hz.first i h₁ h₂ ((hroot i).2 hr)⟩
      refine hz'.extend (by have := t.first.le; omega) fun i h₁ h₂ hr => ?_
      rcases Nat.lt_or_eq_of_le (Nat.le_of_lt_succ h₂) with hi | rfl
      · exact t.first.first i h₁ hi ((hroot i).2 hr).1
      · exact hself hr
  · have hroot (k : Nat) : room k ≠ 0 ↔ fill room start k ≠ 0 := by
      by_cases hne : k = start
      · subst hne
        rw [fill_self]
        exact ⟨fun _ => hfree, fun _ => t.first.isRoot⟩
      · exact (hroots k hne).symm
    refine ⟨start, tree, link, fun go => by rw [if_neg hfree], hs, h.congr hroot, ?_, t.start_le⟩
    exact ⟨t.first.le, (hroot start).1 t.first.isRoot,
      fun i h₁ h₂ hr => t.first.first i h₁ h₂ ((hroot i).2 hr)⟩

/-- The walk past the filled stretches around a bound. -/
theorem clear_spec (hcr : e.Shows e.value critical c) (hs : e.Shows e.pos halls up)
    (h : Chained M up (fun k => ¬ hall k)) (h1 : 1 ≤ x) (hM : x ≤ M)
    (hv : bounds[v]? = some (e.value (c x))) :
    ∃ w halls' up', (∀ go, e.clear critical v (e.pos x) (e.pos (up x)) bounds halls go =
        go (bounds.setIfInBounds v (e.value (c w))) halls') ∧ e.Shows e.pos halls' up' ∧
      Chained M up' (fun k => ¬ hall k) ∧ IsTop (fun k => ¬ hall k) x w ∧ w ≤ M := by
  have hle := link_le h.toClimbs h1 hM
  unfold clear
  by_cases hr : hall x
  · obtain ⟨⟨hlt, -⟩, hbetween⟩ := h.up x h1 hM (not_not_intro hr)
    obtain ⟨w, hw, hwM⟩ := h.toClimbs.exists_top hM
    have hup := h.toClimbs.link_le h1 hw hwM (not_not_intro hr)
    obtain ⟨halls', up', hred, hs', h'⟩ := compress hs h h1 hw hwM
    refine ⟨w, halls', up', fun go => ?_, hs', h', hw, hwM⟩
    have hw1 := Nat.le_trans h1 hw.le
    rw [if_pos ((e.ahead_pos x hM _ hle).2 hlt),
      follow_spec hs h.toClimbs (by omega) (hw.of_le (Nat.le_of_lt hlt) hup) hwM]
    simp only [bind, Except.bind]
    rw [hcr.readAt_eq hw1 hwM]
    simp only
    rw [writeAt_eq_ok.2 ⟨(Array.getElem?_eq_some_iff.1 hv).1, rfl⟩]
    simp only
    rw [hred]
  · have hdown := h.down x h1 hM hr
    refine ⟨x, halls, up, fun go => ?_, hs, h, ⟨Nat.le_refl x, hr, fun i h₁ h₂ => by omega⟩, hM⟩
    rw [if_neg fun ha => by have := (e.ahead_pos x hM _ hle).1 ha; omega]
    rw [show bounds.setIfInBounds v (e.value (c x)) = bounds from ?_]
    obtain ⟨hlt, hval⟩ := Array.getElem?_eq_some_iff.1 hv
    rw [← hval, Array.setIfInBounds_def, dif_pos hlt, Array.set_getElem_self]

/-- The walk that records a filled stretch. -/
theorem record_spec (free gap : Int) (hs : e.Shows e.pos halls up)
    (h : Chained M up (fun k => ¬ hall k))
    (hj : 1 ≤ j) (hjy : j < y) (hy : y ≤ M) (hry : ¬ hall y) (hrj : j = 1 ∨ ¬ hall (j - 1)) :
    ∃ halls' up', (∀ go, e.record halls (e.pos y) (e.pos j) free gap go = go halls') ∧
      e.Shows e.pos halls' up' ∧
      Chained M up' (fun k => ¬ (hall k ∨ (free = gap ∧ j ≤ k ∧ k < y))) := by
  unfold record
  by_cases heq : free = gap
  · obtain ⟨hbetween, -⟩ := h.chain y (by omega) hy hry
    have hself : Chained M (Function.update up y (up y)) (fun k => ¬ hall k) := by
      rw [Function.update_eq_self]
      exact h
    have hstop : j - 1 ≤ up y := by
      by_contra hlt
      exact hbetween (j - 1) (by omega) (by omega) (hrj.resolve_left (by omega))
    obtain ⟨halls', up', hred, hs', h'⟩ := gather hs hself hy hry (h.down y (by omega) hy hry)
      hstop (hrj.imp (by omega) id)
    refine ⟨halls', up', fun go => ?_, hs', h'.congr fun k => ?_⟩
    · rw [if_pos heq, hs.readAt_eq (by omega) hy]
      simp only [bind, Except.bind]
      have hback := e.back_pos (j - 1) (by omega)
      rw [Nat.sub_add_cancel hj] at hback
      rw [hback]
      simp only
      obtain ⟨mid, hmid, hwrite⟩ := bind_eq_ok.1 hred
      rw [hmid]
      simp only
      rw [hwrite]
    · have : j - 1 < k ↔ j ≤ k := by omega
      rw [not_or, this]
      exact and_congr_right fun _ => not_congr ⟨fun hk => ⟨heq, hk⟩, fun hk => hk.2⟩
  · refine ⟨halls, up, fun go => by rw [if_neg heq], hs, h.congr fun k => ?_⟩
    rw [not_or]
    exact ⟨fun hk => ⟨hk, fun hn => heq hn.1⟩, And.left⟩

/-- **One variable of a pass.**  Either it shows that there are too few values, or its bound
moves past the stretches that the variables before it fill. -/
theorem take_spec {p : Pass} (hc : Critical M c) (hcr : e.Shows e.value critical c)
    (ht : Tracks e c placed link up room hall p.forest) (hx : near[v]? = some (e.pos x))
    (hy : far[v]? = some (e.pos y)) (hb : 1 ≤ x ∧ x < y ∧ y < M)
    (hfar : ∀ s ∈ placed, s.far ≤ y) (hv : p.bounds[v]? = some (e.value (c x))) :
    (e.take critical near far v p = .ok none ∧
      ¬ Balanced (⟨c x, c y - 1⟩ :: boxes c placed)) ∨
    ∃ a start link' up' room' hall' f, e.take critical near far v p =
        .ok (some ⟨p.bounds.setIfInBounds v (e.value a), f⟩) ∧
      Cleared ⟨c x, c y - 1⟩ (boxes c placed) a ∧
      Tracks e c (⟨x, y, start⟩ :: placed) link' up' room' hall' f := by
  obtain ⟨start, hstart, hstartM⟩ := ht.tree.exists_top (k := x + 1) (by omega)
  have t : Turn M c placed room x y start :=
    ⟨hc, ht.greedy.placement, hb, hfar, hstart, hstartM⟩
  have hpos := t.start_pos
  have hx1 := hstart.le
  -- the root before the first piece with room
  obtain ⟨hbetween, hroot⟩ := ht.tree.chain start hpos hstartM hstart.isRoot
  have hjs := ht.tree.down start hpos hstartM hstart.isRoot
  have hone := ht.greedy.placement.room_one hc (by omega)
  have hj0 : link start ≠ 0 := fun h0 => hbetween 1 (by omega) (by omega) hone
  have hj : room (link start) ≠ 0 := hroot.resolve_left hj0
  have hzero : ∀ i, link start < i → i < start → room i = 0 := fun i h₁ h₂ =>
    by_contra fun hn => hbetween i h₁ h₂ hn
  have hjx := t.previous_le hj hjs
  -- the walks
  obtain ⟨z, tree', link', hvac, hstree, htree, hz, hzM⟩ := vacate_spec t ht.showsTree ht.tree
  obtain ⟨tree'', link'', hred, hstree', htree'⟩ := compress hstree htree (by omega) hz hzM
  have hsroom := ht.showsRoom.set hstartM (room start - 1)
  have hz1 : 1 ≤ z := by have := hz.le; omega
  have hread : readAt (p.forest.room.setIfInBounds (e.pos start) (room start - 1)) (e.pos z) =
      .ok (fill room start z) := hsroom.readAt_eq hz1 hzM
  have hnext := e.next_pos x (by omega)
  have hfollow := follow_spec ht.showsTree ht.tree.toClimbs (by omega) hstart hstartM
  have hlink := ht.showsTree.readAt_eq hpos hstartM
  have hroom : readAt p.forest.room (e.pos start) = .ok (room start) :=
    ht.showsRoom.readAt_eq hpos hstartM
  have hwrite := ht.showsRoom.writeAt_eq hpos hstartM (room start - 1)
  have hup := ht.showsHall.readAt_eq hb.1 (show x ≤ M by omega)
  have hfree : Width.sum.sub (room start) 1 = .ok (room start - 1) :=
    Width.sub_eq_ok.2 ⟨t.room_start_fits, rfl⟩
  unfold take
  simp only [readAt_eq_ok.2 hx, readAt_eq_ok.2 hy, hnext, hfollow, hlink, hroom, hfree, hwrite,
    hvac, hred, hread, bind, Except.bind,
    e.withGap_pos (hcr z hz1 hzM) (hcr y (by omega) (by omega)) (hc.fits z hzM y (by omega))]
  by_cases hle : start ≤ y
  · right
    obtain ⟨hgap, hgapeq⟩ := t.gap_le_room hz hzM hle
    obtain ⟨w, halls', up', hclear, hshall, hhalls, hw, hwM⟩ :=
      clear_spec hcr ht.showsHall ht.halls hb.1 (by omega) hv
    obtain ⟨halls'', up'', hrec, hshall', hhalls'⟩ := record_spec (fill room start z)
      (c z - c y) hshall hhalls (j := link start) (y := y) (by omega) (by omega)
      (by omega)
      (ht.greedy.not_hall_of_room (t.room_succ_ne_zero (Nat.le_refl y) hb.2.2))
      (.inr (ht.greedy.not_hall_of_room (by rw [Nat.sub_add_cancel (by omega)]; exact hj)))
    refine ⟨c w, start, link'', up'', fill room start, _, ⟨tree'', halls'', _⟩, ?_,
      ht.greedy.cleared hc hw hwM, ⟨ht.greedy.place t hle hz hj hjs hzero, hstree', htree',
        hshall', hhalls'.congr fun k => ?_, hsroom⟩⟩
    · rw [if_neg (Int.not_lt.2 hgap), hup]
      simp only [hclear, hrec]
      rfl
    · rw [hgapeq]
  · left
    refine ⟨?_, t.not_balanced hj hjs hzero (by omega)⟩
    rw [if_pos (t.room_lt_gap hz hzM (by omega))]
    rfl

/-- What a pass leaves: bounds past the filled stretches, and forests that still show all
positions. -/
structure Cleared.All (e : Side M) (c : Nat → Int) (box : Nat → Interval) (before : List Interval)
    (order : List Nat) (start : Array Int) (p : Pass) : Prop where
  balanced : Balanced ((order.map box).reverse ++ before)
  size : p.bounds.size = start.size
  aside : ∀ v, v ∉ order → p.bounds[v]? = start[v]?
  cleared : ∀ ds v rest, order = ds ++ v :: rest → ∃ a, p.bounds[v]? = some (e.value a) ∧
    Cleared (box v) ((ds.map box).reverse ++ before) a
  shows : ∃ placed link up room hall, Tracks e c placed link up room hall p.forest

theorem reverse_map_cons_append (box : Nat → Interval) (v : Nat) (vs : List Nat)
    (before : List Interval) : ((v :: vs).map box).reverse ++ before =
      (vs.map box).reverse ++ box v :: before := by
  rw [List.map_cons, List.reverse_cons, List.append_assoc, List.singleton_append]

/-- The first variable of a pass, with the box that the others find before them. -/
theorem Cleared.All.cons {box : Nat → Interval} {before : List Interval} {vs : List Nat}
    {a : Int} {q : Pass}
    (h : Cleared.All e c box (box v :: before) vs (bounds.setIfInBounds v (e.value a)) q)
    (hvs : v ∉ vs) (hlt : v < bounds.size) (ha : Cleared (box v) before a) :
    Cleared.All e c box before (v :: vs) bounds q where
  balanced := by
    rw [reverse_map_cons_append]
    exact h.balanced
  size := by rw [h.size, Array.size_setIfInBounds]
  aside w hw := by
    obtain ⟨hwv, hwvs⟩ := not_or.1 (mt List.mem_cons.2 hw)
    rw [h.aside w hwvs, Array.getElem?_setIfInBounds_ne (Ne.symm hwv)]
  cleared ds w rest heq := by
    rcases ds with _ | ⟨d, ds⟩
    · obtain ⟨rfl, rfl⟩ := List.cons.inj heq
      refine ⟨a, ?_, ha⟩
      rw [h.aside v hvs]
      exact Array.getElem?_setIfInBounds_self_of_lt hlt
    · obtain ⟨rfl, hrest⟩ := List.cons.inj heq
      rw [reverse_map_cons_append]
      exact h.cleared ds w rest hrest
  shows := h.shows

/-- **A whole pass.** -/
theorem takeAll_spec (order : List Nat) {p : Pass} {x y : Nat → Nat} (hc : Critical M c)
    (hcr : e.Shows e.value critical c) (ht : Tracks e c placed link up room hall p.forest)
    (hranks : ∀ v ∈ order, (near[v]? = some (e.pos (x v)) ∧ far[v]? = some (e.pos (y v))) ∧
      1 ≤ x v ∧ x v < y v ∧ y v < M)
    (hv : ∀ v ∈ order, p.bounds[v]? = some (e.value (c (x v)))) (hd : order.Nodup)
    (hsorted : order.Pairwise fun v w => y v ≤ y w)
    (hfar : ∀ s ∈ placed, ∀ v ∈ order, s.far ≤ y v) :
    (takeAll (e.take critical near far) order p = .ok none ∧
      ¬ Balanced ((order.map fun v => ⟨c (x v), c (y v) - 1⟩).reverse ++ boxes c placed)) ∨
    ∃ q, takeAll (e.take critical near far) order p = .ok (some q) ∧
      Cleared.All e c (fun v => ⟨c (x v), c (y v) - 1⟩) (boxes c placed) order p.bounds q := by
  induction order generalizing p placed link up room hall with
  | nil =>
    refine .inr ⟨p, rfl, ht.greedy.placement.balanced, rfl, fun v _ => rfl, fun ds v rest h => ?_,
      placed, link, up, room, hall, ht⟩
    exact absurd h.symm (List.append_ne_nil_of_right_ne_nil ds (List.cons_ne_nil v rest))
  | cons v vs ih =>
    obtain ⟨⟨hx, hy⟩, hb⟩ := hranks v List.mem_cons_self
    obtain ⟨hvs, hd⟩ := List.nodup_cons.1 hd
    obtain ⟨hle, hsorted⟩ := List.pairwise_cons.1 hsorted
    have hbound := hv v List.mem_cons_self
    have htake := take_spec hc hcr ht hx hy hb (fun s hs => hfar s hs v List.mem_cons_self) hbound
    rw [takeAll, reverse_map_cons_append]
    rcases htake with ⟨hnone, hover⟩ | ⟨a, start, link', up', room', hall', f, hsome, ha, ht'⟩
    · left
      rw [hnone]
      exact ⟨rfl, fun hbal => hover hbal.of_append⟩
    · rw [hsome]
      have hfar' : ∀ s ∈ (⟨x v, y v, start⟩ :: placed : List Spot), ∀ w ∈ vs, s.far ≤ y w := by
        intro s hs w hw
        rcases List.mem_cons.1 hs with rfl | hs
        · exact hle w hw
        · exact hfar s hs w (List.mem_cons_of_mem _ hw)
      have hv' : ∀ w ∈ vs, (p.bounds.setIfInBounds v (e.value a))[w]? =
          some (e.value (c (x w))) := fun w hw => by
        rw [Array.getElem?_setIfInBounds_ne (ne_of_mem_of_not_mem hw hvs).symm]
        exact hv w (List.mem_cons_of_mem _ hw)
      rcases ih (p := ⟨p.bounds.setIfInBounds v (e.value a), f⟩) ht'
        (fun w hw => hranks w (List.mem_cons_of_mem _ hw)) hv' hd hsorted hfar' with
        hfail | ⟨q, hq, hall⟩
      · exact .inl hfail
      · have hlt := (Array.getElem?_eq_some_iff.1 hbound).1
        exact .inr ⟨q, hq, hall.cons hvs hlt ha⟩

/-- Before a pass every position has room and none lies in a filled stretch. -/
theorem tracks_start {f : Forest} (hc : Critical M c) (hM : 1 ≤ M)
    (htree : e.Shows e.pos f.tree (· - 1)) (hhall : e.Shows e.pos f.hall (· - 1))
    (hroom : e.Shows id f.room fun k => c k - c (k - 1)) :
    Tracks e c [] (· - 1) (· - 1) (fun k => c k - c (k - 1)) (fun _ => False) f := by
  have hne (k : Nat) (h1 : 1 ≤ k) (hk : k ≤ M) : c k - c (k - 1) ≠ 0 := by
    have := hc.lt (k := k - 1) (n := k) (by omega) hk
    omega
  refine ⟨⟨⟨fun s hs => absurd hs List.not_mem_nil, fun s hs => absurd hs List.not_mem_nil,
    fun k hk => ?_, fun k hk => ?_⟩, fun k hk => hk.elim, fun p q k hf => ?_, fun k hk => hk.elim⟩,
    htree, .all_roots hM hne, hhall, .all_roots hM fun k _ _ => id, hroom⟩
  · rw [List.countP_nil, Nat.add_sub_cancel]
    omega
  · have := hc.step k hk
    rw [Nat.add_sub_cancel]
    omega
  · obtain ⟨hpq, heq⟩ := hf
    have hzero : crowd p q (boxes c []) = 0 := rfl
    omega

section Boxes

variable {is : List Interval} {order : List Nat} {box : Nat → Interval}

/-- The boxes in the order of a pass are the intervals. -/
theorem map_box_perm (hperm : order.Perm (List.range is.length))
    (hbox : ∀ {v : Nat} {i : Interval}, is[v]? = some i → i = box v) : (order.map box).Perm is := by
  refine (hperm.map _).trans (List.Perm.of_eq (List.ext_getElem? fun v => ?_))
  rw [List.getElem?_map]
  rcases Nat.lt_or_ge v is.length with hlt | hge
  · rw [List.getElem?_range hlt, List.getElem?_eq_getElem hlt]
    exact congrArg some (hbox (List.getElem?_eq_getElem hlt)).symm
  · rw [List.getElem?_eq_none hge, List.getElem?_eq_none (by rw [List.length_range]; exact hge)]
    rfl

/-- **A whole pass over the intervals leaves their least values**, since those that come after
a variable end no earlier. -/
theorem Cleared.All.least {bounds : Array Int} {q : Pass}
    (h : Cleared.All e c box [] order bounds q) (hf : Filled is) (hb : Balanced is)
    (hperm : order.Perm (List.range is.length))
    (hbox : ∀ {v : Nat} {i : Interval}, is[v]? = some i → i = box v)
    (hsorted : order.Pairwise fun v w => (box v).max ≤ (box w).max) {i : Interval}
    (hv : is[v]? = some i) : ∃ a, q.bounds[v]? = some (e.value a) ∧ LeastValue is v a := by
  have hlt := (List.getElem?_eq_some_iff.1 hv).1
  obtain ⟨ds, rest, rfl⟩ := List.append_of_mem (hperm.mem_iff.2 (List.mem_range.2 hlt))
  obtain ⟨a, ha, hclear⟩ := h.cleared ds v rest rfl
  have hboxes := map_box_perm hperm hbox
  rw [List.append_nil, ← hbox hv] at hclear
  refine ⟨a, ha, hclear.least (rest.map box) hf hv ?_ (fun j hj => ?_) hb⟩
  · rw [List.map_append, List.map_cons, ← hbox hv] at hboxes
    have hother := hboxes.trans (List.getElem_cons_eraseIdx_perm hlt).symm
    rw [(List.getElem?_eq_some_iff.1 hv).2] at hother
    exact ((List.perm_middle.symm.trans hother).cons_inv.symm).trans
      ((List.reverse_perm _).symm.append_right _)
  · obtain ⟨w, hw, rfl⟩ := List.mem_map.1 hj
    rw [hbox hv]
    exact (List.pairwise_cons.1 (List.pairwise_append.1 hsorted).2.1).1 w hw

end Boxes

variable {is : List Interval}

/-- **A pass computes the least values.** -/
theorem pass_spec (critical : Array Int) (near far : Array Nat) (order : List Nat) {p : Pass}
    (hc : Critical M c) (hcr : e.Shows e.value critical c)
    (ht : Tracks e c [] link up room hall p.forest) (hf : Filled is)
    (hranks : ∀ {v : Nat} {i : Interval}, is[v]? = some i → ∃ x y, near[v]? = some (e.pos x) ∧
      far[v]? = some (e.pos y) ∧ (1 ≤ x ∧ x < y ∧ y < M) ∧ i = ⟨c x, c y - 1⟩)
    (hstart : ∀ {v : Nat} {i : Interval}, is[v]? = some i → p.bounds[v]? = some (e.value i.min))
    (hperm : order.Perm (List.range is.length))
    (hsorted : order.Pairwise fun v w => ∀ {i j : Interval}, is[v]? = some i → is[w]? = some j →
      i.max ≤ j.max) :
    (takeAll (e.take critical near far) order p = .ok none ∧ ¬ Balanced is) ∨
    ∃ q, takeAll (e.take critical near far) order p = .ok (some q) ∧ Balanced is ∧
      q.bounds.size = p.bounds.size ∧ (∀ {v : Nat} {i : Interval}, is[v]? = some i →
        ∃ a, q.bounds[v]? = some (e.value a) ∧ LeastValue is v a) ∧
      ∃ placed link up room hall, Tracks e c placed link up room hall q.forest := by
  have hmem {v : Nat} (hv : v ∈ order) : ∃ i, is[v]? = some i := by
    rw [hperm.mem_iff, List.mem_range] at hv
    exact ⟨_, List.getElem?_eq_getElem hv⟩
  let x (v : Nat) := e.pos (near.getD v 0)
  let y (v : Nat) := e.pos (far.getD v 0)
  let box (v : Nat) : Interval := ⟨c (x v), c (y v) - 1⟩
  have hxy {v : Nat} {i : Interval} (hv : is[v]? = some i) : (near[v]? = some (e.pos (x v)) ∧
      far[v]? = some (e.pos (y v))) ∧ (1 ≤ x v ∧ x v < y v ∧ y v < M) ∧ i = box v := by
    obtain ⟨m, n, hm, hn, hb, hi⟩ := hranks hv
    have hx : x v = m := by
      simp only [x, Array.getD_eq_getD_getElem?, hm, Option.getD_some]
      exact e.pos_pos m (by omega)
    have hy : y v = n := by
      simp only [y, Array.getD_eq_getD_getElem?, hn, Option.getD_some]
      exact e.pos_pos n (by omega)
    dsimp only [box]
    rw [hx, hy]
    exact ⟨⟨hm, hn⟩, hb, hi⟩
  have hbox {v : Nat} {i : Interval} (hv : is[v]? = some i) : i = box v := (hxy hv).2.2
  have hends : order.Pairwise fun v w => (box v).max ≤ (box w).max :=
    hsorted.imp_of_mem fun {v w} hv hw hle => by
      obtain ⟨i, hi⟩ := hmem hv
      obtain ⟨j, hj⟩ := hmem hw
      rw [← hbox hi, ← hbox hj]
      exact hle hi hj
  have hall := takeAll_spec order (p := p) (x := x) (y := y) hc hcr ht
    (fun v hv => by
      obtain ⟨i, hi⟩ := hmem hv
      obtain ⟨h₁, h₂, -⟩ := hxy hi
      exact ⟨h₁, h₂⟩)
    (fun v hv => by
      obtain ⟨i, hi⟩ := hmem hv
      rw [hstart hi, hbox hi])
    (hperm.nodup_iff.2 List.nodup_range)
    (hends.imp_of_mem fun {v w} hv hw hle => by
      obtain ⟨i, hi⟩ := hmem hv
      obtain ⟨-, hb, -⟩ := hxy hi
      have hle : c (y v) - 1 ≤ c (y w) - 1 := hle
      by_contra hlt
      have := hc.lt (Nat.lt_of_not_le hlt) (by omega)
      omega)
    (fun s hs => absurd hs List.not_mem_nil)
  have hback : ((order.map box).reverse ++ boxes c []).Perm is := by
    rw [show boxes c [] = [] from rfl, List.append_nil]
    exact (List.reverse_perm _).trans (map_box_perm hperm hbox)
  rcases hall with ⟨hnone, hover⟩ | ⟨q, hq, hcl⟩
  · exact .inl ⟨hnone, fun hb => hover (hb.perm hback.symm)⟩
  · have hb : Balanced is := hcl.balanced.perm hback
    exact .inr ⟨q, hq, hb, hcl.size, hcl.least hf hb hperm hbox hends, hcl.shows⟩

end Side

end AllDifferent
end BoundsSolver
