import GaspiCxx.Passive.Settling
import GaspiCxx.SingleSided.Connect.Model

/-!
# What connected endpoints know of each other

The counters of the channels are positions of the halves' programs (`view`): a
half posts once and waits once for each of its two buffers in every call. So the
packets of a channel are the local descriptions of its half, and what a half
receives is, call by call, what its dual was connected with.
-/

namespace GaspiCxx.SingleSided.Connect

open OneSided Passive

/-- The halves' programs as users of the channels. -/
def view (s : State) (packet : Half → Nat → BufferDescription) : View Half Empty BufferDescription where
  base := s.others
  blocks := s.otherBlocks
  held := s.held
  made h := (s.progress h).passed 0
  posts
    | .src, c => (s.progress c).passed 1
    | .rcv, c => (s.progress c.dual).passed 3
  taken
    | .send h => (s.progress h).passed 5
    | .recv c => (s.progress c.dual).passed 4
    | .other q => q.elim
  sent := nofun
  packet := packet

structure Inv (D : Serialization.Typedefs) (s : State) (packet : Half → Nat → BufferDescription)
    (posted : Port Half Empty → Nat) : Prop where
  consistent : Consistent (layout D) (fun q => q.elim) (fun q => q.elim) (view s packet) s.net posted
  bound : ∀ h, (s.progress h).steps < length
  sends : ∀ h, (s.held (.send h)).isSome ↔ 0 < (s.progress h).steps
  recvs : ∀ h, (s.held (.recv h.dual)).isSome ↔ 2 < (s.progress h).steps
  locals : ∀ h, s.locals h = (List.range ((s.progress h).passed 0)).map (packet h)
  remotes : ∀ h, s.remotes h = (List.range ((s.progress h).passed 4)).map (packet h.dual)

variable {D : Serialization.Typedefs} {s s' : State} {packet : Half → Nat → BufferDescription}
  {posted : Port Half Empty → Nat} {h g : Half} {i : Nat}

/-! ## The counters -/

theorem passed_tick (hi : (s.progress h).steps = i) (hb : i < length) {j : Nat} (hj : j < length) :
    (Progress.tick length s.progress h g).passed j =
      (s.progress g).passed j + if g = h ∧ j = i then 1 else 0 := by
  rw [Progress.passed_tick (by omega) hj, hi]

/-- A half that goes on moves the counter its position stands for. -/
theorem view_tick (hp : s'.progress = Progress.tick length s.progress h) (hi : (s.progress h).steps = i)
    (hb : i < length) (packet packet' : Half → Nat → BufferDescription) :
    view s' packet' =
      { base := s'.others
        blocks := s'.otherBlocks
        held := s'.held
        made := if i = 0 then bump (view s packet).made h else (view s packet).made
        posts :=
          if i = 1 then bumpPosts (view s packet).posts .src h
          else if i = 3 then bumpPosts (view s packet).posts .rcv h.dual
          else (view s packet).posts
        taken :=
          if i = 4 then bump (view s packet).taken (.recv h.dual)
          else if i = 5 then bump (view s packet).taken (.send h)
          else (view s packet).taken
        sent := (view s packet).sent
        packet := packet' } := by
  have hn : length = 6 := rfl
  have hpass : ∀ g j, j < length →
      (s'.progress g).passed j = (s.progress g).passed j + if g = h ∧ j = i then 1 else 0 := by
    intro g j hj
    rw [hp, passed_tick hi hb hj]
  unfold view
  simp only [View.mk.injEq, true_and, and_true]
  refine ⟨funext fun g => ?_, funext fun role => funext fun c => ?_, funext fun p => ?_⟩
  · rw [hpass g 0 (by omega)]
    by_cases h0 : i = 0
    · subst h0; simp [bump_apply]
    · rw [if_neg fun he => h0 he.2.symm, if_neg h0, Nat.add_zero]
  · cases role with
    | src =>
      simp only
      rw [hpass c 1 (by omega)]
      by_cases h1 : i = 1
      · subst h1; simp [bumpPosts_apply]
      · rw [if_neg fun he => h1 he.2.symm, if_neg h1, Nat.add_zero]
        split
        · simp [bumpPosts_apply]
        · rfl
    | rcv =>
      simp only
      rw [hpass c.dual 3 (by omega)]
      by_cases h3 : i = 3
      · subst h3; simp [bumpPosts_apply, Half.dual_eq_iff]
      · rw [if_neg fun he => h3 he.2.symm, if_neg h3, Nat.add_zero]
        split
        · simp [bumpPosts_apply]
        · rfl
  · cases p with
    | other q => exact q.elim
    | send g =>
      simp only
      rw [hpass g 5 (by omega)]
      by_cases h5 : i = 5
      · subst h5; simp [bump_apply]
      · rw [if_neg fun he => h5 he.2.symm, if_neg h5, Nat.add_zero]
        split
        · simp [bump_apply]
        · rfl
    | recv c =>
      simp only
      rw [hpass c.dual 4 (by omega)]
      by_cases h4 : i = 4
      · subst h4; simp [bump_apply, Half.dual_eq_iff]
      · rw [if_neg fun he => h4 he.2.symm, if_neg h4, Nat.add_zero]
        split
        · simp [bump_apply]
        · rfl

theorem steps_tick (hi : (s.progress h).steps = i) (hb : i < length) (g : Half) :
    (Progress.tick length s.progress h g).steps =
      if g = h then if i = 5 then 0 else i + 1 else (s.progress g).steps := by
  have hn : length = 6 := rfl
  by_cases hg : g = h
  · subst hg
    rw [Progress.tick_self, if_pos rfl]
    unfold Progress.advance
    rw [hi]
    split <;> split <;> simp only <;> omega
  · rw [Progress.tick_ne hg, if_neg hg]

/-! ## The steps -/

/-- Half `h` goes on from position `i`: what is left to show of the next state. -/
theorem Inv.move (hinv : Inv D s packet posted) (hp : s'.progress = Progress.tick length s.progress h)
    (hi : (s.progress h).steps = i) {packet' : Half → Nat → BufferDescription} {posted' : Port Half Empty → Nat}
    (hc : Consistent (layout D) (fun q => q.elim) (fun q => q.elim) (view s' packet') s'.net posted')
    (hsends : ∀ g, (s'.held (.send g)).isSome ↔ if g = h then i < 5 else (s.held (.send g)).isSome)
    (hrecvs : ∀ g, (s'.held (.recv g.dual)).isSome ↔
      if g = h then 2 ≤ i ∧ i < 5 else (s.held (.recv g.dual)).isSome)
    (hlocals : ∀ g, s'.locals g =
      (List.range ((s.progress g).passed 0 + if g = h ∧ 0 = i then 1 else 0)).map (packet' g))
    (hremotes : ∀ g, s'.remotes g =
      (List.range ((s.progress g).passed 4 + if g = h ∧ 4 = i then 1 else 0)).map (packet' g.dual)) :
    Inv D s' packet' posted' := by
  have hb : i < length := hi ▸ hinv.bound h
  have hn : length = 6 := rfl
  refine ⟨hc, fun g => ?_, fun g => ?_, fun g => ?_, fun g => ?_, fun g => ?_⟩
  · rw [hp]; exact Progress.tick_steps_lt hinv.bound g
  · rw [hsends g, hp, steps_tick hi hb g, hinv.sends g]
    split
    · split <;> omega
    · rfl
  · rw [hrecvs g, hp, steps_tick hi hb g, hinv.recvs g]
    split
    · split <;> omega
    · rfl
  · rw [hlocals g, hp, passed_tick hi hb (by omega)]
  · rw [hremotes g, hp, passed_tick hi hb (by omega)]

/-- A half's two buffers, where its position does not create or give up one. -/
theorem Inv.sends_same (hinv : Inv D s packet posted) (hi : (s.progress h).steps = i) (h0 : 0 < i) (h5 : i < 5)
    (g : Half) : (s.held (.send g)).isSome ↔ if g = h then i < 5 else (s.held (.send g)).isSome := by
  split
  · next hg =>
    subst hg
    rw [hinv.sends g, hi]
    omega
  · rfl

theorem Inv.recvs_same (hinv : Inv D s packet posted) (hi : (s.progress h).steps = i) (h2 : i ≠ 2) (h5 : i < 5)
    (g : Half) :
    (s.held (.recv g.dual)).isSome ↔ if g = h then 2 ≤ i ∧ i < 5 else (s.held (.recv g.dual)).isSome := by
  split
  · next hg =>
    subst hg
    rw [hinv.recvs g, hi]
    omega
  · rfl

theorem Inv.locals_same (hinv : Inv D s packet posted) (h0 : 0 ≠ i) (g : Half) :
    s.locals g = (List.range ((s.progress g).passed 0 + if g = h ∧ 0 = i then 1 else 0)).map (packet g) := by
  rw [if_neg fun he => h0 he.2, Nat.add_zero, hinv.locals g]

theorem Inv.remotes_same (hinv : Inv D s packet posted) (h4 : 4 ≠ i) (g : Half) :
    s.remotes g = (List.range ((s.progress g).passed 4 + if g = h ∧ 4 = i then 1 else 0)).map (packet g.dual) := by
  rw [if_neg fun he => h4 he.2, Nat.add_zero, hinv.remotes g]

/-- What a half at position `i` has passed in this call, and what not. -/
theorem passed_eq (hi : (s.progress h).steps = i) (j : Nat) :
    (s.progress h).passed j = (s.progress h).run + if j < i then 1 else 0 := by
  unfold Progress.passed
  rw [hi]

/-- Packets recorded later do not matter. -/
theorem map_range_record (f : Half → Nat → BufferDescription) (c g : Half) (k n : Nat) (v : BufferDescription)
    (hn : g = c → n ≤ k) : (List.range n).map (record f c k v g) = (List.range n).map (f g) := by
  refine List.map_congr_left fun j hj => record_ne _ _ fun hg => ?_
  have hj := List.mem_range.mp hj
  have := hn hg
  omega

theorem Inv.connect (hinv : Inv D s packet posted) {localDesc d : BufferDescription} (hat : At s h 0)
    (hd : Fresh D s h.rank d) :
    ∃ packet', Inv D
      { s with
        net := (s.net.newBuffer d).serialize d localDesc
        held := Function.update s.held (.send h) (some d)
        progress := Progress.tick length s.progress h
        locals := Function.update s.locals h (s.locals h ++ [localDesc]) } packet' posted := by
  have hi := hat.steps
  have hnone : s.held (.send h) = none := by
    have := hinv.sends h
    rw [hi] at this
    simpa using this
  have hmade : (s.progress h).passed 0 = (s.progress h).passed 5 := by
    rw [passed_eq hi, passed_eq hi]; rfl
  have hposts : (s.progress h).passed 1 = (s.progress h).passed 5 := by
    rw [passed_eq hi, passed_eq hi]; rfl
  have hnew := hinv.consistent.newBuffer (c := h) (d := d) .src hnone hd.rank hd.size (hd.rank ▸ hd.slot)
    (hd.rank ▸ hd.block) hposts
  have hc := hnew.serialize (c := h) (d := d) (Function.update_self ..) hmade localDesc
  refine ⟨record packet h ((s.progress h).passed 0) localDesc,
    hinv.move (h := h) (i := 0) rfl hi ?_ (fun g => ?_) (fun g => ?_) (fun g => ?_) (fun g => ?_)⟩
  · rw [view_tick (s := s) rfl hi (by decide) packet]
    exact hc
  · by_cases hg : g = h
    · subst hg; simp
    · simp [hg]
  · simp only [Function.update_of_ne (show (Port.recv g.dual : Port Half Empty) ≠ .send h from nofun)]
    exact hinv.recvs_same hi (by decide) (by decide) g
  · by_cases hg : g = h
    · subst hg
      simp only [Function.update_self, and_self, if_true, List.range_succ, List.map_append, List.map_cons,
        List.map_nil, record_self]
      rw [map_range_record _ _ _ _ _ _ fun _ => Nat.le_refl _, hinv.locals g]
    · simp only [Function.update_of_ne hg, hg, false_and, if_false, Nat.add_zero]
      rw [map_range_record _ _ _ _ _ _ fun he => absurd he hg, hinv.locals g]
  · simp only [Nat.reduceEqDiff, and_false, if_false, Nat.add_zero]
    rw [map_range_record _ _ _ _ _ _ fun hg => ?_, hinv.remotes g]
    have hle := hinv.consistent.recv_le .src g.dual
    have hle' := (hinv.consistent.made g.dual).1
    simp only [view, Half.dual_dual] at hle hle'
    rw [← hg]
    omega

theorem Inv.iSendTagMessg (hinv : Inv D s packet posted) {d : BufferDescription} {sendTag recvTag : Tag}
    (hat : At s h 1) (hd : s.held (.send h) = some d)
    (ht : connectTags h.type h.tag = .ok (sendTag, recvTag)) :
    Inv D
      { s with
        net := s.net.iSendTagMessg h.rank (some h) h.peer sendTag d
        progress := Progress.tick length s.progress h } packet posted := by
  have hi := hat.steps
  rw [Half.connectTags_eq] at ht
  obtain ⟨rfl, rfl⟩ := Prod.mk.inj (Except.ok.inj ht)
  have hposts : (s.progress h).passed 1 = (s.progress h).passed 5 := by
    rw [passed_eq hi, passed_eq hi]; rfl
  have hmade : (s.progress h).passed 0 = (s.progress h).passed 5 + 1 := by
    rw [passed_eq hi, passed_eq hi]; rfl
  have hc := hinv.consistent.iSendTagMessg (c := h) (some h) hd hposts hmade
  refine hinv.move (h := h) (i := 1) rfl hi ?_ (hinv.sends_same hi (by decide) (by decide))
    (hinv.recvs_same hi (by decide) (by decide)) (hinv.locals_same (by decide)) (hinv.remotes_same (by decide))
  rw [view_tick (s := s) rfl hi (by decide) packet]
  exact hc

theorem Inv.newRecvBuffer (hinv : Inv D s packet posted) {d : BufferDescription} (hat : At s h 2)
    (hd : Fresh D s h.rank d) :
    Inv D
      { s with
        net := s.net.newBuffer d
        held := Function.update s.held (.recv h.dual) (some d)
        progress := Progress.tick length s.progress h } packet posted := by
  have hi := hat.steps
  have hnone : s.held (.recv h.dual) = none := by
    have := hinv.recvs h
    rw [hi] at this
    simpa using this
  have hposts : (s.progress h.dual.dual).passed 3 = (s.progress h.dual.dual).passed 4 := by
    rw [Half.dual_dual, passed_eq hi, passed_eq hi]; rfl
  have hc := hinv.consistent.newBuffer (c := h.dual) (d := d) .rcv hnone hd.rank hd.size (hd.rank ▸ hd.slot)
    (hd.rank ▸ hd.block) hposts
  refine hinv.move (h := h) (i := 2) rfl hi ?_ (fun g => ?_) (fun g => ?_) (hinv.locals_same (by decide))
    (hinv.remotes_same (by decide))
  · rw [view_tick (s := s) rfl hi (by decide) packet]
    exact hc
  · simp only [Function.update_of_ne (show (Port.send g : Port Half Empty) ≠ .recv h.dual from nofun)]
    exact hinv.sends_same hi (by decide) (by decide) g
  · by_cases hg : g = h
    · subst hg; simp
    · have hne : (Port.recv g.dual : Port Half Empty) ≠ .recv h.dual := by
        intro he
        injection he with he
        exact hg (by rw [← Half.dual_dual g, he, Half.dual_dual])
      simp [hg, Function.update_of_ne hne]

theorem Inv.iRecvTagMessg (hinv : Inv D s packet posted) {d : BufferDescription} {sendTag recvTag : Tag}
    (hat : At s h 3) (hd : s.held (.recv h.dual) = some d)
    (ht : connectTags h.type h.tag = .ok (sendTag, recvTag)) :
    Inv D
      { s with
        net := s.net.iRecvTagMessg h.rank (some h) h.peer recvTag d
        progress := Progress.tick length s.progress h } packet posted := by
  have hi := hat.steps
  rw [Half.connectTags_eq] at ht
  obtain ⟨rfl, rfl⟩ := Prod.mk.inj (Except.ok.inj ht)
  have hposts : (s.progress h.dual.dual).passed 3 = (s.progress h.dual.dual).passed 4 := by
    rw [Half.dual_dual, passed_eq hi, passed_eq hi]; rfl
  have hc := hinv.consistent.iRecvTagMessg (c := h.dual) (some h) hd hposts
  refine hinv.move (h := h) (i := 3) rfl hi ?_ (hinv.sends_same hi (by decide) (by decide))
    (hinv.recvs_same hi (by decide) (by decide)) (hinv.locals_same (by decide)) (hinv.remotes_same (by decide))
  rw [view_tick (s := s) rfl hi (by decide) packet]
  exact hc

/-- What a half receives in its `k`-th call is what its dual was connected with in
the `k`-th call. -/
theorem Inv.waitRecv (hinv : Inv D s packet posted) {d : BufferDescription}
    {net : Net (Option Half) BufferDescription Empty} (hat : At s h 4) (hd : s.held (.recv h.dual) = some d)
    (hN : s.net.waitForNotification d = some net) :
    Inv D
      { s with
        net := net
        progress := Progress.tick length s.progress h
        remotes := Function.update s.remotes h (s.remotes h ++ [net.deserialize d]) } packet posted := by
  have hi := hat.steps
  obtain ⟨hhere, -, hc⟩ := hinv.consistent.take (p := .recv h.dual) hd hN
  have hread : net.deserialize d = packet h.dual ((s.progress h).passed 4) := by
    obtain ⟨-, rfl⟩ := Net.waitForNotification_some hN
    unfold Net.deserialize
    simpa only [Here, View.next, view, Half.dual_dual] using hhere
  refine hinv.move (h := h) (i := 4) rfl hi ?_ (hinv.sends_same hi (by decide) (by decide))
    (hinv.recvs_same hi (by decide) (by decide)) (hinv.locals_same (by decide)) (fun g => ?_)
  · rw [view_tick (s := s) rfl hi (by decide) packet]
    exact hc
  · by_cases hg : g = h
    · subst hg
      simp only [Function.update_self, and_self, if_true, List.range_succ, List.map_append, List.map_cons,
        List.map_nil]
      rw [hinv.remotes g, hread]
    · simp only [Function.update_of_ne hg, hg, false_and, if_false, Nat.add_zero]
      exact hinv.remotes g

theorem Inv.waitSend (hinv : Inv D s packet posted) {d e : BufferDescription}
    {net : Net (Option Half) BufferDescription Empty} (hat : At s h 5) (hd : s.held (.send h) = some d)
    (he : s.held (.recv h.dual) = some e) (hN : s.net.waitForNotification d = some net) :
    Inv D
      { s with
        net := net
        held := Function.update (Function.update s.held (.send h) none) (.recv h.dual) none
        progress := Progress.tick length s.progress h
        others := insertAt (insertAt s.others d.rank d.slot) e.rank e.slot
        otherBlocks := insertAt (insertAt s.otherBlocks d.rank d.block) e.rank e.block } packet posted := by
  have hi := hat.steps
  have hne : (Port.recv h.dual : Port Half Empty) ≠ .send h := nofun
  obtain ⟨-, -, hc⟩ := hinv.consistent.take (p := .send h) hd hN
  -- neither buffer has anything on its way to it any more
  have hposts : (s.progress h).passed 1 = bump (view s packet).taken (.send h) (.send h) := by
    rw [bump_apply, if_pos rfl]
    simp only [view]
    rw [passed_eq hi, passed_eq hi]; rfl
  have hmade : (s.progress h).passed 0 = bump (view s packet).taken (.send h) (.send h) := by
    rw [bump_apply, if_pos rfl]
    simp only [view]
    rw [passed_eq hi, passed_eq hi]; rfl
  have hrecv : (s.progress h.dual.dual).passed 3 = bump (view s packet).taken (.send h) (.recv h.dual) := by
    rw [bump_apply, if_neg hne]
    simp only [view, Half.dual_dual]
    rw [passed_eq hi, passed_eq hi]; rfl
  have hc := hc.retire (c := h) .src hd hposts fun _ => hmade
  have he' : Function.update s.held (.send h) none (.recv h.dual) = some e := by
    rw [Function.update_of_ne hne, he]
  have hc := hc.retire (c := h.dual) .rcv he' hrecv nofun
  refine hinv.move (h := h) (i := 5) rfl hi ?_ (fun g => ?_) (fun g => ?_) (hinv.locals_same (by decide))
    (hinv.remotes_same (by decide))
  · rw [view_tick (s := s) rfl hi (by decide) packet]
    exact hc
  · have hgne : (Port.send g : Port Half Empty) ≠ .recv h.dual := nofun
    simp only [Function.update_of_ne hgne]
    by_cases hg : g = h
    · subst hg; simp
    · simp [hg]
  · by_cases hg : g = h
    · subst hg; simp
    · have hgne : (Port.recv g.dual : Port Half Empty) ≠ .recv h.dual := by
        intro he
        injection he with he
        exact hg (by rw [← Half.dual_dual g, he, Half.dual_dual])
      simp [hg, Function.update_of_ne hgne]

/-- Steps in which no half goes on. -/
theorem Inv.same (hinv : Inv D s packet posted) {net : Net (Option Half) BufferDescription Empty}
    {others : Rank → Finset Slot} {otherBlocks : Rank → Finset Block} {posted' : Port Half Empty → Nat}
    (hc : Consistent (layout D) (fun q => q.elim) (fun q => q.elim)
      { view s packet with base := others, blocks := otherBlocks } net posted') :
    Inv D { s with net := net, others := others, otherBlocks := otherBlocks } packet posted' :=
  ⟨hc, hinv.bound, hinv.sends, hinv.recvs, hinv.locals, hinv.remotes⟩

theorem Inv.step (hinv : Inv D s packet posted) (hs : Step D s s') :
    ∃ packet' posted', Inv D s' packet' posted' := by
  cases hs with
  | connect h localDesc d hat hd =>
    obtain ⟨packet', h'⟩ := hinv.connect hat hd
    exact ⟨packet', posted, h'⟩
  | iSendTagMessg h d sendTag recvTag hat hd ht => exact ⟨packet, posted, hinv.iSendTagMessg hat hd ht⟩
  | newRecvBuffer h d hat hd => exact ⟨packet, posted, hinv.newRecvBuffer hat hd⟩
  | iRecvTagMessg h d sendTag recvTag hat hd ht => exact ⟨packet, posted, hinv.iRecvTagMessg hat hd ht⟩
  | waitRecv h d net hat hd hN => exact ⟨packet, posted, hinv.waitRecv hat hd hN⟩
  | waitSend h d e net hat hd he hN => exact ⟨packet, posted, hinv.waitSend hat hd he hN⟩
  | net net hN =>
    obtain ⟨posted', hc⟩ := hinv.consistent.step nofun nofun hN
    exact ⟨packet, posted', hinv.same hc⟩
  | acquire_notification r x hx =>
    have hc := hinv.consistent
    exact ⟨packet, posted, hinv.same (hc.rebase (hc.slots.base_insert hx) hc.blks)⟩
  | allocate r b hb =>
    have hc := hinv.consistent
    exact ⟨packet, posted, hinv.same (hc.rebase hc.slots (hc.blks.base_insert hb))⟩
  | release_notification r x hx =>
    have hc := hinv.consistent
    exact ⟨packet, posted, hinv.same (hc.rebase (hc.slots.base_erase hx) hc.blks)⟩
  | deallocate r b hb =>
    have hc := hinv.consistent
    exact ⟨packet, posted, hinv.same (hc.rebase hc.slots (hc.blks.base_erase hb))⟩

theorem Inv.initial (live : Rank → Finset Slot) (allocated : Rank → Finset Block)
    (memory : Rank × Block → BufferDescription) (packet : Half → Nat → BufferDescription) :
    Inv D (State.initial live allocated memory) packet fun _ => 0 := by
  have hv : view (State.initial live allocated memory) packet =
      { base := live, blocks := allocated, held := fun _ => none, made := fun _ => 0, posts := fun _ _ => 0,
        taken := fun _ => 0, sent := fun _ => 0, packet := packet } := by
    simp only [view, State.initial, View.mk.injEq, true_and, and_true]
    refine ⟨rfl, funext fun role => ?_, funext fun p => ?_, funext nofun⟩
    · cases role <;> rfl
    · cases p with
      | other q => exact q.elim
      | send h => rfl
      | recv c => rfl
  refine ⟨?_, fun _ => Nat.zero_lt_succ 5, fun _ => by simp [State.initial], fun _ => by simp [State.initial],
    fun _ => rfl, fun _ => rfl⟩
  rw [hv]
  exact Consistent.quiet (layout D) _ _ live allocated memory packet

theorem Reachable.trans (hs : Reachable D s) (h : Relation.ReflTransGen (Step D) s s') : Reachable D s' := by
  obtain ⟨live, allocated, memory, hrun⟩ := hs
  exact ⟨live, allocated, memory, Relation.ReflTransGen.trans hrun h⟩

theorem Reachable.inv (hs : Reachable D s) : ∃ packet posted, Inv D s packet posted := by
  obtain ⟨live, allocated, memory, hrun⟩ := hs
  induction hrun with
  | refl => exact ⟨fun _ _ => ⟨0, 0, 0, 0, 0⟩, _, Inv.initial ..⟩
  | tail _ hstep ih =>
    obtain ⟨packet, posted, hinv⟩ := ih
    exact hinv.step hstep

/-! ## Nothing is lost -/

theorem free_of_delivered (hN : s.net.Delivered) (r : Rank) (th : Option Half) : s.net.Free r th := by
  intro key
  refine ⟨fun t ht => ?_, fun d hd => ?_⟩
  · rw [hN.inHand] at ht; cases ht
  · rw [hN.written] at hd; cases hd

theorem exists_fresh (D : Serialization.Typedefs) (s : State) (r : Rank) : ∃ d, Fresh D s r d := by
  obtain ⟨n, hn⟩ := Infinite.exists_notMem_finset ((s.net.live r).image Prod.snd)
  obtain ⟨m, hm⟩ := Infinite.exists_notMem_finset ((s.net.allocated r).image Prod.snd)
  refine ⟨⟨r, 0, m, descriptionSize D, n⟩, rfl, rfl, fun hx => hn ?_, fun hx => hm ?_⟩
  · exact Finset.mem_image_of_mem Prod.snd hx
  · exact Finset.mem_image_of_mem Prod.snd hx

/-- With nothing on its way, a notification that was sent for has come. -/
theorem waits (hinv : Inv D s packet posted) (hN : s.net.Delivered) {p : Port Half Empty} {d : BufferDescription}
    (hd : s.held p = some d) (hlt : (view s packet).taken p < posted p) :
    ∃ net, s.net.waitForNotification d = some net := by
  have hf := hinv.consistent.flag_of_lt hd hlt (hN.flight _)
  unfold Net.waitForNotification
  rw [if_pos hf]
  exact ⟨_, rfl⟩

/-- A half goes on as soon as its dual has posted as often. -/
theorem goes_on (hinv : Inv D s packet posted) (hN : s.net.Delivered)
    (hdual : (s.progress h).steps < 4 ∨ (s.progress h).run < (s.progress h.dual).passed 3) :
    ∃ s', Step D s s' ∧ s'.progress = Progress.tick length s.progress h := by
  have hfree := free_of_delivered hN h.rank (some h)
  have hb := hinv.bound h
  have hn : length = 6 := rfl
  have hsend := hinv.sends h
  have hrecv := hinv.recvs h
  obtain ⟨fresh, hfresh⟩ := exists_fresh D s h.rank
  have htags := h.connectTags_eq
  generalize hi : (s.progress h).steps = i at *
  have hp := passed_eq hi
  have hanti := Progress.passed_anti (g := s.progress h.dual) (show 1 ≤ 3 by decide)
  have hto := hinv.consistent.settled hN h
  have hfrom := hinv.consistent.settled hN h.dual
  simp only [view, Half.dual_dual] at hto hfrom
  obtain rfl | rfl | rfl | rfl | rfl | rfl : i = 0 ∨ i = 1 ∨ i = 2 ∨ i = 3 ∨ i = 4 ∨ i = 5 := by omega
  · exact ⟨_, .connect s h fresh fresh ⟨hi, hfree⟩ hfresh, rfl⟩
  · obtain ⟨d, hd⟩ := Option.isSome_iff_exists.mp (hsend.mpr (by decide))
    exact ⟨_, .iSendTagMessg s h d _ _ ⟨hi, hfree⟩ hd htags, rfl⟩
  · exact ⟨_, .newRecvBuffer s h fresh ⟨hi, hfree⟩ hfresh, rfl⟩
  · obtain ⟨d, hd⟩ := Option.isSome_iff_exists.mp (hrecv.mpr (by decide))
    exact ⟨_, .iRecvTagMessg s h d _ _ ⟨hi, hfree⟩ hd htags, rfl⟩
  · obtain ⟨d, hd⟩ := Option.isSome_iff_exists.mp (hrecv.mpr (by decide))
    have hlt : (view s packet).taken (.recv h.dual) < posted (.recv h.dual) := by
      have h3 : (s.progress h).passed 3 = (s.progress h).run + 1 := hp 3
      have h4 : (s.progress h).passed 4 = (s.progress h).run := hp 4
      simp only [view, Half.dual_dual, h4]
      omega
    obtain ⟨net, hnet⟩ := waits hinv hN hd hlt
    exact ⟨_, .waitRecv s h d net ⟨hi, hfree⟩ hd hnet, rfl⟩
  · obtain ⟨d, hd⟩ := Option.isSome_iff_exists.mp (hsend.mpr (by decide))
    obtain ⟨e, he⟩ := Option.isSome_iff_exists.mp (hrecv.mpr (by decide))
    have hlt : (view s packet).taken (.send h) < posted (.send h) := by
      have h1 : (s.progress h).passed 1 = (s.progress h).run + 1 := hp 1
      have h5 : (s.progress h).passed 5 = (s.progress h).run := hp 5
      simp only [view, h5]
      omega
    obtain ⟨net, hnet⟩ := waits hinv hN hd hlt
    exact ⟨_, .waitSend s h d e net ⟨hi, hfree⟩ hd he hnet, rfl⟩

/-! ## The connection protocol -/

/-- **Endpoints that connect know each other.** Whatever the order of posts,
messages and waits, no post throws; the remote descriptions of a half are those
its dual was connected with, call by call; a call that is over has received its
one; and with nothing on its way a call goes on whenever its dual has posted. -/
theorem connected (hs : Reachable D s) :
    s.net.errors = [] ∧
    (∀ h, s.remotes h <+: s.locals h.dual) ∧
    (∀ h k, k < (s.progress h).run → ∃ d, (s.remotes h)[k]? = some d ∧ (s.locals h.dual)[k]? = some d) ∧
    (s.net.Delivered → ∀ h,
      (s.progress h).steps < 4 ∨ (s.progress h).run < (s.progress h.dual).passed 3 →
      ∃ s', Step D s s' ∧ s'.progress = Progress.tick length s.progress h) := by
  obtain ⟨packet, posted, hinv⟩ := hs.inv
  have hprefix : ∀ h, s.remotes h <+: s.locals h.dual := by
    intro h
    have hle := hinv.consistent.recv_le .src h.dual
    have hle' := (hinv.consistent.made h.dual).1
    simp only [view, Half.dual_dual] at hle hle'
    rw [hinv.remotes h, hinv.locals h.dual, List.prefix_iff_eq_take, ← List.map_take, List.take_range,
      List.length_map, List.length_range, Nat.min_eq_left (by omega)]
  refine ⟨hinv.consistent.errors, hprefix, fun h k hk => ?_, fun hN h hdual => goes_on hinv hN hdual⟩
  have hlen : k < (s.remotes h).length := by
    rw [hinv.remotes h, List.length_map, List.length_range]
    have := (s.progress h).run_le_passed 4
    omega
  obtain ⟨rest, hrest⟩ := hprefix h
  refine ⟨(s.remotes h)[k], List.getElem?_eq_getElem hlen, ?_⟩
  rw [← hrest, List.getElem?_append_left hlen, List.getElem?_eq_getElem hlen]

/-! ## Both sides come through -/

theorem Step.bounded (h : Step D s s') (hN : s.net.Bounded) : s'.net.Bounded := by
  cases h with
  | connect | newRecvBuffer | acquire_notification | allocate | release_notification | deallocate =>
    exact ⟨hN.flight, hN.msgs, hN.inHand, hN.written⟩
  | iSendTagMessg => exact hN.handle ..
  | iRecvTagMessg => exact hN.iRecvTagMessg ..
  | waitRecv h d net hat hd hnet => exact hN.waitForNotification hnet
  | waitSend h d e net hat hd he hnet => exact hN.waitForNotification hnet
  | net net hnet => exact hN.step hnet

theorem Reachable.bounded (hs : Reachable D s) : s.net.Bounded := by
  obtain ⟨live, allocated, memory, hrun⟩ := hs
  induction hrun with
  | refl => exact .quiet live allocated memory
  | tail _ hstep ih => exact hstep.bounded ih

/-- What is on its way can arrive, and no half notices. -/
theorem settles (D : Serialization.Typedefs) (hN : s.net.Bounded) :
    ∃ s', Relation.ReflTransGen (Step D) s s' ∧ s'.net.Delivered ∧ s'.progress = s.progress := by
  have hlighter : ∀ t : State, t.net.Bounded ∧ t.progress = s.progress → ¬ t.net.Delivered →
      ∃ u, Relation.ReflTransGen (Step D) t u ∧ (u.net.Bounded ∧ u.progress = s.progress) ∧
        u.net.load Empty.elim < t.net.load Empty.elim := by
    rintro t ⟨hbounded, hprog⟩ hdone
    obtain ⟨net, hnet, hlt⟩ | ⟨a, x, -⟩ := Net.exists_lighter none Empty.elim hbounded hdone
    · have hstep : Step D t { t with net := net } := .net t net hnet
      exact ⟨_, .single hstep, ⟨hstep.bounded hbounded, hprog⟩, hlt⟩
    · exact x.elim
  obtain ⟨s', hrun, ⟨-, hprog⟩, hdel⟩ := exists_reaching _ hlighter ⟨hN, rfl⟩
  exact ⟨s', hrun, hdel, hprog⟩

/-- The half that is not ahead of its dual goes on once what is on its way has arrived. -/
theorem Reachable.goes_on (hs : Reachable D s) (hbehind : (s.progress h).Behind (s.progress h.dual)) :
    ∃ s', Relation.ReflTransGen (Step D) s s' ∧ Reachable D s' ∧
      s'.progress = Progress.tick length s.progress h := by
  obtain ⟨u, hsu, hdel, hprog⟩ := settles D hs.bounded
  have hu := hs.trans hsu
  obtain ⟨packet, posted, hinv⟩ := hu.inv
  have hposts : (s.progress h).steps < 4 ∨ (s.progress h).run < (s.progress h.dual).passed 3 := by
    rcases Nat.lt_or_ge (s.progress h).steps 4 with hlt | hge
    · exact .inl hlt
    · have hle := hbehind.passed_le 3
      rw [Progress.passed_of_lt hge] at hle
      exact .inr hle
  obtain ⟨s', hstep, htick⟩ := Connect.goes_on (h := h) hinv hdel (hprog ▸ hposts)
  exact ⟨s', hsu.tail hstep, hu.trans (.single hstep), hprog ▸ htick⟩

/-- **A half and its dual complete all calls.** -/
theorem exists_calls (D : Serialization.Typedefs) (h : Half) (K : Nat) :
    ∃ s, Reachable D s ∧ s.progress h = ⟨K, 0⟩ ∧ s.progress h.dual = ⟨K, 0⟩ := by
  have hstart : Reachable D (State.initial (fun _ => ∅) (fun _ => ∅) fun _ => ⟨0, 0, 0, 0, 0⟩) := ⟨_, _, _, .refl⟩
  have hgo : ∀ s, Reachable D s → ∀ g ∈ ({h, h.dual} : Finset Half),
      (∀ g' ∈ ({h, h.dual} : Finset Half), (s.progress g).Behind (s.progress g')) →
      ∃ s', Relation.ReflTransGen (Step D) s s' ∧ Reachable D s' ∧
        s'.progress = Progress.tick length s.progress g := by
    intro s hs g hg hbehind
    apply hs.goes_on
    apply hbehind
    rw [Finset.mem_insert, Finset.mem_singleton] at hg ⊢
    rcases hg with rfl | rfl
    · exact .inr rfl
    · exact .inl (Half.dual_dual h)
  obtain ⟨s, -, hs, hdone⟩ := Progress.exists_runs hgo K hstart (fun _ => Nat.succ_pos _)
    fun _ _ => by simp [State.initial, Progress.total]
  exact ⟨s, hs, hdone h (by simp), hdone h.dual (by simp)⟩

/-- A source of rank 0 whose partner is a target of rank 1. -/
def source : Half := ⟨0, 1, .SOURCE, ⟨0, by decide⟩⟩

theorem connected_source :
    ∃ s : State, (s.progress source).run = 1 ∧ (s.progress source.dual).run = 1 ∧
      (s.net.errors = [] ∧
      (∀ h, s.remotes h <+: s.locals h.dual) ∧
      (∀ h k, k < (s.progress h).run → ∃ d, (s.remotes h)[k]? = some d ∧ (s.locals h.dual)[k]? = some d) ∧
      (s.net.Delivered → ∀ h,
        (s.progress h).steps < 4 ∨ (s.progress h).run < (s.progress h.dual).passed 3 →
        ∃ s', Step Serialization.gaspi s s' ∧ s'.progress = Progress.tick length s.progress h)) := by
  obtain ⟨s, hs, hsource, htarget⟩ := exists_calls Serialization.gaspi source 1
  exact ⟨s, congrArg Progress.run hsource, congrArg Progress.run htarget, connected hs⟩

end GaspiCxx.SingleSided.Connect
