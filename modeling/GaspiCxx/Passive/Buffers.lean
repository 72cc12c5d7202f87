import GaspiCxx.Passive.Channels

/-!
# The buffers of channels

A program takes notification ids and buffers from its segments, fills its send
buffers and gives everything back. One lemma for each: the net stays consistent
with a view in which one port more, or one less, is in use.
-/

namespace GaspiCxx.Passive

open OneSided

variable {Chan Q Thread V X : Type}

theorem port_ne_other (role : Role) (c : Chan) (q : Q) : (role.port c : Port Chan Q) ≠ .other q := by
  cases role <;> simp [Role.port]

theorem port_inj (role role' : Role) {c c' : Chan} (h : (role.port c : Port Chan Q) = role'.port c') :
    role = role' ∧ c = c' := by
  cases role <;> cases role' <;> simp_all [Role.port]

theorem update_eq_some {P D : Type} [DecidableEq P] {f : P → Option D} {p p' : P} {o : Option D} {e : D}
    (h : Function.update f p o p' = some e) : p' = p ∧ o = some e ∨ p' ≠ p ∧ f p' = some e := by
  by_cases hp : p' = p
  · subst hp
    rw [Function.update_self] at h
    exact .inl ⟨rfl, h⟩
  · rw [Function.update_of_ne hp] at h
    exact .inr ⟨hp, h⟩

section Names

variable [DecidableEq Chan] [DecidableEq Q]

theorem slotOf_update (held : Port Chan Q → Option BufferDescription) (p : Port Chan Q)
    (o : Option BufferDescription) :
    slotOf (Function.update held p o) = Function.update (slotOf held) p (o.map BufferDescription.slot) := by
  funext p'
  by_cases h : p' = p
  · subst h; simp [slotOf]
  · simp [slotOf, h]

theorem blockOf_update_port (held : Port Chan Q → Option BufferDescription) (role : Role) (c : Chan)
    (o : Option BufferDescription) :
    blockOf (Function.update held (role.port c) o) =
      Function.update (blockOf held) (role.port c) (o.map BufferDescription.block) := by
  funext p'
  by_cases h : p' = role.port c
  · subst h
    rw [Function.update_self, Consistent.blockOf_port, Function.update_self]
  · rw [Function.update_of_ne h]
    cases p' with
    | other q => rfl
    | send c' => simp only [blockOf, Function.update_of_ne h]
    | recv c' => simp only [blockOf, Function.update_of_ne h]

theorem blockOf_update_other (held : Port Chan Q → Option BufferDescription) (q : Q)
    (o : Option BufferDescription) : blockOf (Function.update held (.other q) o) = blockOf held := by
  funext p'
  cases p' <;> simp [blockOf]

theorem update_other_send (held : Port Chan Q → Option BufferDescription) (q : Q) (o : Option BufferDescription)
    (c : Chan) : Function.update held (.other q) o (.send c) = held (.send c) :=
  Function.update_of_ne (port_ne_other .src c q) ..

end Names

/-- The `k`-th packet of channel `c` is `v`. -/
def record [DecidableEq Chan] (packet : Chan → Nat → V) (c : Chan) (k : Nat) (v : V) : Chan → Nat → V :=
  Function.update packet c (Function.update (packet c) k v)

section

variable [DecidableEq Chan] (packet : Chan → Nat → V) {c c' : Chan} {k j : Nat} (v : V)

@[simp] theorem record_self : record packet c k v c k = v := by simp [record]

theorem record_ne (h : c' = c → j ≠ k) : record packet c k v c' j = packet c' j := by
  unfold record
  by_cases hc : c' = c
  · subst hc
    rw [Function.update_self, Function.update_of_ne (h rfl)]
  · rw [Function.update_of_ne hc]

end

namespace Consistent

variable {L : Layout Chan Q} {G : Q → Op V X → Prop} {H : Q → Prop} {w : View Chan Q V}
  {N : Net Thread V X} {posted : Port Chan Q → Nat} {p : Port Chan Q} {d : BufferDescription} {c : Chan} {q : Q}

/-! ## Taking and giving back notifications and buffers -/

section

variable [DecidableEq Chan] [DecidableEq Q]

theorem acquire_notification (h : Consistent L G H w N posted) (hq : w.held (.other q) = none)
    (hr : d.rank = L.home q) (hs : d.slot ∉ N.live d.rank) :
    Consistent L G H { w with held := Function.update w.held (.other q) (some d) } (N.acquire_notification d)
      posted := by
  refine { h with
    slots := ?_, blks := ?_, rank := fun p e he => ?_, size := fun role c e he => ?_, signals := ?_,
    meets := fun c => ?_, loaded := fun c hm => ?_ }
  · have ho : L.owner (.other q : Port Chan Q) = d.rank := hr.symm
    rw [slotOf_update]
    unfold Net.acquire_notification
    rw [← ho] at hs ⊢
    exact h.slots.acquire (by simp [slotOf, hq]) hs
  · rw [blockOf_update_other]; exact h.blks
  · obtain ⟨rfl, ho⟩ | ⟨-, he⟩ := update_eq_some he
    · rw [← Option.some.inj ho]; exact hr
    · exact h.rank p e he
  · obtain ⟨hp, -⟩ | ⟨-, he⟩ := update_eq_some he
    · exact absurd hp (port_ne_other role c q)
    · exact h.size role c e he
  · exact h.signals.acquire hq fun p e he => h.address_ne he hs
  · simp only [Function.update_of_ne (port_ne_other _ c q)]
    exact h.meets c
  · obtain ⟨e, he, hm⟩ := h.loaded c hm
    exact ⟨e, (update_other_send w.held q (some d) c).trans he, hm⟩

theorem release_notification (h : Consistent L G H w N posted) (hq : w.held (.other q) = some d)
    (hs : w.sent q = w.taken (.other q)) :
    Consistent L G H { w with held := Function.update w.held (.other q) none } (N.release_notification d)
      posted := by
  refine { h with
    slots := ?_, blks := ?_, rank := fun p e he => ?_, size := fun role c e he => ?_, signals := ?_,
    meets := fun c => ?_, loaded := fun c hm => ?_ }
  · rw [slotOf_update]
    unfold Net.release_notification
    rw [h.rank _ d hq]
    exact h.slots.release (by simp [slotOf, hq])
  · rw [blockOf_update_other]; exact h.blks
  · obtain ⟨-, ho⟩ | ⟨-, he⟩ := update_eq_some he
    · cases ho
    · exact h.rank p e he
  · obtain ⟨-, ho⟩ | ⟨-, he⟩ := update_eq_some he
    · cases ho
    · exact h.size role c e he
  · exact h.signals.drop hq (by rw [h.sent q, hs])
  · simp only [Function.update_of_ne (port_ne_other _ c q)]
    exact h.meets c
  · obtain ⟨e, he, hm⟩ := h.loaded c hm
    exact ⟨e, (update_other_send w.held q none c).trans he, hm⟩

/-- A buffer none of whose posts is unanswered may change without a trace at the meeting places. -/
theorem redesc (h : Consistent L G H w N posted) (role : Role) (hp : w.posts role c = w.taken (role.port c))
    (o : Option BufferDescription) (c' : Chan) :
    (N.meeting (L.meet c')).Accounts (fun r => Function.update w.held (role.port c) o (r.port c'))
      (fun r => w.posts r c') (posted (.recv c')) (posted (.send c')) := by
  have key : ∀ r : Role, Function.update w.held (role.port c) o (r.port c') = w.held (r.port c') ∨
      w.posts r c' = posted (r.port c') := by
    intro r
    by_cases hr : (r.port c' : Port Chan Q) = role.port c
    · obtain ⟨rfl, rfl⟩ := port_inj r role hr
      exact .inr (h.answered r hp).symm
    · exact .inl (Function.update_of_ne hr ..)
  exact (h.meets c').redesc (key .src) (key .rcv)

theorem newBuffer (h : Consistent L G H w N posted) (role : Role) (hp : w.held (role.port c) = none)
    (hr : d.rank = L.owner (role.port c : Port Chan Q)) (hsz : d.size = L.size) (hs : d.slot ∉ N.live d.rank)
    (hb : d.block ∉ N.allocated d.rank) (hposts : w.posts role c = w.taken (role.port c)) :
    Consistent L G H { w with held := Function.update w.held (role.port c) (some d) } (N.newBuffer d) posted := by
  refine { h with
    slots := ?_, blks := ?_, rank := fun p e he => ?_, size := fun role' c' e he => ?_, signals := ?_,
    meets := h.redesc role hposts _, loaded := fun c' hm => ?_ }
  · rw [slotOf_update]
    unfold Net.newBuffer
    rw [hr] at hs ⊢
    exact h.slots.acquire (by simp [slotOf, hp]) hs
  · rw [blockOf_update_port]
    unfold Net.newBuffer
    rw [hr] at hb ⊢
    exact h.blks.acquire (by rw [blockOf_port, hp]; rfl) hb
  · obtain ⟨rfl, ho⟩ | ⟨-, he⟩ := update_eq_some he
    · rw [← Option.some.inj ho]; exact hr
    · exact h.rank p e he
  · obtain ⟨-, ho⟩ | ⟨-, he⟩ := update_eq_some he
    · rw [← Option.some.inj ho]; exact hsz
    · exact h.size role' c' e he
  · exact h.signals.acquire hp fun p e he => h.address_ne he hs
  · obtain ⟨e, he, hm⟩ := h.loaded c' hm
    have hne : (.send c' : Port Chan Q) ≠ role.port c := by
      intro heq
      rw [heq, hp] at he
      cases he
    exact ⟨e, (Function.update_of_ne hne ..).trans he, hm⟩

/-- A buffer goes out of use; its names are given back or stay with the rank. -/
theorem drop (h : Consistent L G H w N posted) (role : Role) (hd : w.held (role.port c) = some d)
    (hposts : w.posts role c = w.taken (role.port c)) (hmade : role = .src → w.made c = w.taken (.send c))
    {base live : Rank → Finset Slot} {blocks allocated : Rank → Finset Block}
    (hs : Names L.owner base live (Function.update (slotOf w.held) (role.port c) none))
    (hb : Names L.owner blocks allocated (Function.update (blockOf w.held) (role.port c) none)) :
    Consistent L G H
      { w with base := base, blocks := blocks, held := Function.update w.held (role.port c) none }
      { N with live := live, allocated := allocated } posted := by
  have hsub : ∀ p e, Function.update w.held (role.port c) none p = some e → w.held p = some e := by
    intro p e he
    obtain ⟨-, ho⟩ | ⟨-, he⟩ := update_eq_some he
    · cases ho
    · exact he
  refine { h with
    slots := ?_, blks := ?_, rank := fun p e he => h.rank p e (hsub p e he),
    size := fun role' c' e he => h.size role' c' e (hsub _ e he), signals := ?_,
    meets := h.redesc role hposts _, loaded := fun c' hm => ?_ }
  · rw [slotOf_update]; exact hs
  · rw [blockOf_update_port]; exact hb
  · exact h.signals.drop hd ((h.answered role hposts).trans hposts)
  · have hne : (.send c' : Port Chan Q) ≠ role.port c := by
      intro heq
      have hpp : (Role.src.port c' : Port Chan Q) = role.port c := heq
      obtain ⟨rfl, rfl⟩ := port_inj .src role hpp
      have h1 := hmade rfl
      simp only at hm
      omega
    obtain ⟨e, he, hm⟩ := h.loaded c' hm
    exact ⟨e, (Function.update_of_ne hne ..).trans he, hm⟩

theorem deleteBuffer (h : Consistent L G H w N posted) (role : Role) (hd : w.held (role.port c) = some d)
    (hposts : w.posts role c = w.taken (role.port c)) (hmade : role = .src → w.made c = w.taken (.send c)) :
    Consistent L G H { w with held := Function.update w.held (role.port c) none } (N.deleteBuffer d) posted := by
  unfold Net.deleteBuffer
  rw [h.rank _ d hd]
  refine h.drop role hd hposts hmade (h.slots.release ?_) (h.blks.release ?_)
  · simp [slotOf, hd]
  · rw [blockOf_port, hd]; rfl

/-- A buffer goes out of use without being deleted. -/
theorem retire (h : Consistent L G H w N posted) (role : Role) (hd : w.held (role.port c) = some d)
    (hposts : w.posts role c = w.taken (role.port c)) (hmade : role = .src → w.made c = w.taken (.send c)) :
    Consistent L G H
      { w with
        base := insertAt w.base d.rank d.slot
        blocks := insertAt w.blocks d.rank d.block
        held := Function.update w.held (role.port c) none } N posted := by
  rw [h.rank _ d hd]
  refine h.drop role hd hposts hmade (h.slots.retire ?_) (h.blks.retire ?_)
  · simp [slotOf, hd]
  · rw [blockOf_port, hd]; rfl

end

/-- A send buffer is filled; it was waited for as often as it was filled before. -/
theorem serialize [DecidableEq Chan] (h : Consistent L G H w N posted) (hd : w.held (.send c) = some d)
    (hm : w.made c = w.taken (.send c)) (v : V) :
    Consistent L G H { w with made := bump w.made c, packet := record w.packet c (w.made c) v }
      (N.serialize d v) posted := by
  have hplace : ∀ (role : Role) c' e, (role.port c' : Port Chan Q) ≠ .send c → w.held (role.port c') = some e →
      Function.update N.memory d.place v e.place = N.memory e.place := by
    intro role c' e hne he
    refine Function.update_of_ne (fun hp => hne ?_) ..
    exact h.place_inj role .src he hd hp
  have hnext : ∀ c', posted (.recv c') = w.taken (.recv c') + 1 →
      record w.packet c (w.made c) v c' (w.taken (.recv c')) = w.next c' := by
    intro c' hs
    refine record_ne _ _ fun hc => ?_
    have h1 := (h.meets c').le_posts .src
    have h2 := (h.made c').1
    subst hc
    omega
  refine { h with signals := ?_, made := fun c' => ?_, loaded := fun c' hm' => ?_ }
  · refine h.signals.imp (fun p e he hs op hg => ?_) (fun p e he hs hh => ?_)
    · cases p with
      | send c' => exact hg
      | other q => exact hg
      | recv c' =>
        have hmem := hplace .rcv c' e (by rintro ⟨⟩) he
        simp only [Good, View.next, hnext c' hs, Net.serialize, hmem]
        exact hg
    · cases p with
      | send c' => exact hh
      | other q => exact hh
      | recv c' =>
        have hmem := hplace .rcv c' e (by rintro ⟨⟩) he
        simp only [Here, View.next, hnext c' hs, Net.serialize, hmem]
        exact hh
  · have := h.made c'
    simp only [bump_apply]
    split
    · next hc => subst hc; omega
    · omega
  · by_cases hc : c' = c
    · subst hc
      refine ⟨d, hd, ?_⟩
      simp only [Net.serialize, Function.update_self, ← hm, record_self]
    · simp only [bump_apply, if_neg hc, Nat.add_zero] at hm'
      obtain ⟨e, he, hmem⟩ := h.loaded c' hm'
      have hne : (Role.src.port c' : Port Chan Q) ≠ .send c := fun hp => hc (port_inj .src .src hp).2
      refine ⟨e, he, ?_⟩
      simp only [Net.serialize]
      rw [hplace .src c' e hne he, record_ne _ _ fun he => absurd he hc]
      exact hmem

end Consistent

end GaspiCxx.Passive
