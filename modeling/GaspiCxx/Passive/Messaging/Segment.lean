import GaspiCxx.Passive.HandOver
import GaspiCxx.Passive.Messaging.Model

/-!
# What the hand-over sees of the segment

The segment of a rank holds more than the buffers its passive thread requests. The
invariant of the hand-over depends on one buffer of it, the one held for the
message in hand (`State.held`), and on what is notified and in flight
(`Inv.congr`). The two threads on their own only take a notification or free that
buffer (`Step.effect`); whatever else happens in the segment may happen meanwhile.
-/

namespace GaspiCxx.Passive.RecvMessg

open Runs Messaging

/-- The requested buffer that has not been freed. -/
def State.held (S : State) : Option Address :=
  match S.passive with
  | .store _ _ b => some b
  | _ => S.passive_msg_ptr_

section

variable {S T : State} {D : List Message} {R : List (List UInt8 × Int)} {n : Field → Nat} {k i : Nat}
  {m : Message} {N : Requested}

theorem State.held_of_ne (h : ∀ f m b, S.passive ≠ .store f m b) : S.held = S.passive_msg_ptr_ := by
  unfold State.held
  split
  · next f m b hp => exact absurd hp (h f m b)
  · rfl

/-! ## What is due -/

theorem State.AtHand.due (h : S.AtHand m) (hp : S.held = S.passive_msg_ptr_) :
    S.requested.Quiet ∨ ∃ b, S.held = some b ∧ S.requested.Due b m.bytes := by
  obtain ⟨b, hb, -, ⟨-, hdue⟩ | ⟨-, hquiet, -⟩⟩ := h
  · exact .inr ⟨b, hp.trans hb, hdue⟩
  · exact .inl hquiet

theorem State.Contents.due (h : S.Contents D k i) :
    S.requested.Quiet ∨ ∃ b bytes, S.held = some b ∧ S.requested.Due b bytes := by
  have hoffers : S.passive = .first ∨ S.passive = .second →
      S.requested.Quiet ∨ ∃ b bytes, S.held = some b ∧ S.requested.Due b bytes := by
    intro hp
    obtain ⟨m, -, -, -, ⟨-, -, hquiet⟩ | ⟨-, hhand⟩⟩ := h.offers hp
    · exact .inl hquiet
    · have hheld : S.held = S.passive_msg_ptr_ := State.held_of_ne fun f m b hs => by
        rw [hs] at hp
        obtain hp | hp := hp <;> cases hp
      obtain hquiet | ⟨b, hb, hdue⟩ := hhand.due hheld
      · exact .inl hquiet
      · exact .inr ⟨b, m.bytes, hb, hdue⟩
  unfold State.Contents at h
  split at h
  · exact .inl h.2
  · exact .inl h.2
  · exact .inl h.2.2
  · next f m b hp =>
    refine .inr ⟨b, m.bytes, ?_, h.2.2.1⟩
    unfold State.held
    rw [hp]
  · next hp => exact hoffers (.inl hp)
  · next hp => exact hoffers (.inr hp)

namespace Inv

/-- What comes in comes into the buffer held. -/
theorem held_of_inFlight {b : Address} {bytes : List UInt8} (h : Inv D R n i S)
    (hf : S.requested.inFlight = [(b, bytes)]) : S.held = some b := by
  obtain ⟨hquiet, -⟩ | ⟨c, bytes', hc, ⟨hcoming, -⟩ | ⟨harrived, -⟩⟩ := h.contents.due
  · rw [hf] at hquiet; cases hquiet
  · rw [hf] at hcoming
    cases hcoming
    exact hc
  · rw [hf] at harrived; cases harrived

theorem held_of_notified {b : Address} (h : Inv D R n i S) (hn : S.requested.notified b = true) :
    S.held = some b := by
  obtain ⟨-, hquiet⟩ | ⟨c, bytes, hc, ⟨-, hcoming⟩ | ⟨-, harrived, -⟩⟩ := h.contents.due
  · rw [hquiet] at hn; cases hn
  · rw [hcoming] at hn; cases hn
  · rw [harrived b hn]; exact hc

/-- Between two messages nothing is held. -/
theorem idle (h : Inv D R n i S) (hp : S.passive = .recvPassive ∨ ∃ m, S.passive = .request m) :
    S.passive_msg_ptr_ = none ∧ S.requested.Quiet := by
  have hc := h.contents
  unfold State.Contents at hc
  obtain hp | ⟨m, hp⟩ := hp
  · rw [hp] at hc; exact hc
  · rw [hp] at hc; exact hc.2

/-- A local pointer of `recvMessg` points to the buffer held. -/
theorem held_of_holds {b : Address} (h : Inv D R n i S) (hu : S.user.holds = some b) : S.held = some b := by
  have hptr := h.pointed hu
  have hreading : S.user.barriers = 1 ∧ S.user.atBarrier = false := by
    cases hs : S.user with
    | waitForNotification Data rank c => exact ⟨rfl, rfl⟩
    | memcpy Data rank c => exact ⟨rfl, rfl⟩
    | _ => rw [hs] at hu; cases hu
  obtain ⟨-, hp⟩ := h.meets.reading hreading.1 hreading.2
  rw [State.held_of_ne fun f m b hs => by
    obtain hp | hp := hp <;> (have hp := hs.symm.trans hp; cases hp)]
  exact hptr

/-- The size is not negative. -/
theorem not_throws (h : Inv D R n i S) : ¬ Step S .throws T := by
  intro hs
  cases hs with
  | resizeThrows hu hneg =>
    have hsize := (h.resize hu).1
    omega

theorem storing {f : Field} {b : Address} (h : Inv D R n i S) (hp : S.passive = .store f m b) :
    S.passive_msg_ptr_ = none := by
  have hc := h.contents
  unfold State.Contents at hc
  rw [hp] at hc
  exact hc.2.1

end Inv

/-! ## The rest of the segment -/

namespace Requested

variable {b : Address} {bytes : List UInt8}

theorem Due.congr {N' : Requested} (h : N.Due b bytes) (hmem : N'.memory b = N.memory b)
    (hn : N'.notified = N.notified) (hf : N'.inFlight = N.inFlight) : N'.Due b bytes := by
  obtain ⟨hcoming, hnone⟩ | ⟨harrived, hone, htake⟩ := h
  · exact .inl ⟨hf.trans hcoming, fun c => by rw [hn]; exact hnone c⟩
  · exact .inr ⟨hf.trans harrived, fun c => by rw [hn]; exact hone c, by rw [hmem]; exact htake⟩

theorem Quiet.congr {N' : Requested} (h : N.Quiet) (hn : N'.notified = N.notified)
    (hf : N'.inFlight = N.inFlight) : N'.Quiet :=
  ⟨hf.trans h.1, fun c => by rw [hn]; exact h.2 c⟩

end Requested

/-- Memory counts in the buffer held only. -/
theorem State.Contents.congr (h : S.Contents D k i)
    (hmem : ∀ b, S.held = some b → N.memory b = S.requested.memory b) (hn : N.notified = S.requested.notified)
    (hf : N.inFlight = S.requested.inFlight) : State.Contents { S with requested := N } D k i := by
  have hoffers : S.passive = .first ∨ S.passive = .second → State.Contents { S with requested := N } D k i := by
    intro hp
    obtain ⟨m, hm, hsize, hrank, hbuffer⟩ := h.offers hp
    have hheld : S.held = S.passive_msg_ptr_ := State.held_of_ne fun f m b hs => by
      rw [hs] at hp
      obtain hp | hp := hp <;> cases hp
    refine .of_offers hp hm ⟨hsize, hrank, ?_⟩
    obtain ⟨hk, hptr, hquiet⟩ | ⟨hk, b, hb, hholds, hbuffer⟩ := hbuffer
    · exact .inl ⟨hk, hptr, hquiet.congr hn hf⟩
    · have hmem := hmem b (hheld.trans hb)
      refine .inr ⟨hk, b, hb, hholds, ?_⟩
      obtain ⟨hc, hdue⟩ | ⟨hc, hquiet, htake⟩ := hbuffer
      · exact .inl ⟨hc, hdue.congr hmem hn hf⟩
      · exact .inr ⟨hc, hquiet.congr hn hf, (congrArg (List.take _) hmem).trans htake⟩
  have h' := h
  unfold State.Contents at h' ⊢
  split at h'
  · next hp => simp only [hp]; exact ⟨h'.1, h'.2.congr hn hf⟩
  · next hp => simp only [hp]; exact ⟨h'.1, h'.2.congr hn hf⟩
  · next hp => simp only [hp]; exact ⟨h'.1, h'.2.1, h'.2.2.congr hn hf⟩
  · next f m b hp =>
    obtain ⟨hm, hptr, hdue, hfields⟩ := h'
    have hheld : S.held = some b := by
      unfold State.held
      rw [hp]
    simp only [hp]
    exact ⟨hm, hptr, hdue.congr (hmem b hheld) hn hf, hfields⟩
  · next hp =>
    have ho := hoffers (.inl hp)
    unfold State.Contents at ho
    exact ho
  · next hp =>
    have ho := hoffers (.inr hp)
    unfold State.Contents at ho
    exact ho

theorem Inv.congr (h : Inv D R n i S) (hmem : ∀ b, S.held = some b → N.memory b = S.requested.memory b)
    (hn : N.notified = S.requested.notified) (hf : N.inFlight = S.requested.inFlight) :
    Inv D R n i { S with requested := N } where
  received := h.received
  small := h.small
  stores := h.stores
  meets := ⟨h.meets.balanced, h.meets.atBarrier⟩
  contents := h.contents.congr hmem hn hf
  knows := h.knows
  results := h.results

/-! ## The two threads on their own -/

/-- What a step of theirs does to the segment. -/
inductive Effect where
  | keep
  | take (b : Address)
  | release (ptr : Option Address)

def Effect.apply : Effect → Requested → Requested
  | keep, N => N
  | take b, N => N.waitForNotification b
  | release ptr, N => N.release ptr

@[simp] theorem Effect.apply_memory (e : Effect) (N : Requested) : (e.apply N).memory = N.memory := by
  cases e <;> rfl

@[simp] theorem Effect.apply_inFlight (e : Effect) (N : Requested) : (e.apply N).inFlight = N.inFlight := by
  cases e <;> rfl

/-- A step of `S` to `T` with this effect, whatever else is in the segment. -/
structure Own (S : State) (l : Label) (T : State) (e : Effect) : Prop where
  requested : T.requested = e.apply S.requested
  anywhere : ∀ N : Requested, N.memory = S.requested.memory →
    (∀ b, S.user.holds = some b → N.notified b = S.requested.notified b) →
    Step { S with requested := N } l { T with requested := e.apply N }
  takes : ∀ b, e = .take b → S.user.holds = some b
  request : ∀ m, T.passive = .request m ↔ S.passive = .request m

theorem State.passed_request (S : State) (p : Party) (m : Message) :
    (S.passed p).passive = .request m ↔ S.passive = .request m := by
  cases p with
  | user => rfl
  | passive =>
    unfold State.passed
    cases hp : S.passive <;> simp [PassivePc.passed]

theorem State.enter_anywhere (S : State) (p : Party) (N : Requested) :
    ({ S with requested := N } : State).enter p = { S.enter p with requested := N } := by
  unfold State.enter
  cases hf : S.passive_fwd_recv.flag <;> cases p <;> simp [State.passed]

theorem State.leave_anywhere (S : State) (p : Party) (N : Requested) :
    ({ S with requested := N } : State).leave p = { S.leave p with requested := N } := by
  unfold State.leave
  cases p <;> rfl

theorem State.enter_requested (S : State) (p : Party) : (S.enter p).requested = S.requested := by
  unfold State.enter
  cases hf : S.passive_fwd_recv.flag <;> cases p <;> simp [State.passed]

theorem State.enter_request (S : State) (p : Party) (m : Message) :
    (S.enter p).passive = .request m ↔ S.passive = .request m := by
  unfold State.enter
  split
  · exact State.passed_request ..
  · rfl

theorem Step.effect {l : Label} (hs : Step S l T) (hown : own l = true) : ∃ e, Own S l T e := by
  have noTake : ∀ {e : Effect}, (∀ b, e ≠ .take b) → ∀ b, e = .take b → S.user.holds = some b :=
    fun he b hb => absurd hb (he b)
  cases hs with
  | recvMessg hu => exact ⟨.keep, rfl, fun N _ _ => .recvMessg { S with requested := N } hu, noTake (by simp), fun _ => .rfl⟩
  | enter p hat hout =>
    refine ⟨.keep, S.enter_requested p, fun N _ _ => ?_, noTake (by simp), S.enter_request p⟩
    have hstep := Step.enter { S with requested := N } p (by cases p <;> exact hat) hout
    rw [State.enter_anywhere] at hstep
    exact hstep
  | leave p hs =>
    refine ⟨.keep, by cases p <;> rfl, fun N _ _ => ?_, noTake (by simp), State.passed_request _ p⟩
    have hstep := Step.leave { S with requested := N } p hs
    rw [State.leave_anywhere] at hstep
    exact hstep
  | spurious p hs =>
    refine ⟨.keep, by cases p <;> rfl, fun N _ _ => ?_, noTake (by simp), State.passed_request _ p⟩
    have hstep := Step.spurious { S with requested := N } p hs
    rw [State.leave_anywhere] at hstep
    exact hstep
  | resize hu size =>
    exact ⟨.keep, rfl, fun N _ _ => .resize { S with requested := N } hu size, noTake (by simp), fun _ => .rfl⟩
  | resizeThrows hu size =>
    exact ⟨.keep, rfl, fun N _ _ => .resizeThrows { S with requested := N } hu size, noTake (by simp), fun _ => .rfl⟩
  | rank hu => exact ⟨.keep, rfl, fun N _ _ => .rank { S with requested := N } hu, noTake (by simp), fun _ => .rfl⟩
  | ptr hu => exact ⟨.keep, rfl, fun N _ _ => .ptr { S with requested := N } hu, noTake (by simp), fun _ => .rfl⟩
  | @waitForNotification Data rank b hu arrived =>
    refine ⟨.take b, rfl, fun N _ hn => ?_, ?_, fun _ => .rfl⟩
    · exact .waitForNotification { S with requested := N } hu ((hn b (by rw [hu]; rfl)).trans arrived)
    · intro c hc
      cases hc
      rw [hu]; rfl
  | address hu => exact ⟨.keep, rfl, fun N _ _ => .address { S with requested := N } hu, noTake (by simp), fun _ => .rfl⟩
  | @memcpy Data rank address hu =>
    refine ⟨.keep, rfl, fun N hmem _ => ?_, noTake (by simp), fun _ => .rfl⟩
    have hstep := Step.memcpy { S with requested := N } hu
    rw [hmem] at hstep
    exact hstep
  | reset hu =>
    exact ⟨.release S.passive_msg_ptr_, rfl, fun N _ _ => .reset { S with requested := N } hu, noTake (by simp), fun _ => .rfl⟩
  | returns hu => exact ⟨.keep, rfl, fun N _ _ => .returns { S with requested := N } hu, noTake (by simp), fun _ => .rfl⟩
  | receive m hp => cases hown
  | request hp fresh => cases hown
  | @store f m b hp =>
    have hrequest : ∀ m', PassivePc.stored f m b = .request m' ↔ S.passive = .request m' := by
      intro m'
      rw [hp]
      cases f <;> simp [PassivePc.stored]
    cases f with
    | ptr =>
      exact ⟨.release S.passive_msg_ptr_, rfl, fun N _ _ => .store { S with requested := N } hp, noTake (by simp), hrequest⟩
    | tag => exact ⟨.keep, rfl, fun N _ _ => .store { S with requested := N } hp, noTake (by simp), hrequest⟩
    | size => exact ⟨.keep, rfl, fun N _ _ => .store { S with requested := N } hp, noTake (by simp), hrequest⟩
    | rank => exact ⟨.keep, rfl, fun N _ _ => .store { S with requested := N } hp, noTake (by simp), hrequest⟩
  | deliver hf => cases hown

/-- The buffer is held until it is freed. -/
theorem Step.held {l : Label} (hs : Step S l T) (hown : own l = true) (h : Inv D R n i { S with requested := N }) :
    T.held = S.held ∧ T.requested.allocated = S.requested.allocated ∨
      T.held = none ∧ T.requested.allocated = S.requested.allocated \ S.held.toFinset := by
  have hpassed : ∀ (S : State) (p : Party), (S.passed p).held = S.held := by
    intro S p
    cases p with
    | user => rfl
    | passive =>
      unfold State.passed State.held
      cases hp : S.passive <;> rfl
  cases hs with
  | recvMessg hu => exact .inl ⟨rfl, rfl⟩
  | enter p hat hout =>
    refine .inl ⟨?_, congrArg Requested.allocated (S.enter_requested p)⟩
    unfold State.enter
    split
    · exact hpassed _ p
    · rfl
  | leave p hs => exact .inl ⟨hpassed _ p, by cases p <;> rfl⟩
  | spurious p hs => exact .inl ⟨hpassed _ p, by cases p <;> rfl⟩
  | resize hu size => exact .inl ⟨rfl, rfl⟩
  | resizeThrows hu size => exact .inl ⟨rfl, rfl⟩
  | rank hu => exact .inl ⟨rfl, rfl⟩
  | ptr hu => exact .inl ⟨rfl, rfl⟩
  | waitForNotification hu arrived => exact .inl ⟨rfl, rfl⟩
  | address hu => exact .inl ⟨rfl, rfl⟩
  | memcpy hu => exact .inl ⟨rfl, rfl⟩
  | reset hu =>
    -- the passive thread is at its barriers
    obtain ⟨-, hp, -⟩ := h.reading hu rfl rfl rfl
    have hheld : S.held = S.passive_msg_ptr_ := State.held_of_ne fun f m b hs => by
      obtain hp | hp := hp <;> (have hp := hs.symm.trans hp; cases hp)
    right
    refine ⟨?_, by rw [hheld]; rfl⟩
    refine State.held_of_ne fun f m b hs => ?_
    obtain hp | hp := hp <;> (have hp := hs.symm.trans hp; cases hp)
  | returns hu => exact .inl ⟨rfl, rfl⟩
  | receive m hp => cases hown
  | request hp fresh => cases hown
  | @store f m b hp =>
    have hptr : S.passive_msg_ptr_ = none := h.storing hp
    have hheld : S.held = some b := by
      unfold State.held
      rw [hp]
    left
    rw [hheld]
    cases f with
    | ptr =>
      refine ⟨rfl, ?_⟩
      show S.requested.allocated \ S.passive_msg_ptr_.toFinset = S.requested.allocated
      rw [hptr]
      exact Finset.sdiff_empty
    | tag => exact ⟨rfl, rfl⟩
    | size => exact ⟨rfl, rfl⟩
    | rank => exact ⟨rfl, rfl⟩
  | deliver hf => cases hown

end

end GaspiCxx.Passive.RecvMessg
