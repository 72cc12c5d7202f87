import GaspiCxx.Passive.RecvMessg

/-!
# Where the two threads of the hand-over are

`k` messages have been returned and the passive thread is done with `i`. Where
the two threads stand says how often each has come to a barrier (`State.entered`),
and `Rendezvous.Balanced` ties the two numbers together. So the threads exclude
each other: while the user reads, the passive thread is behind its stores and
message `k` is the one it handed over (`Meets.reading`); while it stores, the
user has reset the pointer of all messages before (`Meets.storing`).
-/

namespace GaspiCxx.Passive.RecvMessg

open Runs

/-! ## Where the threads stand -/

/-- The barriers the current `recvMessg` is through. -/
def UserPc.barriers : UserPc → Nat
  | outside => 0
  | first => 0
  | returns _ _ => 2
  | _ => 1

/-- Has the current `recvMessg` reset the pointer? -/
def UserPc.resets : UserPc → Nat
  | second _ _ => 1
  | returns _ _ => 1
  | _ => 0

def PassivePc.barriers : PassivePc → Nat
  | second => 1
  | _ => 0

/-- Is a message in hand? -/
def PassivePc.pending : PassivePc → Nat
  | recvPassive => 0
  | finished => 0
  | _ => 1

/-- Has the member been stored for the message in hand? -/
def PassivePc.storesDone (f : Field) : PassivePc → Nat
  | store g _ _ => if f.index < g.index then 1 else 0
  | first => 1
  | second => 1
  | _ => 0

theorem UserPc.resets_le (pc : UserPc) : pc.resets ≤ 1 := by cases pc <;> simp [resets]

theorem UserPc.barriers_atBarrier {pc : UserPc} (h : pc.atBarrier = true) : pc.barriers = pc.resets := by
  cases pc <;> first | rfl | cases h

/-- Both barriers behind it, or none, or between them without having reset. -/
theorem UserPc.barriers_cases (pc : UserPc) :
    pc.barriers = pc.resets ∨ pc.barriers = 2 * pc.resets ∨ pc.barriers = 1 ∧ pc.resets = 0 := by
  cases pc <;> simp [barriers, resets]

theorem PassivePc.barriers_out {pc : PassivePc} (h : pc.atBarrier = false) : pc.barriers = 0 := by
  cases pc <;> first | rfl | cases h

theorem PassivePc.atBarrier_cases {pc : PassivePc} (h : pc.atBarrier = true) : pc = .first ∨ pc = .second := by
  cases pc <;> first | exact .inl rfl | exact .inr rfl | cases h

theorem PassivePc.eq_second (pc : PassivePc) (h : 0 < pc.barriers) : pc = .second := by
  cases pc <;> first | rfl | cases h

theorem PassivePc.stored_barriers (f : Field) (m : Message) (b : Address) : (stored f m b).barriers = 0 := by
  cases f <;> rfl

theorem PassivePc.stored_pending (f : Field) (m : Message) (b : Address) : (stored f m b).pending = 1 := by
  cases f <;> rfl

/-- One member more is stored. -/
theorem PassivePc.storesDone_stored (f g : Field) (m : Message) (b : Address) :
    (stored f m b).storesDone g = (store f m b).storesDone g + if f = g then 1 else 0 := by
  cases f <;> cases g <;> rfl

def State.blocked (S : State) (p : Party) : Nat := if S.passive_fwd_recv.place p = .out then 0 else 1

/-- How often each thread has entered a barrier, after `k` returned messages and
`i` that the passive thread is done with. -/
def State.entered (S : State) (k i : Nat) : Party → Nat
  | .user => 2 * k + S.user.barriers + S.blocked .user
  | .passive => 2 * i + S.passive.barriers + S.blocked .passive

structure State.Meets (S : State) (k i : Nat) : Prop where
  balanced : S.passive_fwd_recv.Balanced parties (S.entered k i)
  atBarrier : ∀ p, S.passive_fwd_recv.place p ≠ .out → S.atBarrier p = true

namespace State

variable {S S' : State} {k k' i i' : Nat} {p : Party}

theorem Meets.out (h : S.Meets k i) (hp : S.atBarrier p = false) : S.passive_fwd_recv.place p = .out := by
  by_contra hne
  rw [h.atBarrier p hne] at hp; cases hp

theorem blocked_out (h : S.passive_fwd_recv.place p = .out) : S.blocked p = 0 := if_pos h

theorem blocked_of_ne (h : S.passive_fwd_recv.place p ≠ .out) : S.blocked p = 1 := if_neg h

/-- What the balance says of the two threads: neither has come more often than
the other, but for the one that waits. -/
theorem Meets.counts (h : S.Meets k i) :
    (S.passive_fwd_recv.place .user = .waiting ∧ S.entered k i .user = S.entered k i .passive + 1 ∨
      S.passive_fwd_recv.place .user ≠ .waiting ∧ S.entered k i .user ≤ S.entered k i .passive) ∧
    (S.passive_fwd_recv.place .passive = .waiting ∧ S.entered k i .passive = S.entered k i .user + 1 ∨
      S.passive_fwd_recv.place .passive ≠ .waiting ∧ S.entered k i .passive ≤ S.entered k i .user) := by
  have hparty : ∀ p, S.passive_fwd_recv.place p = .waiting ∧ S.entered k i p = S.entered k i p.other + 1 ∨
      S.passive_fwd_recv.place p ≠ .waiting ∧ S.entered k i p ≤ S.entered k i p.other := by
    intro p
    by_cases hw : S.passive_fwd_recv.place p = .waiting
    · exact .inl ⟨hw, (h.balanced.waiting p hw).2⟩
    · exact .inr ⟨hw, h.balanced.through p hw⟩
  exact ⟨hparty .user, hparty .passive⟩

@[simp] theorem entered_user (S : State) (k i : Nat) :
    S.entered k i .user = 2 * k + S.user.barriers + S.blocked .user := rfl

@[simp] theorem entered_passive (S : State) (k i : Nat) :
    S.entered k i .passive = 2 * i + S.passive.barriers + S.blocked .passive := rfl

/-- Between its two barriers the user has the message that the passive thread
has stored, and the passive thread is not past its second barrier. -/
theorem Meets.reading (h : S.Meets k i) (hu : S.user.barriers = 1) (hb : S.user.atBarrier = false) :
    i = k ∧ (S.passive = .first ∨ S.passive = .second) := by
  obtain ⟨huser, hpassive⟩ := h.counts
  have hout : S.passive_fwd_recv.place .user = .out := h.out hb
  have hle : S.entered k i .user ≤ S.entered k i .passive := by
    obtain ⟨hw, -⟩ | ⟨-, hle⟩ := huser
    · rw [hout] at hw; cases hw
    · exact hle
  simp only [entered_user, entered_passive, hu, blocked_out hout] at hle hpassive
  by_cases hpout : S.passive_fwd_recv.place .passive = .out
  · rw [blocked_out hpout] at hle hpassive
    obtain ⟨hw, -⟩ | ⟨-, hge⟩ := hpassive
    · rw [hpout] at hw; cases hw
    · have hsecond : S.passive = .second := S.passive.eq_second (by omega)
      have hone : S.passive.barriers = 1 := by rw [hsecond]; rfl
      exact ⟨by omega, .inr hsecond⟩
  · have hat : S.passive.atBarrier = true := h.atBarrier .passive hpout
    rw [blocked_of_ne hpout] at hle hpassive
    obtain hfirst | hsecond := PassivePc.atBarrier_cases hat
    · have hzero : S.passive.barriers = 0 := by rw [hfirst]; rfl
      exact ⟨by omega, .inl hfirst⟩
    · have hone : S.passive.barriers = 1 := by rw [hsecond]; rfl
      exact ⟨by omega, .inr hsecond⟩

/-- Away from its barriers the passive thread finds every message before the
one in hand read and its pointer reset. -/
theorem Meets.storing (h : S.Meets k i) (hb : S.passive.atBarrier = false) : k + S.user.resets = i := by
  obtain ⟨huser, hpassive⟩ := h.counts
  have hout : S.passive_fwd_recv.place .passive = .out := h.out hb
  have hle : S.entered k i .passive ≤ S.entered k i .user := by
    obtain ⟨hw, -⟩ | ⟨-, hle⟩ := hpassive
    · rw [hout] at hw; cases hw
    · exact hle
  simp only [entered_user, entered_passive, PassivePc.barriers_out hb, blocked_out hout] at hle huser
  have hresets := S.user.resets_le
  by_cases huout : S.passive_fwd_recv.place .user = .out
  · rw [blocked_out huout] at hle huser
    obtain ⟨hw, -⟩ | ⟨-, hge⟩ := huser
    · rw [huout] at hw; cases hw
    · obtain heq | heq | ⟨hone, -⟩ := S.user.barriers_cases <;> omega
  · have hat : S.user.atBarrier = true := h.atBarrier .user huout
    have heq := UserPc.barriers_atBarrier hat
    rw [blocked_of_ne huout] at hle huser
    omega

/-! ## What moves them -/

/-- A step of the user away from the barriers. -/
theorem Meets.ofUser (h : S.Meets k i) (hb : S.user.atBarrier = false)
    (hfwd : S'.passive_fwd_recv = S.passive_fwd_recv) (hp : S'.passive = S.passive)
    (hk : 2 * k' + S'.user.barriers = 2 * k + S.user.barriers) : S'.Meets k' i := by
  have hblocked : S'.blocked = S.blocked := by unfold blocked; rw [hfwd]
  have hentered : S'.entered k' i = S.entered k i := by
    funext q
    cases q with
    | user => rw [entered_user, entered_user, hk, hblocked]
    | passive => rw [entered_passive, entered_passive, hp, hblocked]
  refine ⟨by rw [hfwd, hentered]; exact h.balanced, fun q hq => ?_⟩
  rw [hfwd] at hq
  cases q with
  | user => exact absurd (h.out (p := .user) hb) hq
  | passive =>
    have hat : S.passive.atBarrier = true := h.atBarrier .passive hq
    unfold State.atBarrier
    rw [hp, hat]

/-- A step of the passive thread away from the barriers. -/
theorem Meets.ofPassive (h : S.Meets k i) (hb : S.passive.atBarrier = false)
    (hfwd : S'.passive_fwd_recv = S.passive_fwd_recv) (hu : S'.user = S.user)
    (hz : S'.passive.barriers = 0) : S'.Meets k i := by
  have hblocked : S'.blocked = S.blocked := by unfold blocked; rw [hfwd]
  have hentered : S'.entered k i = S.entered k i := by
    funext q
    cases q with
    | user => rw [entered_user, entered_user, hu, hblocked]
    | passive => rw [entered_passive, entered_passive, hz, PassivePc.barriers_out hb, hblocked]
  refine ⟨by rw [hfwd, hentered]; exact h.balanced, fun q hq => ?_⟩
  rw [hfwd] at hq
  cases q with
  | user =>
    have hat : S.user.atBarrier = true := h.atBarrier .user hq
    unfold State.atBarrier
    rw [hu, hat]
  | passive => exact absurd (h.out (p := .passive) hb) hq

/-- The passive thread behind its second barrier is done with one message more. -/
def done (S : State) (i : Nat) : Party → Nat
  | .user => i
  | .passive => i + S.passive.barriers

@[simp] theorem passed_fwd (S : State) (p : Party) : (S.passed p).passive_fwd_recv = S.passive_fwd_recv := by
  cases p <;> rfl

theorem passed_other (S : State) {q : Party} (h : q ≠ p) : (S.passed p).atBarrier q = S.atBarrier q := by
  cases p <;> cases q <;> first | rfl | exact absurd rfl h

/-- Through a barrier: one more behind this party, nothing new for the other. -/
theorem passed_entered (hat : S.atBarrier p = true) (q : Party) :
    (S.passed p).entered k (S.done i p) q =
      if q = p then S.entered k i q + 1 else S.entered k i q := by
  cases p with
  | user =>
    cases q with
    | user =>
      have hone : S.user.passed.barriers = S.user.barriers + 1 := by
        cases hu : S.user <;> simp only [State.atBarrier, hu] at hat <;> first | rfl | cases hat
      have hblocked : (S.passed .user).blocked .user = S.blocked .user := rfl
      simp only [entered_user, hblocked, if_true]
      have : (S.passed .user).user.barriers = S.user.passed.barriers := rfl
      omega
    | passive => rfl
  | passive =>
    cases q with
    | user => rfl
    | passive =>
      have hblocked : (S.passed .passive).blocked .passive = S.blocked .passive := rfl
      have hone : 2 * (i + S.passive.barriers) + S.passive.passed.barriers = 2 * i + S.passive.barriers + 1 := by
        obtain hp | hp := PassivePc.atBarrier_cases hat
        · rw [hp]; rfl
        · rw [hp]
          have : PassivePc.barriers .second = 1 := rfl
          have : (PassivePc.passed .second).barriers = 0 := rfl
          omega
      simp only [entered_passive, hblocked, if_true, done]
      have : (S.passed .passive).passive.barriers = S.passive.passed.barriers := rfl
      omega

/-- Where the threads are in the code is one half of what they have entered. -/
theorem entered_blocked (S' S : State) (k i : Nat) (hu : S'.user = S.user) (hp : S'.passive = S.passive) (q : Party) :
    S'.entered k i q + S.blocked q = S.entered k i q + S'.blocked q := by
  cases q with
  | user => rw [entered_user, entered_user, hu]; omega
  | passive => rw [entered_passive, entered_passive, hp]; omega

theorem Meets.enter_clear (h : S.Meets k i) (hat : S.atBarrier p = true)
    (hout : S.passive_fwd_recv.place p = .out) (hflag : S.passive_fwd_recv.flag = false) :
    (S.enter p).Meets k i := by
  have heq : S.enter p = { S with passive_fwd_recv := S.passive_fwd_recv.enter parties p } := by
    unfold State.enter
    simp only [hflag, Bool.false_eq_true, if_false]
  have hplace : (S.enter p).passive_fwd_recv.place = Function.update S.passive_fwd_recv.place p .waiting := by
    rw [heq, Rendezvous.enter_clear hflag]
  have hentered : (S.enter p).entered k i = Function.update (S.entered k i) p (S.entered k i p + 1) := by
    funext q
    have hsame : (S.enter p).entered k i q + S.blocked q = S.entered k i q + (S.enter p).blocked q :=
      entered_blocked _ S k i (by rw [heq]) (by rw [heq]) q
    by_cases hq : q = p
    · subst hq
      have hone : (S.enter q).blocked q = 1 := blocked_of_ne (by rw [hplace, Function.update_self]; decide)
      rw [hone, blocked_out hout] at hsame
      rw [Function.update_self]
      exact hsame
    · have hblocked : (S.enter p).blocked q = S.blocked q := by
        unfold blocked
        rw [hplace, Function.update_of_ne hq]
      rw [Function.update_of_ne hq]
      omega
  refine ⟨?_, fun q hq => ?_⟩
  · rw [hentered, heq]
    exact h.balanced.enter hout
  · have hkept : (S.enter p).atBarrier q = S.atBarrier q := by rw [heq]; cases q <;> rfl
    rw [hkept]
    by_cases hqp : q = p
    · rw [hqp, hat]
    · rw [hplace, Function.update_of_ne hqp] at hq
      exact h.atBarrier q hq

theorem signal_out (place : Place) : place.signal = .out ↔ place = .out := by
  cases place <;> decide

theorem Meets.enter_set (h : S.Meets k i) (hat : S.atBarrier p = true)
    (hout : S.passive_fwd_recv.place p = .out) (hflag : S.passive_fwd_recv.flag = true) :
    (S.enter p).Meets k (S.done i p) := by
  let T : State := { S with passive_fwd_recv := S.passive_fwd_recv.enter parties p }
  have heq : S.enter p = T.passed p := by
    unfold State.enter
    rw [if_pos hflag]
  have hsame : ∀ q, T.passive_fwd_recv.place q = .out ↔ S.passive_fwd_recv.place q = .out := by
    intro q
    have hplace : T.passive_fwd_recv = _ := Rendezvous.enter_set hflag
    rw [hplace]
    dsimp only
    by_cases hq : q = parties.other p
    · subst hq
      rw [Function.update_self]
      exact signal_out _
    · rw [Function.update_of_ne hq]
  have hT : ∀ q, T.entered k i q = S.entered k i q := by
    intro q
    have hblocked : T.blocked q = S.blocked q := if_congr (hsame q) rfl rfl
    have hkept : T.entered k i q + S.blocked q = S.entered k i q + T.blocked q := entered_blocked T S k i rfl rfl q
    omega
  have hentered : (S.enter p).entered k (S.done i p) =
      Function.update (S.entered k i) p (S.entered k i p + 1) := by
    funext q
    have hdone : S.done i p = T.done i p := by cases p <;> rfl
    rw [heq, hdone, passed_entered (S := T) (by cases p <;> exact hat)]
    by_cases hq : q = p
    · subst hq
      rw [if_pos rfl, Function.update_self, hT]
    · rw [if_neg hq, Function.update_of_ne hq, hT]
  refine ⟨?_, fun q hq => ?_⟩
  · rw [hentered, heq, passed_fwd]
    exact h.balanced.enter hout
  · rw [heq, passed_fwd] at hq
    rw [heq]
    by_cases hqp : q = p
    · rw [hqp] at hq
      exact absurd ((hsame p).mpr hout) hq
    · rw [passed_other T hqp]
      have hat' : S.atBarrier q = true := h.atBarrier q fun ho => hq ((hsame q).mpr ho)
      cases q <;> exact hat'

theorem Meets.leave (h : S.Meets k i) (hs : S.passive_fwd_recv.place p = .signalled) :
    (S.leave p).Meets k (S.done i p) := by
  have hne : S.passive_fwd_recv.place p ≠ .out := by rw [hs]; decide
  let T : State := { S with passive_fwd_recv := S.passive_fwd_recv.leave p }
  have hat : T.atBarrier p = true := by
    have hS := h.atBarrier p hne
    cases p <;> exact hS
  have hpout : T.passive_fwd_recv.place p = .out := Function.update_self ..
  have hplace : ∀ q, q ≠ p → T.passive_fwd_recv.place q = S.passive_fwd_recv.place q := fun q hq =>
    Function.update_of_ne hq ..
  have hentered : (S.leave p).entered k (S.done i p) = S.entered k i := by
    funext q
    have hdone : S.done i p = T.done i p := by cases p <;> rfl
    have hkept : T.entered k i q + S.blocked q = S.entered k i q + T.blocked q := entered_blocked T S k i rfl rfl q
    rw [hdone]
    refine (passed_entered (S := T) hat q).trans ?_
    by_cases hq : q = p
    · subst hq
      rw [blocked_of_ne hne, blocked_out hpout] at hkept
      rw [if_pos rfl]
      exact hkept
    · have hblocked : T.blocked q = S.blocked q := by unfold blocked; rw [hplace q hq]
      rw [if_neg hq]
      omega
  refine ⟨?_, fun q hq => ?_⟩
  · rw [hentered]
    have hfwd : (S.leave p).passive_fwd_recv = S.passive_fwd_recv.leave p := passed_fwd T p
    rw [hfwd]
    exact h.balanced.leave hs
  · have hq' : T.passive_fwd_recv.place q ≠ .out := by
      have hfwd : (S.leave p).passive_fwd_recv = T.passive_fwd_recv := passed_fwd T p
      rwa [hfwd] at hq
    have hqp : q ≠ p := by
      rintro rfl
      exact hq' hpout
    refine (passed_other T hqp).trans ?_
    have hat' : S.atBarrier q = true := h.atBarrier q (by rw [← hplace q hqp]; exact hq')
    cases q <;> exact hat'

end State

end GaspiCxx.Passive.RecvMessg
