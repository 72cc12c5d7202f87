import GaspiCxx.Collectives.Exchange.Correct
import GaspiCxx.Collectives.Exchange.Unwinding

/-!
# When a call throws

An exception leaves the notifications of the descriptions behind: they are
plain numbers to the function, released in its last two loops or not at all.
Only the exception of the first acquisition comes before there is anything to
leave behind.
-/

namespace GaspiCxx.Collectives.Exchange.Unwinding

open Passive SingleSided Segment
open Segment.NotificationManager (toNotification toSize)

variable {n : Nat}

/-- What the exception is about: `acquire_notification`, `new Buffer`, `context.write`. -/
def Fallible : Instr n → Prop
  | .acquire_notification _ _ | .newBuffer _ _ | .write _ => True
  | _ => False

/-- The call has left no trace: the ids that are out on both segments, and the
blocks that are allocated on the target segment, are those before it. -/
structure Restored (c : Invocation n) (before after : Nat → SegmentManager) : Prop where
  ids : ∀ side p, p ∈ (after (c.segment side)).ids ↔ p ∈ (before (c.segment side)).ids
  blocks : ∀ block, block ∈ Blocks.live (after c.targetSegment)._memoryManager ↔
    block ∈ Blocks.live (before c.targetSegment)._memoryManager

variable {N : Nat} {c : Invocation n} {I J : Instr n} {e : Error} {p : Nat} {s s' : State n}
  {segments segments' : Nat → SegmentManager}

/-! ## Where it can be thrown -/

/-- The instructions that can throw are in the first two loops. -/
theorem Fallible.position_le (hI : Fallible I) : I.position ≤ 10 * n := by
  cases I with
  | acquire_notification side i => cases side <;> simp only [Instr.position] <;> omega
  | newBuffer role i => cases role <;> simp only [Instr.position] <;> omega
  | write i =>
    simp only [Instr.position]
    omega
  | _ => exact hI.elim

/-- Notifications are released behind them. -/
theorem Fallible.ne_release (hI : Fallible I) (h : J.position ≤ I.position) (side : Side) (i : Fin n) :
    J ≠ .release_notification side i := by
  rintro rfl
  have hle := hI.position_le
  have hlt : 10 * n < (Instr.release_notification side i).position := by
    cases side <;> simp only [Instr.position] <;> omega
  omega

/-! ## The first notification stays -/

/-- `p` is out on the source segment, and no living buffer will release it. -/
structure Kept (N : Nat) (c : Invocation n) (p : Nat) (s : State n) : Prop where
  holds : ∀ k, NotificationManager.Holds N (s.segments k)._notifyManager
  out : p ∈ (s.segments c.sourceSegment).ids
  others : ∀ role i b, s.buffers role i = some b → c.targetSegment = c.sourceSegment → toSize b._notification ≠ p

theorem Kept.setSegment (h : Kept N c p s) {k : Nat} {segment : SegmentManager}
    (hholds : NotificationManager.Holds N segment._notifyManager)
    (hout : k = c.sourceSegment → p ∈ segment.ids) : Kept N c p (s.setSegment k segment) where
  holds k' := by
    rw [segments_setSegment]
    split
    · exact hholds
    · exact h.holds k'
  out := by
    rw [segments_setSegment]
    split
    · next he => exact hout he.symm
    · exact h.out
  others := h.others

theorem Kept.setBuffer (h : Kept N c p s) {role : Role} {i : Fin n} {b : Option Buffer}
    (hb : ∀ b', b = some b' → c.targetSegment = c.sourceSegment → toSize b'._notification ≠ p) :
    Kept N c p (s.setBuffer role i b) where
  holds := h.holds
  out := h.out
  others role' i' b' hb' := by
    rw [buffers_setBuffer] at hb'
    split at hb'
    · exact hb b' hb'
    · exact h.others role' i' b' hb'

theorem Kept.reset (h : Kept N c p s) (role : Role) (i : Fin n) : Kept N c p (s.reset c role i) := by
  unfold State.reset
  split
  · exact h
  · next b hb =>
    refine (h.setSegment (holds_destroy (h.holds _) b) fun he => ?_).setBuffer nofun
    have hout := h.out
    rw [← he] at hout
    exact NotificationManager.mem_ids_deallocate hout (h.others role i b hb he).symm

theorem Kept.unwind (h : Kept N c p s) : Kept N c p (s.unwind c) := by
  have hreset (role : Role) (is : List (Fin n)) {s : State n} (h : Kept N c p s) :
      Kept N c p (is.foldl (State.reset c role) s) := by
    induction is generalizing s with
    | nil => exact h
    | cons i is ih => exact ih (h.reset role i)
  exact hreset .src _ (hreset .rcv _ h)

/-- A notification id that is taken from a segment is not `p`, nor will it be released as `p`. -/
theorem Kept.ne_allocated (hN : N < 2 ^ 32) (h : Kept N c p s) {k q : Nat} {bs : List Segment.Block}
    (hq : NotificationManager.Allocated N (s.segments k)._notifyManager q bs) :
    (k = c.sourceSegment → p ∈ NotificationManager.ids bs) ∧
      (k = c.sourceSegment → toSize (toNotification q) ≠ p) := by
  refine ⟨fun he => hq.live.mem_iff.mpr (List.mem_cons_of_mem _ (he ▸ h.out)), fun he hp => ?_⟩
  have hpN := (h.holds _).lt_of_mem h.out
  have hqN := hq.below
  obtain rfl : q = p := NotificationManager.eq_of_toSize (by omega) (by omega) hp
  exact hq.fresh (he ▸ h.out)

/-- No instruction but a release gives the notification back. -/
theorem Kept.exec (hN : N < 2 ^ 32) (h : Kept N c p s) (hJ : ∀ side i, J ≠ .release_notification side i) :
    Kept N c p (exec c s J).2 := by
  unfold Unwinding.exec
  cases J with
  | acquire_notification side i =>
    rcases (h.holds (c.segment side)).acquire with ⟨q, bs, ha, hholds, hq⟩ | ⟨⟨e, ha⟩, -⟩
    · simp only [ha]
      have h' : Kept N c p (s.setSegment (c.segment side)
          { s.segments (c.segment side) with _notifyManager := bs }) :=
        h.setSegment hholds (h.ne_allocated hN hq).1
      exact ⟨h'.holds, h'.out, h'.others⟩
    · simp only [ha]
      exact h.setSegment (h.holds _) fun he => he ▸ h.out
  | newBuffer role i =>
    rcases construct_cases (h.holds c.targetSegment) (descriptionsSize c.D) with
      ⟨b, segment, q, hb, hholds, hq, hn⟩ | ⟨e, segment, hb, he⟩
    · simp only [hb]
      obtain ⟨hout, hne⟩ := h.ne_allocated hN hq
      refine ((h.setSegment hholds hout).reset role i).setBuffer ?_
      rintro _ ⟨⟩ hsame
      rw [hn]
      exact hne hsame
    · simp only [hb]
      refine h.setSegment (by rw [he]; exact h.holds _) fun hsame => ?_
      unfold SegmentManager.ids
      rw [he]
      exact hsame ▸ h.out
  | deleteBuffer role i => exact h.reset role i
  | waitForNotification role i =>
    cases role
    · exact h
    · exact ⟨h.holds, h.out, h.others⟩
  | release_notification side i => exact absurd rfl (hJ side i)
  | _ => exact h

theorem Kept.run (hN : N < 2 ^ 32) {Is : List (Instr n)} (hIs : ∀ J ∈ Is, ∀ side i, J ≠ .release_notification side i)
    (h : Kept N c p s) (hrun : run c Is s = (.ok (), s')) : Kept N c p s' := by
  induction Is generalizing s with
  | nil =>
    obtain ⟨-, rfl⟩ := Prod.mk.inj hrun
    exact h
  | cons J Is ih =>
    obtain ⟨s₁, hexec, hrun⟩ := run_cons hrun
    have hJ := h.exec hN (hIs J List.mem_cons_self)
    rw [hexec] at hJ
    exact ih (fun J hm => hIs J (List.mem_cons_of_mem _ hm)) hJ hrun

/-- The first thing that can throw is the acquisition of a source notification. -/
theorem first_acquisition {before after : List (Instr n)} (hI : Fallible I) (h : program n = before ++ I :: after) :
    ∃ i, (before = [.enter] ∧ I = .acquire_notification .source i) ∨
      ∃ rest, before = .enter :: .acquire_notification .source i :: rest := by
  cases n with
  | zero => cases I <;> first | exact hI.elim | (rename_i i; exact i.elim0)
  | succ n =>
    obtain ⟨rest, hrest⟩ : ∃ rest, program (n + 1) = .enter :: .acquire_notification .source 0 :: rest := by
      unfold program loop
      rw [List.finRange_succ]
      exact ⟨_, rfl⟩
    rw [hrest] at h
    cases before with
    | nil =>
      obtain ⟨rfl, -⟩ := List.cons.inj h
      exact hI.elim
    | cons J before =>
      rw [List.cons_append, List.cons.injEq] at h
      obtain ⟨rfl, h⟩ := h
      cases before with
      | nil =>
        obtain ⟨rfl, -⟩ := List.cons.inj h
        exact ⟨0, .inl ⟨rfl, rfl⟩⟩
      | cons K before =>
        rw [List.cons_append, List.cons.injEq] at h
        obtain ⟨rfl, -⟩ := h
        exact ⟨0, .inr ⟨before, rfl⟩⟩

/-- An exception of the first acquisition changes nothing. -/
theorem exec_initial_error {i : Fin n} (h : NotificationManager.Holds N (segments c.sourceSegment)._notifyManager)
    (hexec : exec c (.initial segments) (.acquire_notification .source i) = (.error e, s')) :
    s' = .initial segments ∧ (segments c.sourceSegment).ids.length = N := by
  unfold exec at hexec
  rcases h.acquire with ⟨p, bs, ha, -⟩ | ⟨⟨e', ha⟩, hfull⟩
  · simp only [State.initial, Invocation.segment, ha] at hexec
    cases hexec
  · simp only [State.initial, Invocation.segment, ha, State.setSegment] at hexec
    obtain ⟨-, rfl⟩ := Prod.mk.inj hexec
    refine ⟨?_, hfull⟩
    unfold State.initial
    rw [show ({ segments c.sourceSegment with _notifyManager := (segments c.sourceSegment)._notifyManager } :
      SegmentManager) = segments c.sourceSegment from rfl, Function.update_eq_self]

/-- If it succeeds, its notification is out from then on. -/
theorem exec_initial_ok {i : Fin n} (hholds : ∀ k, NotificationManager.Holds N (segments k)._notifyManager)
    (hexec : exec c (.initial segments) (.acquire_notification .source i) = (.ok (), s)) :
    (segments c.sourceSegment).ids.length ≠ N ∧ ∃ p, p ∉ (segments c.sourceSegment).ids ∧ Kept N c p s := by
  unfold exec at hexec
  rcases (hholds c.sourceSegment).acquire with ⟨p, bs, ha, hbs, hp⟩ | ⟨⟨e, ha⟩, -⟩
  · simp only [State.initial, Invocation.segment, ha] at hexec
    obtain ⟨-, rfl⟩ := Prod.mk.inj hexec
    have hle := hbs.length_le
    have hlen := hp.live.length_eq
    rw [List.length_cons] at hlen
    unfold SegmentManager.ids
    refine ⟨by omega, p, hp.fresh, ⟨fun k => ?_, ?_, nofun⟩⟩
    · simp only [State.setDescription, segments_setSegment]
      split
      · exact hbs
      · exact hholds k
    · simp only [State.setDescription, segments_setSegment, if_true]
      exact hp.live.mem_iff.mpr List.mem_cons_self
  · simp only [State.initial, Invocation.segment, ha] at hexec
    cases hexec

theorem holds_of_run {N : UInt32} (hN : 0 < N.toNat)
    (hsegments : ∀ k, ∃ ops, (segments k)._notifyManager = NotificationManager.run N.toNat ops) (k : Nat) :
    NotificationManager.Holds N.toNat (segments k)._notifyManager := by
  obtain ⟨ops, hops⟩ := hsegments k
  rw [hops]
  exact NotificationManager.holds_run hN ops

/-- Either the exception is that of the first acquisition, or the notification
of the first acquisition stays behind. -/
theorem ThrowsAt.cases (hN : N < 2 ^ 32) (hholds : ∀ k, NotificationManager.Holds N (segments k)._notifyManager)
    (hI : Fallible I) (h : ThrowsAt c I e segments segments') :
    segments' = segments ∧ (segments c.sourceSegment).ids.length = N ∨
    (segments c.sourceSegment).ids.length ≠ N ∧
      ∃ p, p ∉ (segments c.sourceSegment).ids ∧ p ∈ (segments' c.sourceSegment).ids := by
  obtain ⟨before, after, s, s', hprog, hrun, hexec, rfl⟩ := h
  obtain ⟨i, ⟨rfl, rfl⟩ | ⟨rest, rfl⟩⟩ := first_acquisition hI hprog
  · obtain ⟨-, rfl⟩ := Prod.mk.inj hrun
    obtain ⟨rfl, hfull⟩ := exec_initial_error (hholds _) hexec
    exact .inl ⟨unwind_initial, hfull⟩
  · have hrest : ∀ J ∈ rest, ∀ side i, J ≠ .release_notification side i := fun J hJ =>
      hI.ne_release (position_lt_of_before hprog (List.mem_cons_of_mem _ (List.mem_cons_of_mem _ hJ))).le
    obtain ⟨s₀, henter, hrun⟩ := run_cons hrun
    obtain ⟨-, rfl⟩ := Prod.mk.inj henter
    obtain ⟨s₁, hfirst, hrun⟩ := run_cons hrun
    obtain ⟨hleft, p, hfresh, hkept⟩ := exec_initial_ok hholds hfirst
    have hthrown := (hkept.run hN hrest hrun).exec hN (hI.ne_release (Nat.le_refl _))
    rw [hexec] at hthrown
    exact .inr ⟨hleft, p, hfresh, hthrown.unwind.out⟩

/-- **An exception leaves a trace, unless there was no notification to begin with.** -/
theorem failure_restores_iff {N : UInt32} (hN : 0 < N.toNat)
    (hsegments : ∀ k, ∃ ops, (segments k)._notifyManager = NotificationManager.run N.toNat ops) (hI : Fallible I)
    (h : ThrowsAt c I e segments segments') :
    Restored c segments segments' ↔ (segments c.sourceSegment).ids.length = N.toNat := by
  rcases h.cases N.toNat_lt (holds_of_run hN hsegments) hI with ⟨rfl, hfull⟩ | ⟨hleft, p, hfresh, hout⟩
  · exact ⟨fun _ => hfull, fun _ => ⟨fun _ _ => Iff.rfl, fun _ => Iff.rfl⟩⟩
  · exact ⟨fun h => absurd ((h.ids .source p).mp hout) hfresh, fun h => absurd h hleft⟩

/-! ## A member that sends another more than it takes -/

/-- The checks of `writePart`. -/
def writePart (_ : Fin n) (source target : BufferDescription) : Except Error Unit :=
  match Passive.write (V := Unit) (X := Unit) source target .bare with
  | .ok _ => .ok ()
  | .error what => .error (.runtime_error what)

/-- `alltoallv` in a group of two: rank 0 has two bytes for rank 1, which has room for one. -/
def pairInvocation : Invocation 2 where
  collective := .alltoallv (fun i => 1 + i) (fun _ => 1)
  D := Serialization.gaspi
  group := pair
  rank := ⟨0, Nat.two_pos⟩
  sourceSegment := 0
  gSource := 0
  targetSegment := 0
  gTarget := 4
  arrives i := (⟨i, 0, 4, 1, 1⟩, ⟨i, 0, 0, 1, 0⟩)
  write := writePart

/-- A segment with all its notifications. -/
def pairSegments (_ : Nat) : SegmentManager := .construct 4096 1024 65536

/-- The write to rank 0 itself is made, the one to rank 1 throws. -/
theorem throws_pair : ∃ e segments', ThrowsAt pairInvocation (.write 1) e pairSegments segments' :=
  ⟨_, _,
    [.enter,
      .acquire_notification .source 0, .acquire_notification .target 0, .newBuffer .src 0, .serialize 0,
      .newBuffer .rcv 0, .post .src 0, .post .rcv 0,
      .acquire_notification .source 1, .acquire_notification .target 1, .newBuffer .src 1, .serialize 1,
      .newBuffer .rcv 1, .post .src 1, .post .rcv 1,
      .waitForNotification .rcv 0, .deleteBuffer .rcv 0, .write 0,
      .waitForNotification .rcv 1, .deleteBuffer .rcv 1],
    _, _, _, rfl, rfl, rfl, rfl⟩

theorem failure_restores_iff_pair : ∃ e segments', 0 < (65536 : UInt32).toNat ∧
    (∀ k, ∃ ops, (pairSegments k)._notifyManager = NotificationManager.run (65536 : UInt32).toNat ops) ∧
    Fallible (.write 1 : Instr 2) ∧ ThrowsAt pairInvocation (.write 1) e pairSegments segments' ∧
    (Restored pairInvocation pairSegments segments' ↔
      (pairSegments pairInvocation.sourceSegment).ids.length = (65536 : UInt32).toNat) := by
  obtain ⟨e, segments', h⟩ := throws_pair
  exact ⟨e, segments', by decide, fun _ => ⟨[], rfl⟩, trivial, h,
    failure_restores_iff (by decide) (fun _ => ⟨[], rfl⟩) (I := .write 1) trivial h⟩

/-- The exception of the write leaves four notifications behind. -/
theorem failure_leaks : ¬ ∀ (n : Nat) (N : UInt32) (c : Invocation n) (I : Instr n) (e : Error)
    (segments segments' : Nat → SegmentManager), 0 < N.toNat →
    (∀ k, ∃ ops, (segments k)._notifyManager = NotificationManager.run N.toNat ops) → Fallible I →
    ThrowsAt c I e segments segments' → Restored c segments segments' := by
  intro h
  obtain ⟨e, segments', hthrow⟩ := throws_pair
  have hwrite : Fallible (.write 1 : Instr 2) := trivial
  have hall := h 2 65536 _ _ e _ segments' (by decide) (fun _ => ⟨[], rfl⟩) hwrite hthrow
  rcases hthrow.cases (N := 65536) (by decide) (fun _ => NotificationManager.holds_construct (by decide)) hwrite with
    ⟨-, hfull⟩ | ⟨-, p, hfresh, hout⟩
  · cases hfull
  · exact hfresh ((hall.ids .source p).mp hout)

end GaspiCxx.Collectives.Exchange.Unwinding
