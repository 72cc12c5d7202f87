import GaspiCxx.SingleSided.Buffer
import GaspiCxx.Runs.Trace

/-!
# Buffers that share a notification id one after the other

A `Buffer` gives its id back when it is destroyed, and the next one may get
the same id. The slot of the id is not looked at on either occasion, and a
notification may be on its way for any time. What a `Buffer` sees is its own
if nothing has been left over for it when it was constructed, whatever the
other buffers found.

Buffers are numbered in the order of their construction.
-/

namespace GaspiCxx.SingleSided.Recycling

open Segment
open Segment.NotificationManager (Notification toNotification)

/-- A buffer and whether its memory is its own (`_allocMemory`). -/
structure Living extends Buffer where
  _allocMemory : Bool
  deriving DecidableEq, Repr

def Living.destroy (b : Living) (s : SegmentManager) : SegmentManager :=
  if b._allocMemory then b.toBuffer.destroy s else b.toBuffer.destroyAt s

structure State where
  segment : SegmentManager
  /-- how many buffers have been constructed -/
  count : Nat
  /-- the living ones -/
  buffers : Nat → Option Living
  slot : Notification → Bool
  /-- the notifications on their way -/
  flight : List Notification

/-- A segment of `segmentSize` bytes with `N` notifications, `N` a `gaspi_number_t`. -/
def State.initial (pointer segmentSize : Nat) (N : UInt32) : State where
  segment := .construct pointer segmentSize N.toNat
  count := 0
  buffers _ := none
  slot _ := false
  flight := []

/-- The buffer `b` has been constructed. -/
def State.born (s : State) (b : Living) (segment : SegmentManager) : State :=
  { s with segment, count := s.count + 1, buffers := Function.update s.buffers s.count (some b) }

/-- `gaspi_notify_waitsome(GASPI_TEST)` and, on success, `gaspi_notify_reset`. -/
def checkForNotification (notification : Notification) (slot : Notification → Bool) : Bool × (Notification → Bool) :=
  if slot notification then (true, Function.update slot notification false) else (false, slot)

inductive Label where
  | construct (k : Nat)
  | refuse
  | post (k : Nat)
  | deliver
  | check (k : Nat) (result : Bool)
  | wait (k : Nat)
  | destroy (k : Nat)
  deriving DecidableEq, Repr

inductive Step : State → Label → State → Prop where
  | construct {s : State} {size : Nat} {b : Buffer} {segment : SegmentManager}
      (h : Buffer.construct size s.segment = (.ok b, segment)) :
      Step s (.construct s.count) (s.born ⟨b, true⟩ segment)
  | constructAt {s : State} {pointer size : Nat} {b : Buffer} {segment : SegmentManager}
      (h : Buffer.constructAt pointer size s.segment = (.ok b, segment)) :
      Step s (.construct s.count) (s.born ⟨b, false⟩ segment)
  | refuse {s : State} {size : Nat} {e : Error} {segment : SegmentManager}
      (h : Buffer.construct size s.segment = (.error e, segment)) : Step s .refuse { s with segment }
  | refuseAt {s : State} {pointer size : Nat} {e : Error} {segment : SegmentManager}
      (h : Buffer.constructAt pointer size s.segment = (.error e, segment)) : Step s .refuse { s with segment }
  /-- A rank notifies the description of a living buffer. -/
  | post {s : State} {k : Nat} {b : Living} (hk : s.buffers k = some b) :
      Step s (.post k) { s with flight := b._notification :: s.flight }
  | deliver {s : State} {before after : List Notification} {notification : Notification}
      (h : s.flight = before ++ notification :: after) :
      Step s .deliver { s with slot := Function.update s.slot notification true, flight := before ++ after }
  | check {s : State} {k : Nat} {b : Living} (hk : s.buffers k = some b) :
      Step s (.check k (checkForNotification b._notification s.slot).1)
        { s with slot := (checkForNotification b._notification s.slot).2 }
  | wait {s : State} {k : Nat} {b : Living} (hk : s.buffers k = some b) (hset : s.slot b._notification = true) :
      Step s (.wait k) { s with slot := (checkForNotification b._notification s.slot).2 }
  | destroy {s : State} {k : Nat} {b : Living} (hk : s.buffers k = some b) :
      Step s (.destroy k) { s with segment := b.destroy s.segment, buffers := Function.update s.buffers k none }

/-- Something posted to `notification` has not been consumed. -/
def Left (s : State) (notification : Notification) : Prop := s.slot notification = true ∨ notification ∈ s.flight

/-- Nothing is left over for the buffer `k`. -/
def Clean (s : State) (k : Nat) : Prop := ∀ b, s.buffers k = some b → ¬ Left s b._notification

/-- A notification to the buffer `k` has been posted since its construction. -/
def Notified (ls : List Label) (k : Nat) : Prop := ∃ older since, ls = older ++ .construct k :: since ∧ .post k ∈ since

/-- A check returns true only if its buffer has been notified since its construction. -/
def SeesOwn (ls : List Label) : Prop := ∀ before k after, ls = before ++ .check k true :: after → Notified before k

variable {N : Nat} {ls since : List Label} {s t : State} {l : Label} {k : Nat} {b : Living}
  {notification : Notification} {segment : SegmentManager}

/-! ## What a step does -/

theorem State.born_buffers {k' : Nat} {b' : Living} (h : (s.born b segment).buffers k' = some b') :
    k' = s.count ∧ b' = b ∨ k' ≠ s.count ∧ s.buffers k' = some b' := by
  by_cases hk : k' = s.count
  · subst hk
    simp only [State.born, Function.update_self, Option.some.injEq] at h
    exact .inl ⟨rfl, h.symm⟩
  · simp only [State.born, Function.update_of_ne hk] at h
    exact .inr ⟨hk, h⟩

theorem buffers_of_destroy {k' : Nat} {b' : Living} (h : Function.update s.buffers k none k' = some b') :
    k' ≠ k ∧ s.buffers k' = some b' := by
  by_cases hk : k' = k
  · subst hk
    simp at h
  · exact ⟨hk, by rwa [Function.update_of_ne hk] at h⟩

theorem Step.count_le (h : Step s l t) : s.count ≤ t.count := by
  cases h with
  | construct | constructAt => exact Nat.le_succ _
  | _ => exact Nat.le_refl _

/-- A buffer that has been constructed before was there before. -/
theorem Step.buffers (h : Step s l t) (hk : t.buffers k = some b) (hlt : k < s.count) : s.buffers k = some b := by
  cases h with
  | construct | constructAt =>
    rcases State.born_buffers hk with ⟨rfl, -⟩ | ⟨-, hk⟩
    · exact absurd hlt (Nat.lt_irrefl _)
    · exact hk
  | destroy => exact (buffers_of_destroy hk).2
  | _ => exact hk

theorem check_left (s : State) (notification : Notification) {n : Notification}
    (h : Left { s with slot := (checkForNotification notification s.slot).2 } n) : Left s n := by
  unfold Left checkForNotification at h
  apply h.imp_left
  intro hs
  split at hs
  · by_cases hn : n = notification
    · subst hn
      simp at hs
    · simpa [Function.update_of_ne hn] using hs
  · exact hs

/-- Only a notification that is posted to its id leaves something new for a buffer. -/
theorem Step.left (h : Step s l t) (hl : Left t notification) :
    Left s notification ∨ ∃ k b, l = .post k ∧ s.buffers k = some b ∧ b._notification = notification := by
  cases h with
  | construct | constructAt | refuse | refuseAt | destroy => exact .inl hl
  | check | wait => exact .inl (check_left s _ hl)
  | @post k b hk =>
    rcases hl with hset | hflight
    · exact .inl (.inl hset)
    · rcases List.mem_cons.mp hflight with rfl | hflight
      · exact .inr ⟨k, b, rfl, hk, rfl⟩
      · exact .inl (.inr hflight)
  | @deliver before after n hf =>
    apply Or.inl
    unfold Left
    rw [hf]
    by_cases hn : notification = n
    · subst hn
      exact .inr (by simp)
    · rcases hl with hset | hflight
      · exact .inl (by simpa [Function.update_of_ne hn] using hset)
      · apply Or.inr
        rcases List.mem_append.mp hflight with hm | hm
        · exact List.mem_append_left _ hm
        · exact List.mem_append_right _ (List.mem_cons_of_mem _ hm)

/-! ## Living buffers have ids of their own -/

/-- What holds in every run: the ids of living buffers are out and different. -/
structure Inv (N : Nat) (s : State) : Prop where
  holds : NotificationManager.Holds N s.segment._notifyManager
  id : ∀ k b, s.buffers k = some b → ∃ p ∈ s.segment.ids, b._notification = toNotification p
  distinct : ∀ k k' b b', s.buffers k = some b → s.buffers k' = some b' →
    b._notification = b'._notification → k = k'

theorem Inv.born (hN : N < 2 ^ 32) (h : Inv N s) {p : Nat}
    (ha : NotificationManager.allocate 1 s.segment._notifyManager = (.ok p, segment._notifyManager))
    (hp : b._notification = toNotification p) : Inv N (s.born b segment) := by
  obtain ⟨-, hfresh, hlive⟩ := h.holds.allocated ha
  have hlt := (h.holds.allocated ha).below
  have hold : ∀ q ∈ s.segment.ids, q ∈ segment.ids := fun q hq => hlive.symm.subset (List.mem_cons_of_mem _ hq)
  have hother : ∀ k b', s.buffers k = some b' → b'._notification ≠ b._notification := by
    intro k b' hk heq
    obtain ⟨q, hq, hbq⟩ := h.id k b' hk
    have hqN := h.holds.lt_of_mem hq
    obtain rfl := NotificationManager.toNotification_inj (by omega) (by omega) (hbq.symm.trans (heq.trans hp))
    exact hfresh hq
  refine ⟨?_, fun k b' hk => ?_, fun k k' b₁ b₂ hk hk' heq => ?_⟩
  · have hholds := h.holds.call .allocate
    rwa [NotificationManager.call, ha] at hholds
  · rcases State.born_buffers hk with ⟨-, rfl⟩ | ⟨-, hk⟩
    · exact ⟨p, hlive.symm.subset List.mem_cons_self, hp⟩
    · obtain ⟨q, hq, hbq⟩ := h.id k b' hk
      exact ⟨q, hold q hq, hbq⟩
  · rcases State.born_buffers hk with ⟨rfl, rfl⟩ | ⟨-, hk₁⟩ <;>
      rcases State.born_buffers hk' with ⟨rfl, rfl⟩ | ⟨-, hk₂⟩
    · rfl
    · exact absurd heq.symm (hother k' b₂ hk₂)
    · exact absurd heq (hother k b₁ hk₁)
    · exact h.distinct k k' b₁ b₂ hk₁ hk₂ heq

theorem Living.destroy_notify (b : Living) (S : SegmentManager) : (b.destroy S)._notifyManager =
    (NotificationManager.release_notification b._notification S._notifyManager).2 := by
  unfold Living.destroy
  split <;> rfl

theorem Inv.destroy (hN : N < 2 ^ 32) (h : Inv N s) (hk : s.buffers k = some b) :
    Inv N { s with segment := b.destroy s.segment, buffers := Function.update s.buffers k none } := by
  refine ⟨?_, fun k' b' hk' => ?_, fun k₁ k₂ b₁ b₂ h₁ h₂ heq => ?_⟩
  · rw [Living.destroy_notify]
    exact h.holds.call (.deallocate (NotificationManager.toSize b._notification))
  · obtain ⟨hne, hk'⟩ := buffers_of_destroy hk'
    obtain ⟨p, hp, hbp⟩ := h.id k b hk
    obtain ⟨q, hq, hbq⟩ := h.id k' b' hk'
    have hpN := h.holds.lt_of_mem hp
    have hqN := h.holds.lt_of_mem hq
    refine ⟨q, ?_, hbq⟩
    rw [SegmentManager.ids, Living.destroy_notify]
    apply NotificationManager.mem_ids_deallocate hq
    intro he
    obtain rfl := NotificationManager.eq_of_toSize (by omega) (by omega) (hbp ▸ he.symm)
    exact hne (h.distinct k' k b' b hk' hk (hbq.trans hbp.symm))
  · exact h.distinct k₁ k₂ b₁ b₂ (buffers_of_destroy h₁).2 (buffers_of_destroy h₂).2 heq

theorem Inv.refuse (h : Inv N s) (hsegment : segment._notifyManager = s.segment._notifyManager) :
    Inv N { s with segment } where
  holds := hsegment ▸ h.holds
  id := by unfold SegmentManager.ids; rw [hsegment]; exact h.id
  distinct := h.distinct

theorem Inv.step (hN : N < 2 ^ 32) (h : Inv N s) (hs : Step s l t) : Inv N t := by
  cases hs with
  | construct hb =>
    obtain ⟨-, p, ha, hp, -⟩ := construct_ok hb
    exact h.born hN ha hp
  | constructAt hb =>
    obtain ⟨p, ha, hp⟩ := constructAt_ok hb
    exact h.born hN ha hp
  | refuse hb => exact h.refuse (construct_error hb)
  | refuseAt hb => exact h.refuse (constructAt_error hb)
  | destroy hk => exact h.destroy hN hk
  | post | deliver | check | wait => exact ⟨h.holds, h.id, h.distinct⟩

theorem inv_of_run {pointer segmentSize : Nat} {M : UInt32} (hM : 0 < M.toNat)
    (h : Runs.Trace Step (.initial pointer segmentSize M) ls s) : Inv M.toNat s := by
  refine h.invariant ⟨NotificationManager.holds_construct hM, ?_, ?_⟩ fun _ _ _ hinv hs => hinv.step M.toNat_lt hs
  · exact fun _ _ hk => nomatch hk
  · exact fun _ _ _ _ hk => nomatch hk

/-! ## A buffer that started clean -/

/-- What is left for the buffer `k` has been posted to it since its construction. -/
structure Own (k : Nat) (since : List Label) (s : State) : Prop where
  born : k < s.count
  posted : ∀ b, s.buffers k = some b → Left s b._notification → .post k ∈ since

theorem Own.step (h : Own k since s) (hinv : Inv N s) (hs : Step s l t) : Own k (since ++ [l]) t := by
  refine ⟨Nat.lt_of_lt_of_le h.born hs.count_le, fun b hk hl => ?_⟩
  have hk := hs.buffers hk h.born
  rcases hs.left hl with hl | ⟨k', b', rfl, hk', heq⟩
  · exact List.mem_append_left _ (h.posted b hk hl)
  · obtain rfl := hinv.distinct k' k b' b hk' hk heq
    simp

theorem Own.of_run (hN : N < 2 ^ 32) (hinv : Inv N s) (h : Own k [] s) (hrun : Runs.Trace Step s since t) :
    Own k since t :=
  (hrun.history (P := fun ls s => Inv N s ∧ Own k ls s) ⟨hinv, h⟩
    fun _ _ _ _ ⟨hinv, h⟩ hs => ⟨hinv.step hN hs, h.step hinv hs⟩).2

/-! ## The result -/

/-- **A buffer that finds nothing left over for it sees its own notifications
only**, in every run and whatever the other buffers find. -/
theorem buffer_sees_own {pointer segmentSize : Nat} {M : UInt32} {older : List Label} {u v : State}
    (hM : 0 < M.toNat) (holder : Runs.Trace Step (.initial pointer segmentSize M) older s)
    (hstep : Step s (.construct k) u) (hclean : Clean u k) (hsince : Runs.Trace Step u since v) :
    ∀ before after, since = before ++ .check k true :: after → .post k ∈ before := by
  rintro before after rfl
  have hinv := (inv_of_run hM holder).step M.toNat_lt hstep
  have hborn : k < u.count := by cases hstep <;> exact Nat.lt_succ_self _
  obtain ⟨x, y, hx, hl, -⟩ := hsince.split_cons
  have hown := Own.of_run M.toNat_lt hinv ⟨hborn, fun b hk hl => absurd hl (hclean b hk)⟩ hx
  generalize hk : Label.check k true = l at hl
  cases hl with
  | @check k' b hb =>
    obtain ⟨rfl, hset⟩ := Label.check.inj hk
    refine hown.posted b hb (.inl ?_)
    unfold checkForNotification at hset
    split at hset
    · assumption
    · cases hset
  | _ => cases hk

theorem Step.check_true (hk : s.buffers k = some b) (hset : s.slot b._notification = true) :
    Step s (.check k true) { s with slot := Function.update s.slot b._notification false } := by
  have hstep := Step.check hk
  unfold checkForNotification at hstep
  rwa [if_pos hset] at hstep

theorem Step.check_false (hk : s.buffers k = some b) (hclear : s.slot b._notification = false) :
    Step s (.check k false) s := by
  have hstep := Step.check hk
  unfold checkForNotification at hstep
  rwa [if_neg (by simp [hclear])] at hstep

/-- What is left over for a buffer it can see, whoever it was posted to. -/
theorem left_over_is_seen (hk : s.buffers k = some b) (hleft : Left s b._notification) :
    ∃ ls t, Runs.Trace Step s (ls ++ [.check k true]) t ∧ .post k ∉ ls := by
  rcases hleft with hset | hflight
  · exact ⟨[], _, .single (.check_true hk hset), List.not_mem_nil⟩
  · obtain ⟨before, after, hf⟩ := List.append_of_mem hflight
    have hcheck := Step.check_true (s := { s with
      slot := Function.update s.slot b._notification true, flight := before ++ after }) hk (by simp)
    exact ⟨[.deliver], _, (Runs.Trace.single (.deliver hf)).snoc hcheck, by simp⟩

/-- So is what is posted to it. -/
theorem own_is_seen (hk : s.buffers k = some b) (hclear : s.slot b._notification = false) :
    ∃ t, Runs.Trace Step s [.check k false, .post k, .deliver, .check k true] t := by
  have hpost := (Runs.Trace.single (Step.check_false hk hclear)).snoc (.post hk)
  have hdeliver := hpost.snoc (.deliver (List.nil_append (b._notification :: s.flight)).symm)
  exact ⟨_, hdeliver.snoc (.check_true hk (by simp))⟩

/-! ## Buffers that get the same id -/

/-- A segment with the ids below `k` out and the first 8 bytes taken. -/
def taken (k : Nat) : SegmentManager :=
  ⟨[⟨4096, 8, false⟩, ⟨4104, 1016, true⟩],
    (List.range k).map (⟨·, 1, false⟩) ++ [⟨k, 65536 - k, true⟩]⟩

def free : SegmentManager := .construct 4096 1024 65536

theorem construct_free : Buffer.construct 8 free = (.ok ⟨4096, 8, 0⟩, taken 1) := rfl

theorem destroy_taken : Living.destroy ⟨⟨4096, 8, 0⟩, true⟩ (taken 1) = free := by decide

theorem constructAt_taken : Buffer.constructAt 4096 8 (taken 1) = (.ok ⟨4096, 8, 1⟩, taken 2) ∧
    Buffer.constructAt 4096 8 (taken 2) = (.ok ⟨4096, 8, 2⟩, taken 3) := ⟨rfl, rfl⟩

/-- Buffer 1 goes without a look at its slot and buffer 2 gets its id. Buffer 3 gets an
id nobody has used, and sees its own notification. -/
theorem buffer_sees_own_beside : ∃ s u v, 0 < (65536 : UInt32).toNat ∧
    Runs.Trace Step (.initial 4096 1024 65536)
      [.construct 0, .construct 1, .post 1, .deliver, .destroy 1, .construct 2] s ∧
    Step s (.construct 3) u ∧ Clean u 3 ∧ ¬ Clean u 2 ∧
    Runs.Trace Step u [.check 3 false, .post 3, .deliver, .check 3 true] v ∧
    ∀ before after, [.check 3 false, .post 3, .deliver, .check 3 true] = before ++ Label.check 3 true :: after →
      Label.post 3 ∈ before := by
  obtain ⟨s, hs, u, hu, hclean, hleft, v, hv⟩ : ∃ s, Runs.Trace Step (.initial 4096 1024 65536)
      [.construct 0, .construct 1, .post 1, .deliver, .destroy 1, .construct 2] s ∧
      ∃ u, Step s (.construct 3) u ∧ Clean u 3 ∧ ¬ Clean u 2 ∧
        ∃ v, Runs.Trace Step u [.check 3 false, .post 3, .deliver, .check 3 true] v := by
    have h₁ := Runs.Trace.single (Step.construct (s := .initial 4096 1024 65536) construct_free)
    have h₂ := h₁.snoc (.constructAt constructAt_taken.1)
    have h₃ := h₂.snoc (.post (k := 1) rfl)
    have h₄ := h₃.snoc (.deliver (show _ = [] ++ (1 : Int) :: [] from rfl))
    have h₅ := h₄.snoc (.destroy (k := 1) rfl)
    have hdestroy : Living.destroy ⟨⟨4096, 8, 1⟩, false⟩ (taken 2) = taken 1 := by decide
    simp only [State.born, hdestroy] at h₅
    refine ⟨_, h₅.snoc (.constructAt constructAt_taken.1), _, .constructAt constructAt_taken.2, ?_, ?_, ?_⟩
    · intro b hb
      obtain rfl := Option.some.inj hb
      rintro (h | h) <;> cases h
    · exact fun h => h _ rfl (.inl rfl)
    · exact own_is_seen (b := ⟨⟨4096, 8, 2⟩, false⟩) rfl rfl
  exact ⟨s, u, v, by decide, hs, hu, hclean, hleft, hv, buffer_sees_own (by decide) hs hu hclean hv⟩

/-- The first buffer goes without a look at its slot, and the second one sees what was posted to it. -/
theorem buffer_sees_anothers : ¬ ∀ (pointer segmentSize : Nat) (M : UInt32) (ls : List Label) (s : State),
    0 < M.toNat → Runs.Trace Step (.initial pointer segmentSize M) ls s → SeesOwn ls := by
  intro h
  have h₁ := Runs.Trace.single (Step.construct (s := .initial 4096 1024 65536) construct_free)
  have h₂ := h₁.snoc (.post (k := 0) rfl)
  have h₃ := h₂.snoc (.deliver (show _ = [] ++ (0 : Int) :: [] from rfl))
  have h₄ := h₃.snoc (.destroy (k := 0) rfl)
  simp only [State.born, destroy_taken] at h₄
  have h₅ := h₄.snoc (.construct construct_free)
  have h₆ := h₅.snoc (.check_true (k := 1) rfl rfl)
  obtain ⟨older, since, he, hp⟩ := h _ _ _ _ _ (by decide) h₆ _ 1 [] rfl
  have hmem : Label.post 1 ∈ older ++ .construct 1 :: since := by simp [hp]
  rw [← he] at hmem
  exact absurd hmem (by decide)

end GaspiCxx.SingleSided.Recycling
