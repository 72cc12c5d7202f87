import GaspiCxx.OneSided.Delivery
import GaspiCxx.Runs.Refinement
import GaspiCxx.SingleSided.Transfers

/-!
# Acknowledged transfers come to an end

A rank that relays does not acknowledge what it got before its own transfers from
that memory are acknowledged. Still nobody waits forever for somebody else who
waits: the transfers that are not acknowledged have an order (`Ordered`), and the
last one can always be finished first.

**`transfers_settle`**: from every state that is reached the network, completions and
acknowledgements alone lead to a state in which everything that was transferred has
been received and acknowledged.
-/

namespace GaspiCxx.SingleSided.Transfers

open OneSided Runs

variable {Conn Loc Val : Type}

/-- The label is of a step that brings a transfer to its end. -/
def Label.settles : Label Conn Loc Val → Bool
  | completion _ _ => true
  | ackTransfer _ => true
  | transferAck _ => true
  | network => true
  | _ => false

theorem Label.sent_of_settles [DecidableEq Conn] {l : Label Conn Loc Val} (h : l.settles = true) (c : Conn) :
    l.sent c = none := by
  cases l with
  | initTransfer c' v => cases h
  | _ => rfl

theorem sent_append_of_settles [DecidableEq Conn] (ls : List (Label Conn Loc Val))
    {ls' : List (Label Conn Loc Val)} (h : ∀ l ∈ ls', l.settles = true) (c : Conn) :
    sent c (ls ++ ls') = sent c ls := by
  unfold sent
  have hnone : ls'.filterMap (Label.sent c) = [] :=
    List.filterMap_eq_nil_iff.mpr fun l hl => Label.sent_of_settles (h l hl) c
  rw [List.filterMap_append, hnone, List.append_nil]

/-! ## The order -/

section

variable {C : Connections Conn Loc} {S S' : State Conn Loc Val}

/-- What relays a transfer was transferred after it. -/
def Ordered (C : Connections Conn Loc) (S : State Conn Loc Val) : Prop :=
  ∃ (time : Conn → Nat) (now : Nat), (∀ c, time c < now) ∧
    ∀ c c', S.awaiting c = true → S.awaiting c' = true → C.source c' = C.target c → time c < time c'

theorem Ordered.mono (h : Ordered C S) (hless : ∀ c, S'.awaiting c = true → S.awaiting c = true) :
    Ordered C S' := by
  obtain ⟨time, now, hnow, hlt⟩ := h
  exact ⟨time, now, hnow, fun c c' hc hc' => hlt c c' (hless c hc) (hless c' hc')⟩

theorem Ordered.lower [DecidableEq Conn] (h : Ordered C S) (c : Conn)
    (hS : S'.awaiting = Function.update S.awaiting c false) : Ordered C S' := by
  refine h.mono fun c' hc' => ?_
  rw [hS] at hc'
  by_cases he : c' = c
  · subst he
    simp at hc'
  · rwa [Function.update_of_ne he] at hc'

end

/-! ## Finishing one transfer -/

section

variable [DecidableEq Conn] [DecidableEq Loc] {C : Connections Conn Loc} {S S' : State Conn Loc Val}
  {ls : List (Label Conn Loc Val)} {l : Label Conn Loc Val} {c : Conn} {p : Port Conn}

def Settles (C : Connections Conn Loc) (S S' : State Conn Loc Val) : Prop :=
  ∃ l : Label Conn Loc Val, l.settles = true ∧ Step C S l S'

theorem trace_of_settles (h : Relation.ReflTransGen (Settles C) S S') :
    ∃ ls, Trace (Step C) S ls S' ∧ ∀ l ∈ ls, l.settles = true := by
  induction h with
  | refl => exact ⟨[], .refl _, by simp⟩
  | tail _ hstep ih =>
    obtain ⟨ls, htrace, hall⟩ := ih
    obtain ⟨l, hl, hstep⟩ := hstep
    exact ⟨ls ++ [l], htrace.snoc hstep, by simpa [or_imp, forall_and, hl] using hall⟩

/-- A state that is reached, whatever the run. -/
def Valid (C : Connections Conn Loc) (S : State Conn Loc Val) : Prop := ∃ ls I, Inv C ls S I

/-- The transfer of `c` can be brought to its end, and no other is acknowledged meanwhile. -/
def CanSettle (C : Connections Conn Loc) (S : State Conn Loc Val) (c : Conn) : Prop :=
  ∃ S', Relation.ReflTransGen (Settles C) S S' ∧ Valid C S' ∧
    S'.awaiting = Function.update S.awaiting c false

namespace Valid

theorem step (h : Valid C S) (hstep : Step C S l S') : Valid C S' := by
  obtain ⟨ls, I, hI⟩ := h
  exact ⟨_, hI.step hstep⟩

/-- The network brings a notification to its slot. -/
theorem deliver (h : Valid C S) (hp : Waiting S p) :
    ∃ F, Relation.ReflTransGen (Settles C) S { S with fabric := F } ∧ Valid C { S with fabric := F } ∧
      F.slot p = true := by
  induction hn : S.fabric.ahead p using Nat.strong_induction_on generalizing S with
  | _ n ih =>
    by_cases hf : S.fabric.flight p = []
    · exact ⟨S.fabric, .refl, h, hp.resolve_left fun hne => hne hf⟩
    · obtain ⟨G, hG⟩ := Fabric.advance_of_flight (wiring C) hf
      have hstep : Step C S .network { S with fabric := G } := .network S hG
      have hless := Fabric.ahead_of_advance hG p
      rw [if_pos rfl] at hless
      obtain ⟨ls, I, hI⟩ := h
      obtain ⟨I', hI'⟩ := hI.step hstep
      have hp' : Waiting { S with fabric := G } p := by
        rw [hI'.waiting_iff, posted_same ls (fun _ => rfl) fun _ => rfl, taken_same ls (fun _ => rfl) fun _ => rfl]
        exact hI.waiting_iff.mp hp
      obtain ⟨F, hrun, hvalid, hslot⟩ := ih _ (hn ▸ hless) ⟨_, I', hI'⟩ hp' rfl
      exact ⟨F, .head ⟨_, rfl, hstep⟩ hrun, hvalid, hslot⟩

/-- The acknowledgement is on its way. -/
theorem settle_acknowledged (h : Valid C S) (ha : S.awaiting c = true) (hp : Waiting S (.source c)) :
    CanSettle C S c := by
  obtain ⟨F, hrun, hvalid, hslot⟩ := h.deliver hp
  have hwait : waitForTransferAck F (.source c) = some (F.reset (.source c)) := by
    simp [waitForTransferAck, waitForNotification, hslot]
  have hstep := Step.waitForTransferAck (C := C) { S with fabric := F } ha hwait
  exact ⟨_, hrun.tail ⟨_, rfl, hstep⟩, hvalid.step hstep, rfl⟩

theorem settle_held (h : Valid C S) (ha : S.awaiting c = true) (hc : S.holding c = true)
    (own : ∀ c', C.source c' = C.target c → S.awaiting c' = false) : CanSettle C S c := by
  have hstep := Step.ackTransfer S hc own
  obtain ⟨S', hrun, hvalid, haw⟩ := (h.step hstep).settle_acknowledged ha
    (.inl (by simp [ackTransfer, wiring, Fabric.post_flight]))
  exact ⟨S', .head ⟨_, rfl, hstep⟩ hrun, hvalid, haw⟩

theorem settle_posted (h : Valid C S) (ha : S.awaiting c = true) (hc : S.holding c = false)
    (hp : Waiting S (.target c)) (own : ∀ c', C.source c' = C.target c → S.awaiting c' = false) :
    CanSettle C S c := by
  obtain ⟨F, hrun, hvalid, hslot⟩ := h.deliver hp
  have hwait : waitForCompletion F (.target c) = some (F.reset (.target c)) := by
    simp [waitForCompletion, waitForNotification, hslot]
  have hstep := Step.waitForCompletion (C := C) { S with fabric := F } hc hwait
  obtain ⟨S', hrun', hvalid', haw⟩ := (hvalid.step hstep).settle_held ha (Function.update_self ..) own
  exact ⟨S', (hrun.tail ⟨_, rfl, hstep⟩).trans hrun', hvalid', haw⟩

/-- A transfer can be finished if nothing that its target relays is outstanding. -/
theorem settle_one (h : Valid C S) (ha : S.awaiting c = true)
    (own : ∀ c', C.source c' = C.target c → S.awaiting c' = false) : CanSettle C S c := by
  obtain ⟨ls, I, hI⟩ := h
  rcases hI.toAcknowledged.awaited c ha with ⟨hp, hc, -⟩ | ⟨-, hc, -⟩ | ⟨-, -, hp⟩
  · exact settle_posted ⟨ls, I, hI⟩ ha hc hp own
  · exact settle_held ⟨ls, I, hI⟩ ha hc own
  · exact settle_acknowledged ⟨ls, I, hI⟩ ha hp

end Valid

theorem Ordered.step (h : Ordered C S) (hv : Valid C S) (hstep : Step C S l S') : Ordered C S' := by
  cases hstep with
  | @initTransfer c idle own =>
    obtain ⟨ls, I, hI⟩ := hv
    obtain ⟨time, now, hnow, hlt⟩ := h
    refine ⟨Function.update time c now, now + 1, fun c₁ => ?_, fun c₁ c₂ h₁ h₂ he => ?_⟩
    · by_cases hc : c₁ = c
      · subst hc
        simp
      · rw [Function.update_of_ne hc]
        exact Nat.lt_succ_of_lt (hnow c₁)
    -- what relays from the target is not outstanding, as the target is not held
    · by_cases hc₁ : c₁ = c
      · subst hc₁
        have hne : c₂ ≠ c₁ := by
          rintro rfl
          exact C.target_ne_source _ he.symm
        have hrelay := hI.relay c₁ c₂ he (hI.level_of_idle idle).2.2
        exact absurd h₂ (by simp [hne, hrelay])
      · have h₁' : S.awaiting c₁ = true := by simpa [hc₁] using h₁
        rw [Function.update_of_ne hc₁]
        by_cases hc₂ : c₂ = c
        · subst hc₂
          rw [Function.update_self]
          exact hnow c₁
        · have h₂' : S.awaiting c₂ = true := by simpa [hc₂] using h₂
          rw [Function.update_of_ne hc₂]
          exact hlt c₁ c₂ h₁' h₂' he
  | @waitForTransferAck c F wait hw => exact h.lower c rfl
  | @checkForTransferAck c F wait hw => exact h.lower c rfl
  | _ => exact h

theorem Valid.settle_all [Fintype Conn] (h : Valid C S) (ho : Ordered C S) :
    ∃ S', Relation.ReflTransGen (Settles C) S S' ∧ Valid C S' ∧ ∀ c, S'.awaiting c = false := by
  induction hn : (Finset.univ.filter (S.awaiting · = true)).card generalizing S with
  | zero =>
    refine ⟨S, .refl, h, fun c => ?_⟩
    have hc := Finset.filter_eq_empty_iff.mp (Finset.card_eq_zero.mp hn) (Finset.mem_univ c)
    simpa using hc
  | succ n ih =>
    obtain ⟨time, now, hnow, hlt⟩ := ho
    obtain ⟨c, hc, hlast⟩ := Finset.exists_max_image (Finset.univ.filter (S.awaiting · = true)) time
      (Finset.card_pos.mp (hn ▸ Nat.succ_pos n))
    have ha : S.awaiting c = true := (Finset.mem_filter.mp hc).2
    have own : ∀ c', C.source c' = C.target c → S.awaiting c' = false := fun c' he => by
      by_contra hne
      have ha' : S.awaiting c' = true := by simpa using hne
      have hle := hlast c' (Finset.mem_filter.mpr ⟨Finset.mem_univ c', ha'⟩)
      exact absurd (hlt c c' ha ha' he) (Nat.not_lt.mpr hle)
    obtain ⟨S₁, hrun, hvalid, haw⟩ := h.settle_one ha own
    have hfilter : Finset.univ.filter (S₁.awaiting · = true) =
        (Finset.univ.filter (S.awaiting · = true)).erase c := by
      ext c'
      rw [haw]
      by_cases he : c' = c <;> simp [he]
    obtain ⟨S', hrun', hvalid', hall⟩ := ih hvalid (Ordered.lower ⟨time, now, hnow, hlt⟩ c haw)
      (by rw [hfilter, Finset.card_erase_of_mem hc, hn, Nat.add_sub_cancel])
    exact ⟨S', hrun.trans hrun', hvalid', hall⟩

/-! ## The end -/

structure Settled (C : Connections Conn Loc) (ls ls' : List (Label Conn Loc Val)) (S' : State Conn Loc Val) :
    Prop where
  /-- Nobody has transferred anything meanwhile. -/
  sent : ∀ c, sent c (ls ++ ls') = sent c ls
  received : ∀ c, (received c (ls ++ ls')).length = (Transfers.sent c ls).length
  contents : ∀ c, C.size c ≠ 0 → Transfers.received c (ls ++ ls') = Transfers.sent c ls
  idle : ∀ c, S'.awaiting c = false ∧ S'.holding c = false
  empty : ∀ p, ¬ Waiting S' p

/-- **Whatever has been transferred can be received and acknowledged.** -/
theorem transfers_settle [Fintype Conn] {m : Loc → Val} (h : Trace (Step C) (.connected m) ls S) :
    ∃ ls' S', Trace (Step C) S ls' S' ∧ (∀ l ∈ ls', l.settles = true) ∧ Settled C ls ls' S' := by
  obtain ⟨hvalid, hordered⟩ := h.invariant (P := fun S => Valid C S ∧ Ordered C S)
    ⟨⟨[], exists_inv (.refl _)⟩, fun _ => 0, 1, fun _ => Nat.one_pos, fun _ _ hc => by cases hc⟩
    fun _ _ _ ⟨hv, ho⟩ hl => ⟨hv.step hl, ho.step hv hl⟩
  obtain ⟨S', hrun, -, hall⟩ := hvalid.settle_all hordered
  obtain ⟨ls', htrace, hsettles⟩ := trace_of_settles hrun
  obtain ⟨I, hI⟩ := exists_inv (h.append htrace)
  have hsent := fun c => sent_append_of_settles ls hsettles c
  have hlength : ∀ c, (received c (ls ++ ls')).length = (sent c ls).length := fun c => by
    rw [← hsent c]
    exact (hI.level_of_idle (hall c)).1
  refine ⟨ls', S', htrace, hsettles, hsent, hlength, fun c hc => ?_, fun c => ?_, ?_⟩
  · exact (hsent c ▸ hI.inOrder c hc).eq_of_length (hlength c)
  · exact ⟨hall c, (hI.level_of_idle (hall c)).2.2⟩
  · rintro (c | c)
    · exact (hI.toAcknowledged.idle c (hall c)).2.2
    · exact (hI.toAcknowledged.idle c (hall c)).1

/-- The relay has its value and has passed it on, and both sources wait. -/
theorem transfers_settle_relay :
    ∃ ls S ls' S', Trace (Step relay) (.connected fun _ => (0 : Nat)) ls S ∧ (∀ c, S.awaiting c = true) ∧
      Trace (Step relay) S ls' S' ∧ received true (ls ++ ls') = [7] ∧ Settled relay ls ls' S' := by
  have written : Trace (Step relay) (.connected fun _ => 0) _ _ :=
    Trace.single (@Step.write _ _ _ _ _ _ _ 0 7 ⟨by decide, by decide⟩)
  have arrived := (((written.snoc (@Step.initTransfer _ _ _ _ _ _ _ false rfl (by decide))).snoc
    (@Step.network _ _ _ _ _ _ _ (.target false) 0 _ rfl)).snoc
    (@Step.network _ _ _ _ _ _ _ (.target false) 0 _ rfl)).snoc
    (@Step.network _ _ _ _ _ _ _ (.target false) 0 _ rfl)
  have passed := (arrived.snoc (@Step.waitForCompletion _ _ _ _ _ _ _ false _ rfl rfl)).snoc
    (@Step.initTransfer _ _ _ _ _ _ _ true rfl (by decide))
  obtain ⟨ls', S', htrace, -, hsettled⟩ := transfers_settle passed
  exact ⟨_, _, ls', S', passed, by decide, htrace, hsettled.contents true (by decide), hsettled⟩

end

end GaspiCxx.SingleSided.Transfers
