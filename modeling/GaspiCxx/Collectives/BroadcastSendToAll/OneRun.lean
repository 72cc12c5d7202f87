import GaspiCxx.Collectives.BroadcastSendToAll.Isolation

/-!
# One run of the direct broadcast

In its first run the root has nobody to wait for, so every interleaving is one
of those the invariant is about. The counter of the root is compared with the
acknowledgements that the steps of the run have really taken from its slots.
-/

namespace GaspiCxx.Collectives.BroadcastSendToAll

open OneSided SingleSided

variable {n number_elements : Nat} {T : Type} (root : Fin n)
  (input : Fin n → Nat → Vec number_elements T)

/-- A step consumes the acknowledgement of rank `r`. -/
def TakesAck (r : Fin n) (s t : GroupSys number_elements n T) : Bool := Fabric.clears (.source r) s.fabric t.fabric

/-- What one run promises, if `acks r` acknowledgements of rank `r` have been consumed. -/
structure OneRun (s : GroupSys number_elements n T) (acks : Fin n → Nat) : Prop where
  waiting : Started 0 (s.node root) →
    (s.node root).fields.transfers_in_progress = (source_buffers root).countP fun r => acks r = 0
  /-- Wherever the loop is when it finds an acknowledgement, there is one to count down. -/
  no_underflow : (s.node root).state = .running → ∀ checked r rest, source_buffers root = checked ++ r :: rest →
    ∀ x, checked.foldl checkSource ((s.node root).fields.transfers_in_progress, s.fabric) = x →
    x.2.slot (.source r) = true → 0 < x.1
  arrived : Completed 0 (s.node root) → ∀ r, r ≠ root → Completed 0 (s.node r)
  result : ∀ r, (s.node r).state = .finished →
    copyOutImpl root r (s.node r).fields s.fabric = input root 0
  outputs : ∀ r out, out ∈ (s.node r).outputs → out = input root 0
  live : s.fabric.Delivered → (∃ r, Unfinished (s.node r)) →
    ∃ r, Unfinished (s.node r) ∧ (broadcast number_elements root T).Proceeds input s r

variable {root input} {s : GroupSys number_elements n T}
  {I : Channels (Port n) (Loc n) (Vec number_elements T)} {acks acks' : Fin n → Nat} {r : Fin n}
  {F : Net number_elements n T}

/-! ## The counter -/

theorem countP_source_buffers (acks : Fin n → Nat) (k : Nat) :
    (source_buffers root).countP (fun r => acks r = k) = (missing root acks k).card := by
  rw [List.countP_eq_length_filter, ← List.toFinset_card_of_nodup (nodup_source_buffers.filter _)]
  refine congrArg Finset.card (Finset.ext fun r => ?_)
  simp [missing, mem_source_buffers]

/-- The acknowledgement of rank `root` is nobody's. -/
theorem Holds.congr_acks (h : Holds root input s I acks) (he : ∀ r, r ≠ root → acks' r = acks r) :
    Holds root input s I acks' := by
  have htaken : ∀ p, taken root s acks' p = taken root s acks p := by
    intro p
    cases p with
    | target q => rfl
    | source q =>
      by_cases hq : q = root
      · simp only [taken, hq, if_true]
      · simp only [taken, hq, if_false]
        exact he q hq
  have hmissing : ∀ k, missing root acks' k = missing root acks k := by
    intro k
    ext q
    simp only [missing, Finset.mem_filter, Finset.mem_univ, true_and]
    exact and_congr_right fun hq => by rw [he q hq]
  refine ⟨h.tracks.recount (fun _ => rfl) htaken, ⟨fun q hq => ?_, fun q hq => ?_, fun hs => ?_⟩, h.own, h.received,
    h.ahead, h.outputs⟩
  · rw [he q hq]; exact h.counters.lower q hq
  · rw [he q hq]; exact h.counters.upper q hq
  · rw [hmissing]; exact h.counters.waiting hs

/-- A look at the slots counts down, and does so for every acknowledgement it finds. -/
theorem checkAll_le (l : List (Fin n)) (x : Nat × Net number_elements n T) : (l.foldl checkSource x).1 ≤ x.1 := by
  induction l generalizing x with
  | nil => exact Nat.le_refl _
  | cons i l ih =>
    refine (ih _).trans ?_
    unfold checkSource
    simp only
    split <;> omega

theorem checkAll_lt {l : List (Fin n)} {x : Nat × Net number_elements n T} (hr : r ∈ l)
    (hslot : x.2.slot (.source r) = true) (hpos : 0 < x.1) : (l.foldl checkSource x).1 < x.1 := by
  induction l generalizing x with
  | nil => cases hr
  | cons i l ih =>
    rw [List.foldl_cons]
    cases hi : x.2.slot (.source i) with
    | true =>
      refine (checkAll_le ..).trans_lt ?_
      rw [checkSource, checkForTransferAck_set hi]
      exact Nat.sub_lt hpos Nat.one_pos
    | false =>
      rw [checkSource, checkForTransferAck_clear hi]
      rcases List.mem_cons.mp hr with rfl | hr
      · rw [hi] at hslot; cases hslot
      · exact ih hr hslot hpos

theorem triggerProgressImpl_root (hn : 2 ≤ n) {f : Fields} : triggerProgressImpl root root f F =
    let x := (source_buffers root).foldl checkSource (f.transfers_in_progress, F)
    (x.1 == 0, { f with transfers_in_progress := x.1 }, x.2) := by
  rw [triggerProgressImpl, if_neg (by omega), if_pos rfl]

theorem triggerProgressImpl_target_set (hn : 2 ≤ n) (hr : r ≠ root) {f : Fields} (hs : F.slot (.target r) = true) :
    triggerProgressImpl root r f F =
      (true, f, ackTransfer (wiring number_elements n) (F.reset (.target r)) (.target r)) := by
  rw [triggerProgressImpl, if_neg (by omega), if_neg hr, checkForCompletion_set hs]
  rfl

/-- Once the root has completed its run nothing is left to wait for. -/
theorem done_of_completed {m : Loc n → Vec number_elements T} (hn : 2 ≤ n)
    (h : (broadcast number_elements root T).Reach input m FirstRun s) (hc : Completed 0 (s.node root)) :
    (s.node root).fields.transfers_in_progress = 0 := by
  refine h.forall_node (P := fun r N => r = root → Completed 0 N → N.fields.transfers_in_progress = 0)
    (fun r _ hc => ?_) (fun s r c N F hs hg hcall hr hc => ?_) root rfl hc
  · rcases hc with hc | ⟨-, hc⟩ <;> cases hc
  · have h0 : (s.node r).run = 0 := hg
    -- a call before the end of the run does not complete it
    have hnot : ∀ state fields, state ≠ .finished →
        ¬ Completed 0 ({ s.node r with state := state, fields := fields } : Node Fields (Vec number_elements T)) := by
      rintro state fields hne (hlt | ⟨-, he⟩)
      · exact absurd (show 0 < (s.node r).run from hlt) (by omega)
      · exact hne he
    cases c with
    | waitForSetup =>
      obtain ⟨-, rfl, -⟩ := Collective.call_waitForSetup hcall
      exact absurd hc (hnot _ (s.node r).fields nofun)
    | copyIn =>
      obtain ⟨-, -, rfl⟩ := Collective.call_copyIn hcall
      exact absurd hc (hnot _ _ nofun)
    | start =>
      obtain ⟨-, -, rfl⟩ := Collective.call_start hcall
      exact absurd hc (hnot _ _ nofun)
    | triggerProgress =>
      rcases Collective.call_triggerProgress hcall with ⟨-, rfl, -⟩ | ⟨-, done, f, ht, rfl⟩
      · exact hs hr hc
      · subst hr
        replace ht : triggerProgressImpl r r (s.node r).fields s.fabric = _ := ht
        rw [triggerProgressImpl_root hn] at ht
        cases ht
        by_contra hne
        refine hnot _ _ ?_ hc
        simp [hne]
    | copyOut =>
      obtain ⟨hfin, -, rfl⟩ := Collective.call_copyOut hcall
      exact hs hr (.inr ⟨h0.symm, hfin⟩)

/-! ## No rank waits for nothing -/

namespace Holds

/-- A rank that has not observed the data finds it, once the root has sent it. -/
theorem proceeds_other (h : Holds root input s I acks) (hn : 2 ≤ n) (hd : s.fabric.Delivered) (hr : r ≠ root)
    (hroot : Started (s.node r).run (s.node root)) (hs : (s.node r).state ≠ .finished) :
    (broadcast number_elements root T).Proceeds input s r := by
  by_cases hrun : (s.node r).state = .running
  · have hslot : s.fabric.slot (.target r) = true := by
      refine h.tracks.slot_of_lt ?_ (hd _)
      simp only [sent, taken, if_neg hr, started, completed, if_neg hs]
      rcases hroot with hlt | ⟨heq, hst⟩
      · omega
      · rw [if_pos hst]; omega
    exact Collective.proceeds_of_trigger hrun (triggerProgressImpl_target_set hn hr hslot) (.inl rfl)
  · exact Collective.proceeds_of_not_running hrun

/-- The root finds an acknowledgement, once every rank has sent it. -/
theorem proceeds_root (h : Holds root input s I acks) (hn : 2 ≤ n) (hd : s.fabric.Delivered)
    (hs : (s.node root).state = .running) (hall : ∀ r, r ≠ root → (s.node root).run < completed (s.node r)) :
    (broadcast number_elements root T).Proceeds input s root := by
  have hcard := h.counters.waiting hs
  apply Collective.proceeds_of_trigger hs (triggerProgressImpl_root hn)
  rcases Finset.eq_empty_or_nonempty (missing root acks (s.node root).run) with hnone | ⟨q, hq⟩
  · left
    rw [hnone, Finset.card_empty] at hcard
    have hle := checkAll_le (source_buffers root) ((s.node root).fields.transfers_in_progress, s.fabric)
    rw [hcard] at hle ⊢
    simpa using hle
  · right
    have hpos := Finset.card_pos.mpr ⟨q, hq⟩
    rw [← hcard] at hpos
    simp only [missing, Finset.mem_filter, Finset.mem_univ, true_and] at hq
    have hslot : s.fabric.slot (.source q) = true := by
      refine h.tracks.slot_of_lt ?_ (hd _)
      simp only [sent, taken, if_neg hq.1, hq.2]
      exact hall q hq.1
    have hlt := checkAll_lt (x := ((s.node root).fields.transfers_in_progress, s.fabric))
      (mem_source_buffers.mpr hq.1) hslot hpos
    exact fun he => absurd (congrArg Fields.transfers_in_progress he) (Nat.ne_of_lt hlt)

/-- Wherever the loop finds an acknowledgement, its rank is one of those that are counted. -/
theorem pos_of_slot (h : Holds root input s I acks) (hs : (s.node root).state = .running) {checked : List (Fin n)}
    (hchecked : ∀ q ∈ checked, q ≠ root) (hr : r ≠ root)
    (hslot : (checked.foldl checkSource ((s.node root).fields.transfers_in_progress, s.fabric)).2.slot
      (.source r) = true) :
    0 < (checked.foldl checkSource ((s.node root).fields.transfers_in_progress, s.fabric)).1 := by
  have hstarted : started (s.node root) = (s.node root).run + 1 := by simp [started, hs]
  have hsent : ∀ q, q ≠ root → completed (s.node q) ≤ (s.node root).run + 1 := fun q hq => by
    rw [← hstarted]
    exact h.completed_le hq
  obtain ⟨I', acks', -, ht, -, hle, hcard⟩ := check_all hchecked h.tracks
    (fun q hq => Nat.le_trans (by simp [completed]) (h.counters.lower q hq)) hsent (h.counters.waiting hs)
  have hlt := ht.lt_of_slot hslot
  simp only [sent, taken, if_neg hr] at hlt
  have hlow := (hle r hr).1
  have hup := hsent r hr
  have hmem : r ∈ missing root acks' (s.node root).run := by
    simp only [missing, Finset.mem_filter, Finset.mem_univ, true_and]
    exact ⟨hr, by omega⟩
  rw [hcard]
  exact Finset.card_pos.mpr ⟨r, hmem⟩

end Holds

/-! ## Result -/

variable {m : Loc n → Vec number_elements T}

theorem completed_pos_iff {N : Node Fields (Vec number_elements T)} : 0 < completed N ↔ Completed 0 N := by
  unfold completed Completed
  split
  · next h =>
    refine ⟨fun _ => ?_, fun _ => Nat.succ_pos _⟩
    rcases Nat.eq_zero_or_pos N.run with h0 | h0
    · exact .inr ⟨h0.symm, h⟩
    · exact .inl h0
  · next h => exact ⟨fun h0 => .inl h0, fun h0 => h0.resolve_right fun h1 => h h1.2⟩

theorem completed_or_unfinished (N : Node Fields (Vec number_elements T)) : Completed 0 N ∨ Unfinished N := by
  unfold Completed Unfinished
  by_cases hs : N.state = .finished
  · rcases Nat.eq_zero_or_pos N.run with h0 | h0
    · exact .inl (.inr ⟨h0.symm, hs⟩)
    · exact .inl (.inl h0)
  · rcases Nat.eq_zero_or_pos N.run with h0 | h0
    · exact .inr ⟨h0, hs⟩
    · exact .inl (.inl h0)

theorem not_completed {N : Node Fields (Vec number_elements T)} (h : Unfinished N) : ¬ Completed 0 N := by
  rintro (h0 | ⟨-, h0⟩)
  · exact absurd h.1 (Nat.ne_of_gt h0)
  · exact h.2 h0

/-- In the first run there is nobody to wait for. -/
theorem waitsForAll_of_first {a : Action (Fin n) (Port n)} (hg : FirstRun s a) : WaitsForAll root s a := by
  cases a with
  | advance p i => trivial
  | call r c =>
    cases c with
    | start =>
      rintro rfl q -
      rw [show (s.node r).run = 0 from hg]
      exact Nat.zero_le _
    | _ => trivial

theorem holds_of_counting (hn : 2 ≤ n)
    (h : ReachesCountingEach ((broadcast number_elements root T).step input) FirstRun TakesAck
      ((broadcast number_elements root T).initial m) acks s) : ∃ I, Holds root input s I acks := by
  refine h.invariant (P := fun s acks => ∃ I, Holds root input s I acks) ⟨_, Holds.initial m⟩ ?_
  rintro s a t acks ⟨I, hI⟩ hg ha
  obtain ⟨I', acks', hI', hacked⟩ := hI.next hn (waitsForAll_of_first hg) (Collective.stepped ha)
  exact ⟨I', hI'.congr_acks fun r hr => (hacked r hr).symm⟩

/-- **One run of the direct broadcast is correct under every interleaving.** -/
theorem broadcast_send_to_all_one_run (hn : 2 ≤ n)
    (h : ReachesCountingEach ((broadcast number_elements root T).step input) FirstRun TakesAck
      ((broadcast number_elements root T).initial m) acks s) : OneRun root input s acks := by
  have hreach : (broadcast number_elements root T).Reach input m FirstRun s := h.reaches
  obtain ⟨I, hI⟩ := holds_of_counting hn h
  have harrived : Completed 0 (s.node root) → ∀ r, r ≠ root → Completed 0 (s.node r) := fun hc r hr =>
    completed_pos_iff.mp ((completed_pos_iff.mpr hc).trans_le ((hI.counters.lower r hr).trans (hI.acks_le hr)))
  refine ⟨fun hstarted => ?_, fun hs checked r rest hsplit x hx hslot => ?_, harrived, fun r hs => ?_,
    fun r out hout => ?_, fun hd ⟨u, hu⟩ => ?_⟩
  · rw [countP_source_buffers]
    by_cases hc : Completed 0 (s.node root)
    · rw [done_of_completed hn hreach hc, eq_comm, Finset.card_eq_zero, Finset.eq_empty_iff_forall_notMem]
      intro r hr
      simp only [missing, Finset.mem_filter, Finset.mem_univ, true_and] at hr
      have hlow := hI.counters.lower r hr.1
      have hpos := completed_pos_iff.mpr hc
      omega
    · rcases hstarted with h0 | ⟨h0, hs | hs⟩
      · exact absurd (.inl h0) hc
      · rw [h0]
        exact hI.counters.waiting hs
      · exact absurd (.inr ⟨h0, hs⟩) hc
  · subst hx
    have hmem : ∀ q ∈ checked ++ r :: rest, q ≠ root := fun q hq => mem_source_buffers.mp (hsplit ▸ hq)
    exact hI.pos_of_slot hs (fun q hq => hmem q (List.mem_append_left _ hq)) (hmem r (by simp)) hslot
  · rw [hI.copyOutImpl_finished hs, hreach.run_of_finished hs]
  · exact hI.outputs r 0 out (hreach.getElem?_of_mem_outputs hout)
  · rcases completed_or_unfinished (s.node root) with hc | hroot
    · by_cases hur : u = root
      · exact absurd hc (not_completed (hur ▸ hu))
      · exact absurd (harrived hc u hur) (not_completed hu)
    by_cases hs : (s.node root).state = .running
    · by_cases hall : ∀ r, r ≠ root → Completed 0 (s.node r)
      · refine ⟨root, hroot, hI.proceeds_root hn hd hs fun r hr => ?_⟩
        rw [hroot.1]
        exact completed_pos_iff.mpr (hall r hr)
      · obtain ⟨r, hr⟩ := not_forall.mp hall
        obtain ⟨hr, hnot⟩ := Classical.not_imp.mp hr
        have hunf := (completed_or_unfinished (s.node r)).resolve_left hnot
        exact ⟨r, hunf, hI.proceeds_other hn hd hr (.inr ⟨hunf.1.trans hroot.1.symm, .inl hs⟩) hunf.2⟩
    · exact ⟨root, hroot, Collective.proceeds_of_not_running hs⟩

theorem broadcast_send_to_all_one_run_exchange : ∃ s acks, 2 ≤ 2 ∧
    ReachesCountingEach ((broadcast 1 (0 : Fin 2) Nat).step tag) FirstRun TakesAck
      ((broadcast 1 0 Nat).initial fun _ _ => 7) acks s ∧
    (∀ r, (s.node r).state = .finished) ∧ acks 1 = 1 ∧ OneRun 0 tag s acks := by
  obtain ⟨⟨s, acks⟩, hs, hfin, hacks⟩ : ∃ x : GroupSys 1 2 Nat × (Fin 2 → Nat),
      Reaches (countingEach ((broadcast 1 (0 : Fin 2) Nat).step tag) TakesAck) (fun x a => FirstRun x.1 a)
        ((broadcast 1 0 Nat).initial fun _ _ => 7, fun _ => 0) x ∧
      (∀ r, (x.1.node r).state = .finished) ∧ x.2 1 = 1 :=
    exists_reaches_of_exec (setup ++ exchange 0 1) (by decide)
  exact ⟨s, acks, by decide, hs, hfin, hacks, broadcast_send_to_all_one_run (by decide) hs⟩

end GaspiCxx.Collectives.BroadcastSendToAll
