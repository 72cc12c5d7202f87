import GaspiCxx.Collectives.BroadcastBasicLinear.OneRun

/-!
# Using the linear broadcast again

Only `second_last` waits for an acknowledgement. Any other rank reports
completion after counting its calls, possibly with its transfer still in
flight, and may post the next run's data over a buffer its right neighbour
still needs. `Patient` excludes the two: a rank leaves a run only when its
right neighbour is past the iteration in which it takes this run's data, and
posts only when its right neighbour has completed as many runs. Then any number
of runs is correct; that the transfers of a run are delivered when it is left
follows.
-/

namespace GaspiCxx.Collectives.BroadcastBasicLinear

open OneSided SingleSided GroupUtilities

variable {n number_elements : Nat} {T : Type} (root : Fin n)
  (input : Fin n → Nat → Vec number_elements T)

/-- The next `triggerProgress` of rank `r` returns true without a look at the network. -/
def Leaves (s : GroupSys number_elements n T) (r : Fin n) : Prop :=
  (s.node r).state = .running ∧ (s.node r).fields.iteration = n ∧ r.val ≠ second_last root

/-- The right neighbour has gone past the iteration in which it observes the data of
rank `r`'s current run, or has completed that run. -/
def Observed (s : GroupSys number_elements n T) (r : Fin n) : Prop :=
  (s.node r).run < (s.node (right r)).run ∨
    (s.node (right r)).run = (s.node r).run ∧ ((s.node (right r)).state = .finished ∨
      (s.node (right r)).state = .running ∧ dist root (right r) < (s.node (right r)).fields.iteration)

/-- The call waits for the right neighbour where the code does not. -/
def Waits (s : GroupSys number_elements n T) : Action (Fin n) (Port n) → Prop
  | .call r .start => r = root → (s.node r).run ≤ (s.node (right r)).run
  | .call r .triggerProgress =>
    (Forwards root s r → (s.node r).run ≤ (s.node (right r)).run) ∧
      (Leaves root s r → r.val ≠ last root → Observed root s r)
  | _ => True

/-- Without elements there is nothing to wait for. -/
def Patient (s : GroupSys number_elements n T) (a : Action (Fin n) (Port n)) : Prop :=
  number_elements = 0 ∨ Waits root s a

/-- What consecutive runs promise. -/
structure Reusable (s : GroupSys number_elements n T) : Prop where
  /-- Outside a run no transfer reads the rank's buffer. -/
  delivered : ∀ r, (s.node r).state ≠ .running → ∀ p, (wiring number_elements n).carries p = true →
    (schedule number_elements root).sender p = r → s.fabric.flight p = []
  no_overrun : ∀ p, ¬ s.fabric.Overrun p
  outputs : ∀ r k out, (s.node r).outputs[k]? = some out → out = input root k
  live : ∀ k, (∀ r, Started k (s.node r)) → (∃ r, ¬ Completed k (s.node r)) → s.fabric.Delivered →
    ∃ r, (s.node r).state = .running ∧ Patient root s (.call r .triggerProgress) ∧
      (broadcast number_elements root T).Proceeds input s r

/-- A rank whose transfer is in flight is in the run that posted it. -/
def Settled (s : GroupSys number_elements n T) : Prop :=
  ∀ r, dist root r + 1 < n → s.fabric.flight (.target (right r)) ≠ [] →
    (s.node r).state = .running ∧ dist root r < (s.node r).fields.iteration

variable {root input} {s t : GroupSys number_elements n T}
  {I : Channels (Port n) (Fin n) (Vec number_elements T)} {r : Fin n} {f : Fields}
  {F : Net number_elements n T}

/-! ## Who posts to a target buffer -/

theorem copyInImpl_flight (inputs : Vec number_elements T) :
    (copyInImpl root r inputs f F).2.flight = F.flight := by
  unfold copyInImpl
  split
  · rfl
  · split <;> rfl

theorem startImpl_flight {q : Fin n} (h : q ≠ right r ∨ r ≠ root) :
    (startImpl root r f F).2.flight (.target q) = F.flight (.target q) := by
  unfold startImpl
  split
  · rfl
  · rcases h with h | h
    · split
      · simp [initTransfer, wiring, Fabric.post_flight, h]
      · rfl
    · simp only [if_neg h]

/-- A call posts to the right neighbour's target buffer, when its own iteration has come. -/
theorem triggerProgressImpl_flight (hN : 0 < number_elements) (hn : 2 ≤ n) {q : Fin n}
    (h : q ≠ right r ∨ dist root r ≠ f.iteration ∨ f.iteration = n) :
    (triggerProgressImpl root r f F).2.2.flight (.target q) = F.flight (.target q) := by
  by_cases hi : f.iteration = n
  · by_cases hd : dist root r + 2 = n
    · rw [triggerProgressImpl_ack hN hn hi hd]
      rfl
    · rw [triggerProgressImpl_exit hN hn hi hd]
  · by_cases hd : dist root r = f.iteration
    · cases hslot : F.slot (.target r) with
      | false => rw [triggerProgressImpl_clear hN hn hi hd hslot]
      | true =>
        rw [triggerProgressImpl_set hN hn hi hd hslot]
        split
        · simp [Fabric.post_flight]
        · have hq : q ≠ right r := by
            rcases h with h | h | h
            · exact h
            · exact absurd hd h
            · exact absurd h hi
          simp [Fabric.post_flight, hq]
    · rw [triggerProgressImpl_tick hN hn hi hd]

/-! ## Patience is careful -/

namespace Holds

theorem clear_of_settled (h : Holds root input s I) (hset : Settled root s) (hd : dist root r + 1 < n)
    (hst : steps n (s.node r) ≤ dist root r) (hrun : (s.node r).run ≤ (s.node (right r)).run) :
    Clear s r := by
  refine ⟨hrun, ?_⟩
  by_contra hf
  obtain ⟨hd', -, hle⟩ := h.flight_right hd hst hf
  -- the right neighbour has forwarded its data of this run, which it was never sent
  obtain ⟨hs, hi⟩ := hset (right r) hd' hf
  rw [dist_next root hd] at hi
  rw [Progress.passed_of_lt (by simpa [steps, hs] using hi), progressOf_run] at hle
  omega

theorem careful_of_waits (h : Holds root input s I) (hset : Settled root s) (hn : 2 ≤ n) {c : Call}
    (ha : (broadcast number_elements root T).Stepped input s (.call r c) t)
    (hp : Waits root s (.call r c)) : Careful root s r c := by
  have hroot := dist_self root
  cases ha with
  | copyIn hs hc =>
    rintro rfl
    by_contra hf
    have := (hset r (by omega) hf).1
    rw [hs] at this
    cases this
  | start hs hc =>
    rintro rfl
    exact h.clear_of_settled hset (by omega) (by simp [steps, hs]) (hp rfl)
  | trigger hs hc =>
    rintro ⟨hs, hi, hd, hslot⟩
    exact h.clear_of_settled hset hd (by simp [steps, hs, hi]) (hp.1 ⟨hs, hi, hd, hslot⟩)
  | idle hs => exact fun hw => absurd hw.1 hs
  | waitForSetup | copyOut => trivial

/-- `second_last` has seen its transfer arrive. -/
theorem acknowledged (h : Holds root input s I) (hn : 2 ≤ n) (hd : dist root r + 2 = n)
    (hs : (s.node r).state = .finished) : s.fabric.flight (.target (right r)) = [] := by
  have hnext := dist_next root (r := r) (by omega)
  have hack := h.ack_le hd
  have hle := (progress s r).passed_le (dist root r)
  rw [Progress.passed_of_lt (g := progress s r) (by rw [progressOf_steps, steps_finished hs]; omega)] at hack
  refine (h.tracks.idle (Nat.le_antisymm ?_ (h.tracks.taken_le _))).1
  rw [sent_target _ (by omega), taken_target _ (by omega), left_right, hnext, Nat.add_sub_cancel,
    show dist root r + 1 = n - 1 by omega]
  omega

/-- What the right neighbour has observed is delivered. -/
theorem delivered_of_observed (h : Holds root input s I) (hd : dist root r + 1 < n)
    (hobs : Observed root s r) : s.fabric.flight (.target (right r)) = [] := by
  have hnext := dist_next root hd
  have hpassed : (s.node r).run + 1 ≤ (progress s (right r)).passed (dist root (right r)) := by
    rcases hobs with hrun | ⟨hrun, hs⟩
    · exact Nat.le_trans hrun ((progress s (right r)).run_le_passed _)
    · have hsteps : dist root (right r) < (progress s (right r)).steps := by
        rcases hs with hs | ⟨hs, hi⟩
        · rw [progressOf_steps, steps_finished hs]; omega
        · simpa [steps, hs] using hi
      rw [Progress.passed_of_lt hsteps, progressOf_run, hrun]
  have hsent := (progress s r).passed_le (dist root r)
  rw [progressOf_run] at hsent
  refine (h.tracks.idle (Nat.le_antisymm ?_ (h.tracks.taken_le _))).1
  rw [sent_target _ (by omega), taken_target _ (by omega), left_right, hnext, Nat.add_sub_cancel, ← hnext]
  exact Nat.le_trans hsent hpassed

end Holds

/-- The right neighbour of a rank that is behind all others is past its data. -/
theorem observed_of_behind (hb : (progress s r).Behind (progress s (right r)))
    (hl : Leaves root s r) : Observed root s r := by
  obtain ⟨hs, hi, -⟩ := hl
  have hlt := dist_lt root (right r)
  rcases hb with hrun | ⟨hrun, hsteps⟩
  · exact .inl hrun
  · refine .inr ⟨hrun.symm, ?_⟩
    have hr : steps n (s.node r) = n := by simp [steps, hs, hi]
    rw [progressOf_steps, progressOf_steps, hr] at hsteps
    cases hq : (s.node (right r)).state with
    | finished => exact .inl rfl
    | running =>
      simp only [steps, hq] at hsteps
      exact .inr ⟨rfl, by omega⟩
    | uninitialized | initialized | ready =>
      simp only [steps, hq] at hsteps
      omega

/-! ## Patience keeps transfers inside their run -/

namespace Settled

/-- A call of rank `r` that posts nothing to its right neighbour's target buffer. -/
theorem set (h : Settled root s) {N : Node Fields (Vec number_elements T)}
    (hother : ∀ q, q ≠ r → F.flight (.target (right q)) = s.fabric.flight (.target (right q)))
    (hself : dist root r + 1 < n → F.flight (.target (right r)) ≠ [] →
      N.state = .running ∧ dist root r < N.fields.iteration) :
    Settled root (Collective.setNode s r N F) := by
  intro q hd hf
  by_cases hq : q = r
  · subst hq; rw [Collective.setNode_self]; exact hself hd hf
  · rw [Collective.setNode_of_ne s hq]
    exact h q hd (by rwa [hother q hq] at hf)

theorem empty (h : Settled root s) (hd : dist root r + 1 < n) (hs : (s.node r).state ≠ .running) :
    s.fabric.flight (.target (right r)) = [] := by
  by_contra hf
  exact hs (h r hd hf).1

theorem initial (m : Fin n → Vec number_elements T) :
    Settled root ((broadcast number_elements root T).initial m) := fun _ _ hf => absurd rfl hf

/-- A rank that leaves its run has nothing on its way to its right neighbour. -/
theorem trigger (h : Settled root s) (hI : Holds root input s I) (hN : 0 < number_elements) (hn : 2 ≤ n)
    {done : Bool} (hs : (s.node r).state = .running)
    (hc : (broadcast number_elements root T).triggerProgressImpl r (s.node r).fields s.fabric = (done, f, F))
    (hp : Waits root s (.call r .triggerProgress)) {I' : Channels (Port n) (Fin n) (Vec number_elements T)}
    (hI' : Holds root input (Collective.setNode s r
      { s.node r with state := if done then .finished else .running, fields := f } F) I') :
    Settled root (Collective.setNode s r
      { s.node r with state := if done then .finished else .running, fields := f } F) := by
  have hc : triggerProgressImpl root r (s.node r).fields s.fabric = (done, f, F) := hc
  have hF : ∀ {q}, q ≠ right r ∨ dist root r ≠ (s.node r).fields.iteration ∨
      (s.node r).fields.iteration = n → F.flight (.target q) = s.fabric.flight (.target q) := by
    intro q hq
    have hflight := triggerProgressImpl_flight (F := s.fabric) hN hn hq
    rwa [hc] at hflight
  refine h.set (fun q hq => hF (.inl fun he => hq (right_inj he))) fun hd hf => ?_
  have hit := hI.iteration r hs
  by_cases hi : (s.node r).fields.iteration = n
  · -- the rank leaves, or `second_last` still waits
    rw [hF (.inr (.inr hi))] at hf
    obtain ⟨-, hlt⟩ := h r hd hf
    by_cases hd2 : dist root r + 2 = n
    · rw [triggerProgressImpl_ack hN hn hi hd2] at hc
      cases hc
      cases hslot : s.fabric.slot (.source r) with
      | false => exact ⟨rfl, hlt⟩
      | true =>
        refine absurd (hI'.acknowledged hn hd2 ?_) hf
        rw [Collective.setNode_self, hslot]
        rfl
    · have hleaves : Leaves root s r := ⟨hs, hi, mt (eq_second_last_iff root hn r).mp hd2⟩
      have hlast : r.val ≠ last root := mt (eq_last_iff root r).mp (by omega)
      exact absurd (hI.delivered_of_observed hd (hp.2 hleaves hlast)) hf
  · by_cases hd1 : dist root r = (s.node r).fields.iteration
    · cases hslot : s.fabric.slot (.target r) with
      | true =>
        rw [triggerProgressImpl_set hN hn hi hd1 hslot] at hc
        cases hc
        exact ⟨rfl, by simp only; omega⟩
      | false =>
        rw [triggerProgressImpl_clear hN hn hi hd1 hslot] at hc
        cases hc
        exact ⟨rfl, (h r hd hf).2⟩
    · rw [triggerProgressImpl_tick hN hn hi hd1] at hc
      cases hc
      exact ⟨rfl, Nat.lt_succ_of_lt (h r hd hf).2⟩

theorem next (h : Settled root s) (hI : Holds root input s I) (hN : 0 < number_elements) (hn : 2 ≤ n)
    {a : Action (Fin n) (Port n)} (ha : (broadcast number_elements root T).Stepped input s a t)
    (hp : Waits root s a) {I' : Channels (Port n) (Fin n) (Vec number_elements T)}
    (hI' : Holds root input t I') : Settled root t := by
  cases ha with
  | waitForSetup hs =>
    exact h.set (fun _ _ => rfl) fun hd hf => absurd (h.empty hd (by simp [hs])) hf
  | copyOut hs =>
    exact h.set (fun _ _ => rfl) fun hd hf => absurd (h.empty hd (by simp [hs])) hf
  | @copyIn q f G hs hc =>
    have hG : G.flight = s.fabric.flight := by
      have hm : (copyInImpl root q (input q (s.node q).run) (s.node q).fields s.fabric).2.flight =
          s.fabric.flight := copyInImpl_flight _
      rwa [show copyInImpl root q (input q (s.node q).run) (s.node q).fields s.fabric = _ from hc] at hm
    exact h.set (fun _ _ => by rw [hG]) fun hd hf => absurd (h.empty hd (by simp [hs])) (hG ▸ hf)
  | @start q f G hs hc =>
    have hG : ∀ {q'}, q' ≠ right q ∨ q ≠ root → G.flight (.target q') = s.fabric.flight (.target q') := by
      intro q' hq
      have := startImpl_flight (f := (s.node q).fields) (F := s.fabric) hq
      rwa [show startImpl root q (s.node q).fields s.fabric = _ from hc] at this
    refine h.set (fun q' hq => hG (.inl fun he => hq (right_inj he))) fun hd hf => ⟨rfl, ?_⟩
    by_cases hq : q = root
    · subst hq
      rw [show (broadcast number_elements q T).startImpl = startImpl q from rfl, startImpl, if_neg (by omega)]
        at hc
      cases hc
      simp [dist_self]
    · exact absurd (h.empty hd (by simp [hs])) (by rwa [hG (.inr hq)] at hf)
  | trigger hs hc => exact h.trigger hI hN hn hs hc hp hI'
  | idle => exact h
  | network hG => exact fun q hd hf => h q hd (Fabric.flight_of_advance hG hf)

end Settled

/-- **The invariant holds in every patient run.** -/
theorem holds_of_patient {m : Fin n → Vec number_elements T} (hN : 0 < number_elements) (hn : 2 ≤ n)
    (h : (broadcast number_elements root T).Reach input m (Patient root) s) :
    (∃ I, Holds root input s I) ∧ Settled root s := by
  refine Collective.Reach.invariant (P := fun s => (∃ I, Holds root input s I) ∧ Settled root s)
    ⟨⟨_, Holds.initial m⟩, Settled.initial m⟩ ?_ h
  rintro s a t ⟨⟨I, hI⟩, hset⟩ hp ha
  have hp : Waits root s a := hp.resolve_left (by omega)
  have hI' : ∃ I', Holds root input t I' := by
    cases a with
    | call r c => exact (hI.call hN hn ha (hI.careful_of_waits hset hn ha hp)).1
    | advance p i => cases ha with | network hG => exact ⟨I, hI.network hG⟩
  obtain ⟨I', hI'⟩ := hI'
  exact ⟨⟨I', hI'⟩, hset.next hI hN hn ha hp hI'⟩

/-! ## Nothing to broadcast -/

/-- Without elements nothing is communicated, and every call completes its run. -/
theorem reusable_of_empty {m : Fin n → Vec 0 T} {s : GroupSys 0 n T} {input : Fin n → Nat → Vec 0 T}
    {guard : GroupSys 0 n T → Action (Fin n) (Port n) → Prop} (h : (broadcast 0 root T).Reach input m guard s) :
    Reusable root input s := by
  have hquiet : s.fabric = Fabric.quiet m :=
    h.quiet (fun _ _ _ _ => rfl) (fun _ _ _ => by simp [broadcast, startImpl])
      fun _ _ _ => by simp [broadcast, triggerProgressImpl]
  have hflight : ∀ p, s.fabric.flight p = [] := fun p => by rw [hquiet]; rfl
  refine ⟨fun r _ p _ _ => hflight p, fun p hp => hp.2 (hflight p), fun r k out _ => Subsingleton.elim _ _,
    fun k hstart hno _ => ?_⟩
  obtain ⟨r, hr⟩ := hno
  obtain hlt | ⟨hk, hs⟩ := hstart r
  · exact absurd (.inl hlt) hr
  · have hs : (s.node r).state = .running := hs.resolve_right fun hs => hr (.inr ⟨hk, hs⟩)
    have ht : (broadcast 0 root T).triggerProgressImpl r (s.node r).fields s.fabric =
        (true, (s.node r).fields, s.fabric) := by simp [broadcast, triggerProgressImpl]
    exact ⟨r, hs, .inl rfl, Collective.proceeds_of_trigger hs ht (.inl rfl)⟩

/-! ## Three ranks, root 1 -/

section

instance (s : GroupSys number_elements n T) (r : Fin n) : Decidable (Forwards root s r) := by
  unfold Forwards; infer_instance

instance (s : GroupSys number_elements n T) (r : Fin n) : Decidable (Leaves root s r) := by
  unfold Leaves; infer_instance

instance (s : GroupSys number_elements n T) (r : Fin n) : Decidable (Observed root s r) := by
  unfold Observed; infer_instance

instance (s : GroupSys number_elements n T) : DecidablePred (Waits root s)
  | .call r .start => inferInstanceAs (Decidable (r = root → (s.node r).run ≤ (s.node (right r)).run))
  | .call r .triggerProgress =>
    inferInstanceAs (Decidable ((Forwards root s r → _) ∧ (Leaves root s r → _ → Observed root s r)))
  | .call _ .waitForSetup | .call _ .copyIn | .call _ .copyOut | .advance _ _ =>
    inferInstanceAs (Decidable True)

instance (s : GroupSys number_elements n T) : DecidablePred (Patient root s) :=
  fun _ => inferInstanceAs (Decidable (_ ∨ _))

/-- All ranks copy out. -/
def collect : List (Action (Fin 3) (Port 3)) := (List.finRange 3).map fun r => .call r .copyOut

end

/-! ## Results -/

variable {m : Fin n → Vec number_elements T}

/-- The root completes its run while its transfer is still posted, and copies in the
next one: rank 2's output of run 0 is the root's input of run 1. -/
theorem broadcast_basic_linear_overtaken : ¬ ∀ s : GroupSys 1 3 Nat,
    (broadcast 1 1 Nat).Reach tag (fun _ _ => 7) (fun _ _ => True) s → Reusable 1 tag s := by
  intro h
  obtain ⟨s, hs, hout⟩ : ∃ s, (broadcast 1 (1 : Fin 3) Nat).Reach tag (fun _ _ => 7) (fun _ _ => True) s ∧
      (s.node 2).outputs[0]? = some (tag 1 1) :=
    exists_reaches_of_exec (setup ++ enter 1 ++ triggers 1 3 ++ [.call 1 .copyOut, .call 1 .copyIn] ++
      enter 2 ++ enter 0 ++ deliver 2 ++ triggers 2 2 ++ deliver 0 ++ triggers 0 3 ++
      [.advance (.source 2) 0] ++ triggers 2 1 ++ [.call 2 .copyOut]) (by decide)
  have hrun : tag 1 1 = tag 1 0 := (h s hs).outputs 2 0 _ hout
  exact absurd hrun (by decide)

/-- **Any number of runs of the linear broadcast is correct if every rank is
patient.** -/
theorem broadcast_basic_linear_reusable (hn : 2 ≤ n)
    (h : (broadcast number_elements root T).Reach input m (Patient root) s) : Reusable root input s := by
  rcases Nat.eq_zero_or_pos number_elements with rfl | hN
  · exact reusable_of_empty h
  obtain ⟨⟨I, hI⟩, hset⟩ := holds_of_patient hN hn h
  refine ⟨fun r hs p hc hp => ?_, hI.tracks.sim.no_overrun, hI.outputs, fun k hstart hno hd => ?_⟩
  · cases p with
    | source q => simp [wiring] at hc
    | target q =>
      rw [sender_target] at hp
      obtain rfl : q = right r := by rw [← hp, right_left]
      by_cases hd : dist root r + 1 < n
      · exact hset.empty hd hs
      · by_contra hf
        have hpos := used_target.mp (Schedule.used_of_lt (hI.tracks.lt_of_flight hf))
        have := dist_lt root r
        rw [dist_right, if_pos (by omega)] at hpos
        cases hpos
  · obtain ⟨r, hs, hr⟩ := exists_behind_running (fun _ => steps n) hstart hno
      (fun r hs => steps_finished hs) (fun r hs => hI.steps_lt hs)
    refine ⟨r, hs, .inr ⟨fun _ => ?_, fun hl _ => observed_of_behind (hr (right r)) hl⟩,
      hI.proceeds hN hn hd hr⟩
    rcases hr (right r) with hb | ⟨hb, -⟩
    · exact Nat.le_of_lt hb
    · exact Nat.le_of_eq hb

theorem broadcast_basic_linear_reusable_chain :
    ∃ s, (broadcast 1 1 Nat).Reach tag (fun _ _ => 7) (Patient 1) s ∧ (∀ r, (s.node r).run = 2) ∧
      Reusable 1 tag s := by
  obtain ⟨s, hs, hrun⟩ : ∃ s, (broadcast 1 (1 : Fin 3) Nat).Reach tag (fun _ _ => 7) (Patient 1) s ∧
      ∀ r, (s.node r).run = 2 :=
    exists_reaches_of_exec (setup ++ chain 1 2 0 ++ collect ++ chain 1 2 0 ++ collect) (by decide)
  exact ⟨s, hs, hrun, broadcast_basic_linear_reusable (by decide) hs⟩

end GaspiCxx.Collectives.BroadcastBasicLinear
