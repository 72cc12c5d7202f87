import GaspiCxx.Collectives.BroadcastBasicLinear.Invariant

/-!
# Every careful step keeps the invariant
-/

namespace GaspiCxx.Collectives.BroadcastBasicLinear

open OneSided SingleSided GroupUtilities

variable {n number_elements : Nat} {T : Type} {root : Fin n}
  {input : Fin n → Nat → Vec number_elements T} {s : GroupSys number_elements n T}
  {I I' : Channels (Port n) (Fin n) (Vec number_elements T)} {r : Fin n} {F : Net number_elements n T}

namespace Holds

theorem network (h : Holds root input s I) {p : Port n} {i : Nat}
    (ha : s.fabric.advance (wiring number_elements n) p i = some F) :
    Holds root input { s with fabric := F } I :=
  ⟨h.tracks.advance ha, h.iteration, h.own, h.received, h.ahead, h.outputs⟩

/-- The iteration is another rank's. -/
theorem tick (h : Holds root input s I) (hs : (s.node r).state = .running)
    (hi : (s.node r).fields.iteration ≠ n) (hd : dist root r ≠ (s.node r).fields.iteration) :
    After root input s (Collective.setNode s r
      { s.node r with fields := { (s.node r).fields with iteration := (s.node r).fields.iteration + 1 } }
      s.fabric) := by
  have hit := h.iteration r hs
  refine h.set_same rfl (by simp [steps, hs]) (fun i hle hlt => ?_) rfl
    (fun _ => by simp only; omega) (fun _ => .inr (.inl hs))
  simp only [steps, hs] at hle hlt
  omega

/-- `last_iteration` is reached: the rank is done. -/
theorem exit (h : Holds root input s I) (hs : (s.node r).state = .running)
    (hi : (s.node r).fields.iteration = n) (hd : dist root r + 2 ≠ n) :
    After root input s (Collective.setNode s r { s.node r with state := .finished } s.fabric) := by
  refine h.set_same rfl (by simp [steps, hs, hi]) (fun i hle hlt => ?_) rfl (by simp) (fun _ => .inr (.inl hs))
  have := dist_lt root r
  simp only [steps, hs] at hle hlt
  exact ⟨by omega, fun _ => hd⟩

/-- `second_last` sees the acknowledgement. -/
theorem ack (h : Holds root input s I) (hn : 2 ≤ n) (hs : (s.node r).state = .running)
    (hi : (s.node r).fields.iteration = n) (hd : dist root r + 2 = n)
    (hset : s.fabric.slot (.source r) = true) :
    After root input s (Collective.setNode s r { s.node r with state := .finished }
      (s.fabric.reset (.source r))) := by
  have h0 : steps n (s.node r) = n := by simp [steps, hs, hi]
  have hmv : Schedule.Moves (progress s) (progress (Collective.setNode s r
      { s.node r with state := .finished } (s.fabric.reset (.source r)))) r n (n + 1) :=
    moves rfl h0 (by simp [steps]) (Nat.le_succ n)
  obtain ⟨v, -, -, ht⟩ := h.tracks.take hset
  have hmem : (I.take (wiring number_elements n) (.source r) v).mem = I.mem := by
    simp [Channels.take, wiring]
  have hu : (schedule number_elements root).used (.source r) = true := used_source.mpr hd
  have htaken := hmv.tally_step (w := (schedule number_elements root).owner)
    (k := (schedule number_elements root).takeAt) hu rfl rfl fun p hp hs ha => takeAt_inj hs ha
  refine ⟨⟨_, h.set (ht.recount (hmv.tally_same fun p hp _ hx => ?_) htaken) (by simp) (fun hr _ => ?_)
    (fun hpos _ => ?_) (fun _ _ => by rw [hmem]) (Nat.le_refl _) (fun hlt => ?_) (h.outputs r)⟩,
    (Calm.reset hset _).recount htaken⟩
  · cases p with
    | source q => simp only [schedule] at hx; omega
    | target q => have := dist_lt root q; simp only [schedule] at hx; omega
  · subst hr; rw [hmem]; exact h.own (.inr (.inl hs))
  · rw [hmem]; exact h.received r hpos (by omega)
  · have := h.ahead r hlt
    rw [Progress.passed_of_lt (by simp only [progressOf_steps]; omega)] at this
    rw [Progress.passed_of_lt (by simp only [steps]; omega)]
    exact this

/-- Rank `r` reads the data of its run. -/
theorem copyOutImpl_finished (h : Holds root input s I) (hs : (s.node r).state = .finished) :
    copyOutImpl root r (s.node r).fields s.fabric = input root (s.node r).run := by
  have hlt := dist_lt root r
  have hst : dist root r < steps n (s.node r) := by rw [steps_finished hs]; omega
  have hmem : s.fabric.mem r = I.mem r := h.tracks.mem_eq fun q hq hlt => h.apart (.inr hst) hq hlt
  unfold copyOutImpl
  split
  · next hr =>
    subst hr
    exact hmem.trans (h.own (.inr (.inr hs)))
  · next hr => exact hmem.trans (h.received r ((pos_iff root r).mpr hr) hst)

theorem copyOut (h : Holds root input s I) (hs : (s.node r).state = .finished) :
    After root input s (Collective.setNode s r
      { s.node r with
        state := .initialized
        outputs := (s.node r).outputs ++ [copyOutImpl root r (s.node r).fields s.fabric] }
      s.fabric) := by
  have hw : Schedule.Wraps (progress s) (progress (Collective.setNode s r
      { s.node r with
        state := .initialized
        outputs := (s.node r).outputs ++ [copyOutImpl root r (s.node r).fields s.fabric] }
      s.fabric)) r (n + 1) := wraps (by simp [Node.run]) (steps_finished hs) rfl
  have htaken := hw.tally (S := schedule number_elements root) (w := (schedule number_elements root).owner)
    (k := (schedule number_elements root).takeAt) fun p _ _ => by
      cases p with
      | source q => simp only [schedule]; omega
      | target q => have := dist_lt root q; simp only [schedule]; omega
  refine ⟨⟨I, h.set (h.tracks.recount (hw.tally fun p _ _ => ?_) htaken) (by simp) (fun _ => by simp [Active])
    (fun _ hst => by simp [steps] at hst) (fun _ _ => rfl) (by simp [Node.run]) (fun hlt => ?_)
    (fun k out hk => ?_)⟩, (Calm.refl ..).recount htaken⟩
  · cases p with
    | source q => simp only [schedule]; omega
    | target q => have := dist_lt root q; simp only [schedule]; omega
  · have := h.ahead r hlt
    rw [Progress.passed_of_lt (by rw [progressOf_steps, steps_finished hs]; omega)] at this
    rw [Progress.passed_of_le (by simp [steps])]
    simpa [Node.run] using this
  · rcases Node.getElem?_append_outputs hk with hk | ⟨rfl, rfl⟩
    · exact h.outputs r k out hk
    · exact h.copyOutImpl_finished hs

variable (hN : 0 < number_elements)
include hN

theorem copyIn (h : Holds root input s I) (hs : (s.node r).state = .initialized) {f : Fields}
    (hc : copyInImpl root r (input r (s.node r).run) (s.node r).fields s.fabric = (f, F))
    (hcare : Careful root s r .copyIn) :
    After root input s (Collective.setNode s r { s.node r with state := .ready, fields := f } F) := by
  have h0 : steps n (s.node r) = 0 := by simp [steps, hs]
  have hsame : ∀ G, progress (Collective.setNode s r { s.node r with state := .ready, fields := f } G) =
      progress s := fun _ => progressOf_same rfl (by rw [h0]; rfl)
  have hahead : dist root r + 1 < n →
      (⟨(s.node r).run, 0⟩ : Progress).passed (dist root r) ≤ (s.node (right r)).run + 1 := by
    intro hd
    have := h.ahead r hd
    rwa [Progress.passed_of_le (by simp [h0])] at this
  rw [copyInImpl, if_neg (by omega)] at hc
  split at hc
  · next hr =>
    subst hr
    cases hc
    have hw := h.tracks.write (l := r) (input r (s.node r).run)
      (fun q hq hlt => h.apart (.inl rfl) hq hlt)
      (fun q hq hf => by
        cases q with
        | source => simp [wiring] at hq
        | target q =>
          simp only [wiring, left_neighbour_eq]
          rintro rfl
          exact hf (by have := hcare rfl; rwa [right_left] at this))
    refine ⟨⟨I.write r (input r (s.node r).run), h.set (by rw [hsame]; exact hw) (by simp) (fun _ _ => ?_)
      (fun _ hst => by simp [steps] at hst) (fun q hq => by simp [Channels.write, hq]) (Nat.le_refl _)
      hahead (h.outputs r)⟩, by rw [hsame]; exact Calm.write ..⟩
    simp [Channels.write, Node.run]
  · next hr =>
    cases hc
    exact ⟨⟨I, h.set (by rw [hsame]; exact h.tracks) (by simp) (fun hr' => absurd hr' hr)
      (fun _ hst => by simp [steps] at hst) (fun _ _ => rfl) (Nat.le_refl _) hahead (h.outputs r)⟩,
      by rw [hsame]; exact Calm.refl ..⟩

variable (hn : 2 ≤ n)
include hn

theorem start (h : Holds root input s I) (hs : (s.node r).state = .ready) {f : Fields}
    (hc : startImpl root r (s.node r).fields s.fabric = (f, F)) (hcare : Careful root s r .start) :
    After root input s (Collective.setNode s r { s.node r with state := .running, fields := f } F) := by
  have h0 : steps n (s.node r) = 0 := by simp [steps, hs]
  rw [startImpl, if_neg (by omega)] at hc
  by_cases hr : r = root
  · subst hr
    simp only [if_true] at hc
    cases hc
    have hd0 := dist_self r
    have hnext : dist r (right r) = 1 := by rw [dist_next r (by omega), hd0]
    have hF : initTransfer (wiring number_elements n) s.fabric (.source r) =
        s.fabric.post (.target (right r)) := by simp [initTransfer, wiring]
    rw [hF]
    have ht := h.post_right hn rfl h.tracks rfl (by omega) (by omega) (hcare rfl)
      (fun q hq hlt => h.apart (.inl rfl) hq hlt) (h.own (.inl hs))
    have hmv : Schedule.Moves (progress s) (progress (Collective.setNode s r
        { s.node r with state := .running, fields := { (s.node r).fields with iteration := 0 + 1 } }
        (s.fabric.post (.target (right r))))) r 0 (0 + 1) := moves rfl h0 rfl (Nat.zero_le 1)
    have hu : (schedule number_elements r).used (.target (right r)) = true := used_target.mpr (by omega)
    have htaken := hmv.tally_same (S := schedule number_elements r) (w := (schedule number_elements r).owner)
      (k := (schedule number_elements r).takeAt) fun p hu _ hx => by
        cases p with
        | source q => simp only [schedule] at hx; omega
        | target q => have := used_target.mp hu; simp only [schedule] at hx; omega
    refine ⟨⟨_, h.set (ht.recount (hmv.tally_step hu (sender_target.trans (left_right r))
      (by simp only [schedule]; omega) fun p hp hs ha => postAt_inj hp hu hs ha) htaken) (fun _ => ?_) (fun _ _ => ?_)
      (fun hpos => absurd hpos (by omega)) (fun _ _ => rfl) (Nat.le_refl _) (fun hd => ?_) (h.outputs r)⟩, ?_⟩
    · exact ⟨Nat.le_refl 1, by simp only; omega⟩
    · exact h.own (.inl hs)
    · rw [hd0, Progress.passed_of_lt (by simp [steps])]
      exact Nat.add_le_add_right (hcare rfl).1 1
    · exact (Calm.post ..).recount htaken
  · simp only [if_neg hr] at hc
    cases hc
    have hpos := (pos_iff root r).mpr hr
    refine h.set_same rfl (by rw [h0]; exact Nat.zero_le _) (fun i hle hlt => ?_) rfl
      (fun _ => ⟨Nat.le_refl 1, by simp only; omega⟩) (fun _ => .inl hs)
    simp only [steps] at hlt
    omega

/-- The data arrives and is forwarded to the right, or acknowledged to the left. -/
theorem receive (h : Holds root input s I) (hs : (s.node r).state = .running)
    (hi : dist root r = (s.node r).fields.iteration) (hset : s.fabric.slot (.target r) = true)
    (hcare : Careful root s r .triggerProgress) {p₁ : Port n}
    (hp₁ : p₁ = if dist root r + 1 = n then .source (left r) else .target (right r)) :
    After root input s (Collective.setNode s r
      { s.node r with fields := { (s.node r).fields with iteration := (s.node r).fields.iteration + 1 } }
      ((s.fabric.reset (.target r)).post p₁)) := by
  have hlt := dist_lt root r
  have hpos : 0 < dist root r := by have := (h.iteration r hs).1; omega
  have h0 : steps n (s.node r) = dist root r := by simp [steps, hs, hi]
  obtain ⟨v, hv, hgood, ht⟩ := h.tracks.take hset
  have hsl := h.tracks.lt_of_slot hset
  have hval : v = input root (s.node r).run := by
    have := hgood (by simp [wiring, hN])
    rw [taken_target _ hpos, Progress.passed_of_le (g := progress s r) (by simp [h0])] at this
    exact this
  have hmem : (I.take (wiring number_elements n) (.target r) v).mem r = input root (s.node r).run := by
    simp [Channels.take, wiring, hN, hval]
  have hother : ∀ q, q ≠ r → (I.take (wiring number_elements n) (.target r) v).mem q = I.mem q := by
    intro q hq
    simp [Channels.take, wiring, hN, hq]
  have hmv : Schedule.Moves (progress s) (progress (Collective.setNode s r
      { s.node r with fields := { (s.node r).fields with iteration := (s.node r).fields.iteration + 1 } }
      ((s.fabric.reset (.target r)).post p₁))) r (dist root r) (dist root r + 1) :=
    moves rfl h0 (by simp [steps, hs, hi]) (Nat.le_succ _)
  have hu : (schedule number_elements root).used (.target r) = true := used_target.mpr hpos
  have htaken := hmv.tally_step (w := (schedule number_elements root).owner)
    (k := (schedule number_elements root).takeAt) hu rfl rfl fun p hp hs ha => takeAt_inj hs ha
  -- what is left once the operation is posted
  have key : ∀ {J}, (schedule number_elements root).used p₁ = true →
      (schedule number_elements root).sender p₁ = r → (schedule number_elements root).postAt p₁ = dist root r →
      Tracks (wiring number_elements n) (Good root input) ((s.fabric.reset (.target r)).post p₁) J
        (bump ((schedule number_elements root).sent (progress s)) p₁)
        (bump ((schedule number_elements root).taken (progress s)) (.target r)) →
      J.mem = (I.take (wiring number_elements n) (.target r) v).mem →
      After root input s (Collective.setNode s r
        { s.node r with fields := { (s.node r).fields with iteration := (s.node r).fields.iteration + 1 } }
        ((s.fabric.reset (.target r)).post p₁)) := by
    intro J hu₁ ho₁ ha₁ hT hJ
    refine ⟨⟨J, h.set (hT.recount (hmv.tally_step hu₁ ho₁ ha₁ fun p hp hs ha => postAt_inj hp hu₁ hs ha)
      htaken) (fun _ => ?_) (fun hr => ?_) (fun _ _ => by rw [hJ]; exact hmem)
      (fun q hq => by rw [hJ]; exact hother q hq) (Nat.le_refl _) (fun hd => ?_) (h.outputs r)⟩, ?_⟩
    · simp only; omega
    · exact absurd hr ((pos_iff root r).mp hpos)
    · rw [Progress.passed_of_lt (by simp [steps, hs, hi])]
      exact Nat.add_le_add_right (hcare ⟨hs, hi, hd, hset⟩).1 1
    · exact ((Calm.reset hset _).trans (Calm.post ..)).recount htaken
  by_cases hl : dist root r + 1 = n
  · -- the last rank acknowledges
    rw [if_pos hl] at hp₁
    subst hp₁
    have hprev := dist_prev root hpos
    have hd : dist root (left r) + 2 = n := by omega
    have hfree : (schedule number_elements root).sent (progress s) (.source (left r)) =
        (schedule number_elements root).taken (progress s) (.source (left r)) := by
      have h1 := h.ack_le hd
      have h2 := (progress s (left r)).passed_le (dist root r - 1)
      have h3 := (progress s (left r)).run_le_passed n
      rw [sent_target _ hpos, taken_target _ hpos, Progress.passed_of_le (g := progress s r) (by simp [h0])]
        at hsl
      rw [sent_source _ hd, taken_source _ hd]
      rw [right_left, Progress.passed_of_le (g := progress s r) (by simp [h0]; omega)] at h1 ⊢
      simp only [progressOf_run] at h1 h2 h3 hsl ⊢
      omega
    refine key (used_source.mpr hd) (sender_source.trans (right_left r)) (by simp only [schedule]; omega)
      (ht.post_bare rfl ?_) rfl
    rw [hfree, bump_apply, if_neg (by simp)]; rfl
  · rw [if_neg hl] at hp₁
    subst hp₁
    have hd : dist root r + 1 < n := by omega
    have hnext := dist_next root hd
    refine key (used_target.mpr (by omega)) (sender_target.trans (left_right r))
      (by simp only [schedule]; omega)
      (h.post_right hn rfl ht (by rw [bump_apply, if_neg (by simp [right_ne hn])]; rfl) hd (by omega)
        (hcare ⟨hs, hi, hd, hset⟩) (fun q hq hlt => ?_) hmem) rfl
    -- the data just taken is not on its way again
    cases q with
    | source => simp [wiring] at hq
    | target q =>
      intro hqr
      have hqr : q = r := hqr
      have := h.tracks.sent_le (.target r)
      rw [hqr, bump_apply, if_pos rfl] at hlt
      omega

theorem trigger (h : Holds root input s I) (hs : (s.node r).state = .running) {done : Bool} {f : Fields}
    (ht : triggerProgressImpl root r (s.node r).fields s.fabric = (done, f, F))
    (hcare : Careful root s r .triggerProgress) :
    After root input s (Collective.setNode s r
      { s.node r with state := if done then .finished else .running, fields := f } F) := by
  have hit := h.iteration r hs
  -- nothing has arrived: the call changes nothing
  have stay : After root input s (Collective.setNode s r
      { s.node r with state := .running, fields := (s.node r).fields } s.fabric) :=
    h.set_same rfl (by simp [steps, hs]) (fun i hle hlt => by simp only [steps, hs] at hle hlt; omega) rfl
      (fun _ => hit) (fun _ => .inr (.inl hs))
  by_cases hi : (s.node r).fields.iteration = n
  · by_cases hd : dist root r + 2 = n
    · rw [triggerProgressImpl_ack hN hn hi hd] at ht
      cases ht
      cases hslot : s.fabric.slot (.source r) with
      | true => exact h.ack hn hs hi hd hslot
      | false => rw [Fabric.reset_of_clear hslot]; exact stay
    · rw [triggerProgressImpl_exit hN hn hi hd] at ht
      cases ht
      exact h.exit hs hi hd
  · by_cases hd : dist root r = (s.node r).fields.iteration
    · cases hslot : s.fabric.slot (.target r) with
      | true =>
        rw [triggerProgressImpl_set hN hn hi hd hslot] at ht
        cases ht
        rw [if_neg (by simp), ← hs]
        exact h.receive hN hn hs hd hslot hcare rfl
      | false =>
        rw [triggerProgressImpl_clear hN hn hi hd hslot] at ht
        cases ht
        exact stay
    · rw [triggerProgressImpl_tick hN hn hi hd] at ht
      cases ht
      rw [if_neg (by simp), ← hs]
      exact h.tick hs hi hd

/-- **Every careful call keeps the invariant.** -/
theorem call (h : Holds root input s I) {c : Call} {t : GroupSys number_elements n T}
    (ha : (broadcast number_elements root T).Stepped input s (.call r c) t) (hcare : Careful root s r c) :
    After root input s t := by
  cases ha with
  | waitForSetup hs =>
    exact h.set_same rfl (by simp [steps, hs]) (fun i _ hlt => by simp [steps] at hlt) rfl (by simp)
      (by simp [Active])
  | copyIn hs hc => exact h.copyIn hN hs hc hcare
  | start hs hc => exact h.start hN hn hs hc hcare
  | trigger hs ht => exact h.trigger hN hn hs ht hcare
  | idle => exact ⟨⟨I, h⟩, Calm.refl ..⟩
  | copyOut hs => exact h.copyOut hs

end Holds

end GaspiCxx.Collectives.BroadcastBasicLinear
