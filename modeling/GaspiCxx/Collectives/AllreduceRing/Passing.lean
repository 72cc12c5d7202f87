import GaspiCxx.Collectives.AllreduceRing.Preserved

/-!
# Passing a chunk on keeps the invariant

A step of `triggerProgress` takes one chunk and posts one operation. What is
left of it once the communication is accounted for is the same for both stages
(`Holds.pass`).
-/

namespace GaspiCxx.Collectives.AllreduceRing

open OneSided SingleSided GroupUtilities AllreduceCommon

variable {n number_elements : Nat} {T : Type} {f : T → T → T} {input : Fin n → Nat → Nat → T}
  {s : GroupSys n number_elements T} {I I' : Channels (Port n) (Loc n) (Chunk n number_elements T)}
  {r j : Fin n} {F : Net n number_elements T}

/-- The object of a rank that goes on to the next step. -/
abbrev advanced (N : Node (Fields n T) (Nat → Option T)) : Node (Fields n T) (Nat → Option T) :=
  { N with fields := { N.fields with
      current_step := N.fields.current_step + 1, current_index := left N.fields.current_index } }

namespace Holds

/-- What is left to show once a chunk `j` is taken and one operation is posted:
rank `r`'s chunk `j` now holds the right thing. -/
theorem pass (h : Holds f input s I) (hs : (s.node r).state = .running)
    (hlt : (s.node r).fields.current_step < 2 * (n - 1)) {p₀ p₁ : Port n}
    (hj : (s.node r).fields.current_index = j)
    (hu₀ : (schedule n).used p₀ = true) (ho₀ : (schedule n).owner p₀ = r)
    (ht₀ : (schedule n).takeAt p₀ = (s.node r).fields.current_step + 1)
    (hu₁ : (schedule n).used p₁ = true) (ho₁ : (schedule n).sender p₁ = r)
    (ht₁ : (schedule n).postAt p₁ = (s.node r).fields.current_step + 1)
    (ht : Tracks (wiring n) (Good f input) F I' (bump ((schedule n).sent (progress n s)) p₁)
      (bump ((schedule n).taken (progress n s)) p₀))
    (hcont : Contents f input (s.node r).run ((s.node r).fields.current_step + 2) r j (I'.mem (.chunk r j)))
    (hmem : ∀ q i, (q ≠ r ∨ i ≠ j) → I'.mem (.chunk q i) = I.mem (.chunk q i)) :
    Holds f input (Collective.setNode s r (advanced (s.node r)) F) I' := by
  have hn : 2 ≤ n := by omega
  have h0 : steps n (s.node r) = (s.node r).fields.current_step + 1 := by simp [steps, hs]
  have hmv : Schedule.Moves (progress n s) (progress n (Collective.setNode s r (advanced (s.node r)) F)) r
      ((s.node r).fields.current_step + 1) ((s.node r).fields.current_step + 2) :=
    moves rfl h0 (by simp [steps, hs]) (by omega)
  have hd := h.index r hs
  rw [hj] at hd
  refine h.set (ht.recount (hmv.tally_step hu₁ ho₁ ht₁ fun p hu ho hp => postAt_inj hn hu hu₁ ho hp)
    (hmv.tally_step hu₀ ho₀ ht₀ fun p hu ho hp => takeAt_inj hn hu hu₀ ho hp)) (fun _ => ⟨?_, ?_⟩)
    (fun _ i => ?_) (fun q i hq => hmem q i (.inl hq)) (h.outputs r)
  · simp only; omega
  · simp only [dist_left, hj, hd]
    split <;> split <;> split <;> omega
  · have hsteps : steps n (advanced (s.node r)) = (s.node r).fields.current_step + 2 := by simp [steps, hs]
    rw [hsteps]
    by_cases hij : i = j
    · subst hij; exact hcont
    · rw [hmem r i (.inr hij)]
      have hc := h.contents r i (.inr (.inl hs))
      have hne : dist i r ≠ dist j r := fun he => hij (dist_inj he)
      have := dist_lt i r
      rw [h0] at hc
      refine hc.step ?_ ?_ <;> split at hd <;> omega

variable (hN : 0 < number_elements) (hn : 2 ≤ n)
include hn

/-- A partial result arrives: rank `r` adds its own contribution and sends it on. -/
theorem reduce (h : Holds f input s I) (hs : (s.node r).state = .running)
    (hi : (s.node r).fields.current_step + 1 < n)
    (hset : s.fabric.slot (.target_reduce r (s.node r).fields.current_index) = true)
    {p₁ : Port n} (hp₁ : p₁ = if (s.node r).fields.current_step + 2 = n
      then .target_gather (right r) (s.node r).fields.current_index
      else .target_reduce (right r) (s.node r).fields.current_index) :
    ∃ I', Holds f input (Collective.setNode s r (advanced (s.node r))
      (Fabric.post (apply_reduce_op f (wiring n)
        (s.fabric.reset (.target_reduce r (s.node r).fields.current_index))
        (.source_reduce r (s.node r).fields.current_index)
        (.target_reduce r (s.node r).fields.current_index)) p₁)) I' := by
  obtain ⟨j, hj⟩ : ∃ j, (s.node r).fields.current_index = j := ⟨_, rfl⟩
  obtain ⟨i, hc⟩ : ∃ i, (s.node r).fields.current_step = i := ⟨_, rfl⟩
  have hd := h.index r hs
  rw [hj, hc] at hd
  rw [if_pos (by omega)] at hd
  rw [hc] at hi
  rw [hj] at hset
  rw [hj, hc] at hp₁
  rw [hj]
  have h0 : steps n (s.node r) = i + 1 := by simp [steps, hs, hc]
  have hst : steps n (s.node r) ≤ dist j r := by omega
  obtain ⟨v, hv, hgood, ht⟩ := h.tracks.take hset
  have hlt := h.tracks.lt_of_slot hset
  have hflight : s.fabric.flight (.target_reduce r j) = [] := by
    obtain ⟨-, -, hf, -⟩ := h.tracks.sim.msg_of_slot hset; exact hf
  have hbump : ∀ p, (schedule n).taken (progress n s) p ≤
      bump ((schedule n).taken (progress n s)) (.target_reduce r j) p := by
    intro p; rw [bump_apply]; omega
  have hempty : (schedule n).sent (progress n s) (.target_reduce r j) =
      bump ((schedule n).taken (progress n s)) (.target_reduce r j) (.target_reduce r j) := by
    have := h.tracks.sent_le (.target_reduce r j)
    rw [bump_apply, if_pos rfl]; omega
  have hgood' : Reduced f input (s.node r).run j i v := by
    have := hgood rfl
    rw [taken_target_reduce _ hd, Progress.passed_of_le (by simp [h0])] at this
    simp only [Good, hd, Nat.add_sub_cancel] at this
    exact this
  -- the two operands of the reduction
  have hchunk : s.fabric.mem (.chunk r j) = I.mem (.chunk r j) :=
    h.tracks.mem_eq fun q hq hlt => h.apart_chunk hn (.inl hst) hq hlt
  have hrecv : s.fabric.mem (.received r j) = v := by
    refine (ht.mem_eq fun q hq hlt => ?_).trans (by simp [Channels.take, wiring])
    exact apart_of_eq (p := .target_reduce r j) rfl hempty hq hlt
  obtain ⟨val, hval⟩ : ∃ val : Chunk n number_elements T, val = fun e => f (I.mem (.chunk r j) e) (v e) :=
    ⟨_, rfl⟩
  have happly : apply_reduce_op f (wiring n) (s.fabric.reset (.target_reduce r j)) (.source_reduce r j)
      (.target_reduce r j) = (s.fabric.reset (.target_reduce r j)).write (.chunk r j) val := by
    simp [apply_reduce_op, wiring, hchunk, hrecv, hval]
  have hred : Reduced f input (s.node r).run j (i + 1) val := by
    have hown := h.contents r j (.inr (.inl hs))
    rw [contents_own hst] at hown
    intro e he
    simp only [hval, reduction, ringIndex_eq hd, hown e he, hgood' e he]
  have hw := ht.write (l := .chunk r j) val
    (fun q hq hlt => h.apart_chunk hn (.inl hst) hq (Nat.lt_of_le_of_lt (hbump q) hlt))
    (fun q hq hf => h.unread_chunk hn hst hq hf)
  rw [happly]
  have hpass : ∀ {p₁}, (schedule n).used p₁ = true → (schedule n).sender p₁ = r →
      (schedule n).postAt p₁ = i + 1 → Tracks (wiring n) (Good f input)
        (Fabric.post ((s.fabric.reset (.target_reduce r j)).write (.chunk r j) val) p₁)
        (((I.take (wiring n) (.target_reduce r j) v).write (.chunk r j) val).post (wiring n) p₁)
        (bump ((schedule n).sent (progress n s)) p₁)
        (bump ((schedule n).taken (progress n s)) (.target_reduce r j)) →
      ∃ I', Holds f input (Collective.setNode s r (advanced (s.node r))
        (Fabric.post ((s.fabric.reset (.target_reduce r j)).write (.chunk r j) val) p₁)) I' := by
    intro p₁ hu ho hp hT
    refine ⟨_, h.pass hs (by omega) hj (used_target_reduce.mpr (by omega)) rfl (by simp [schedule, hd, hc])
      hu ho (by rw [hp, hc]) hT ?_ fun q k hqk => ?_⟩
    · rw [hc, contents_reduced (by omega) (by omega), hd]
      simpa [Channels.post, Channels.write] using hred
    · have hne : ¬ (q = r ∧ k = j) := by rintro ⟨rfl, rfl⟩; rcases hqk with h | h <;> exact h rfl
      simp [Channels.post, Channels.write, Channels.take, wiring, hne]
  by_cases hlast : i + 2 = n
  · -- the last reduction: the result starts its own way around
    rw [if_pos hlast] at hp₁
    subst hp₁
    have hd0 : dist j (right r) = 0 := by rw [dist_right, hd, if_pos (by omega)]
    have hpeer : (wiring n).loc ((wiring n).peer (.target_gather (right r) j)) = .chunk r j := by
      simp [wiring]
    have hidle := h.idle_gather_out hn r hd0 (by omega) (by omega)
    have hin : (s.node r).run < (progress n s (left r)).passed (n + 0 - 2) := by
      rw [sent_target_reduce _ hd, taken_target_reduce _ hd, Progress.passed_of_le (by simp [h0])] at hlt
      rw [show n + 0 - 2 = i by omega]
      exact hlt
    refine hpass (used_target_gather.mpr (by omega)) (by simp [Schedule.sender, schedule, wiring])
      (by simp only [schedule]; omega) (hw.post ?_ (fun _ => ?_) (fun _ q hq hlt => ?_) (fun _ q hq hlt => ?_)
        (fun _ q hq hf => ?_) (fun _ => ?_))
    · rw [hidle, bump_apply, if_neg (by simp)]; rfl
    · simp [wiring, right_ne hn]
    · rw [hpeer]
      exact h.apart_chunk hn (.inl hst) hq (Nat.lt_of_le_of_lt (hbump q) hlt)
    · exact apart_of_eq rfl hidle hq (Nat.lt_of_le_of_lt (hbump q) hlt)
    · exact (h.unread_right hn hd0 (by omega) (by omega) hin (fun _ => hflight) hq hf).symm
    · rw [hpeer, sent_target_gather _ hd0 (by omega), left_right, Progress.passed_of_le (by simp [h0]; omega)]
      simp only [Good, Channels.write, Function.update_self]
      rw [show n - 1 = i + 1 by omega]
      exact hred
  · rw [if_neg hlast] at hp₁
    subst hp₁
    have hd1 : dist j (right r) = (i + 1) + 1 := by rw [dist_right, hd, if_neg (by omega)]
    have hpeer : (wiring n).loc ((wiring n).peer (.target_reduce (right r) j)) = .chunk r j := by
      simp [wiring]
    have hidle := h.idle_reduce_out hn r hd1 (by omega)
    refine hpass (used_target_reduce.mpr (by omega)) (by simp [Schedule.sender, schedule, wiring])
      (by simp only [schedule]; omega) (hw.post ?_ (fun _ => ?_) (fun _ q hq hlt => ?_) (fun _ q hq hlt => ?_)
        (fun _ q hq hf => ?_) (fun _ => ?_))
    · rw [hidle, bump_apply, if_neg (by simp [right_ne hn])]; rfl
    · simp [wiring]
    · rw [hpeer]
      exact h.apart_chunk hn (.inl hst) hq (Nat.lt_of_le_of_lt (hbump q) hlt)
    · exact apart_of_eq rfl hidle hq (Nat.lt_of_le_of_lt (hbump q) hlt)
    · cases q <;> simp [wiring] at hq ⊢
    · rw [hpeer, sent_target_reduce _ hd1, left_right, Progress.passed_of_le (by simp [h0])]
      simp only [Good, Channels.write, Function.update_self, hd1, Nat.add_sub_cancel]
      exact hred

/-- A result arrives: it replaces rank `r`'s chunk and is sent on, or acknowledged
by the last rank it reaches. -/
theorem gather (h : Holds f input s I) (hs : (s.node r).state = .running)
    (hi : ¬ (s.node r).fields.current_step + 1 < n) (hl : (s.node r).fields.current_step < 2 * (n - 1))
    (hset : s.fabric.slot (.target_gather r (s.node r).fields.current_index) = true)
    {p₁ : Port n} (hp₁ : p₁ = if (s.node r).fields.current_step + 3 = 2 * n
      then .source_gather (left r) (s.node r).fields.current_index
      else .target_gather (right r) (s.node r).fields.current_index) :
    ∃ I', Holds f input (Collective.setNode s r (advanced (s.node r))
      (Fabric.post (s.fabric.reset (.target_gather r (s.node r).fields.current_index)) p₁)) I' := by
  obtain ⟨j, hj⟩ : ∃ j, (s.node r).fields.current_index = j := ⟨_, rfl⟩
  obtain ⟨d, hc⟩ : ∃ d, (s.node r).fields.current_step + 1 = n + d :=
    ⟨(s.node r).fields.current_step + 1 - n, by omega⟩
  have hd := h.index r hs
  rw [hj, hc, if_neg (by omega), Nat.add_sub_cancel_left] at hd
  have hu : d + 2 ≤ n := by omega
  rw [hj] at hset
  rw [hj, show (s.node r).fields.current_step + 3 = n + d + 2 by omega] at hp₁
  rw [hj]
  have h0 : steps n (s.node r) = n + d := by simp [steps, hs, hc]
  obtain ⟨v, hv, hgood, ht⟩ := h.tracks.take hset
  have hlt := h.tracks.lt_of_slot hset
  have hbump : ∀ p, (schedule n).taken (progress n s) p ≤
      bump ((schedule n).taken (progress n s)) (.target_gather r j) p := by
    intro p; rw [bump_apply]; omega
  have hempty : (schedule n).sent (progress n s) (.target_gather r j) =
      bump ((schedule n).taken (progress n s)) (.target_gather r j) (.target_gather r j) := by
    have := h.tracks.sent_le (.target_gather r j)
    rw [bump_apply, if_pos rfl]; omega
  have hgood' : Reduced f input (s.node r).run j (n - 1) v := by
    have := hgood rfl
    rw [taken_target_gather _ hd hu, Progress.passed_of_le (by simp [h0])] at this
    exact this
  rw [sent_target_gather _ hd hu, taken_target_gather _ hd hu, Progress.passed_of_le (by simp [h0])] at hlt
  have hpass : ∀ {p₁}, (schedule n).used p₁ = true → (schedule n).sender p₁ = r →
      (schedule n).postAt p₁ = n + d → Tracks (wiring n) (Good f input)
        (Fabric.post (s.fabric.reset (.target_gather r j)) p₁)
        ((I.take (wiring n) (.target_gather r j) v).post (wiring n) p₁)
        (bump ((schedule n).sent (progress n s)) p₁)
        (bump ((schedule n).taken (progress n s)) (.target_gather r j)) →
      ∃ I', Holds f input (Collective.setNode s r (advanced (s.node r))
        (Fabric.post (s.fabric.reset (.target_gather r j)) p₁)) I' := by
    intro p₁ hu₁ ho hp hT
    refine ⟨_, h.pass hs hl hj (used_target_gather.mpr (by omega)) rfl (by simp [schedule, hd, hc])
      hu₁ ho (by rw [hp, hc]) hT ?_ fun q k hqk => ?_⟩
    · rw [contents_result (by omega)]
      simpa [Channels.post, Channels.take, wiring] using hgood'
    · have hne : ¬ (q = r ∧ k = j) := by rintro ⟨rfl, rfl⟩; rcases hqk with h | h <;> exact h rfl
      simp [Channels.post, Channels.take, wiring, hne]
  by_cases hlast : n + d + 2 = 2 * n
  · -- the result has reached the last rank: acknowledge it to the left
    rw [if_pos hlast] at hp₁
    subst hp₁
    have hack : dist j (right (left r)) + 2 = n := by rw [right_left]; omega
    have hfree : (schedule n).sent (progress n s) (.source_gather (left r) j) =
        (schedule n).taken (progress n s) (.source_gather (left r) j) := by
      have h1 := h.ack_le hn (left r)
      have h2 := (progress n s (left r)).passed_le (n + d - 1)
      have h3 := (progress n s (left r)).run_le_passed (2 * n - 1)
      rw [sent_source_gather _ hack, taken_source_gather _ hack]
      rw [right_left, Progress.passed_of_le (g := progress n s r) (by simp [h0]; omega)] at h1 ⊢
      simp only [progressOf_run] at h1 h2 h3 hlt ⊢
      omega
    refine hpass (used_source_gather.mpr hack) (by simp [Schedule.sender, schedule, wiring])
      (by simp only [schedule]; omega) (ht.post_bare rfl ?_)
    rw [hfree, bump_apply, if_neg (by simp)]; rfl
  · rw [if_neg hlast] at hp₁
    subst hp₁
    have hd1 : dist j (right r) = d + 1 := by rw [dist_right, hd, if_neg (by omega)]
    have hpeer : (wiring n).loc ((wiring n).peer (.target_gather (right r) j)) = .chunk r j := by
      simp [wiring]
    have hidle := h.idle_gather_out hn r hd1 (by omega) (by omega)
    refine hpass (used_target_gather.mpr (by omega)) (by simp [Schedule.sender, schedule, wiring])
      (by simp only [schedule]; omega) (ht.post ?_ (fun _ => ?_) (fun _ q hq hlt => ?_) (fun _ q hq hlt => ?_)
        (fun _ q hq hf => ?_) (fun _ => ?_))
    · rw [hidle, bump_apply, if_neg (by simp [right_ne hn])]; rfl
    · simp [wiring, right_ne hn]
    · -- the chunk just taken is not on its way again
      rw [hpeer]
      exact apart_of_eq (p := .target_gather r j) rfl hempty hq hlt
    · exact apart_of_eq rfl hidle hq (Nat.lt_of_le_of_lt (hbump q) hlt)
    · exact (h.unread_right hn hd1 (by omega) (by omega) hlt (by omega) hq hf).symm
    · rw [hpeer, sent_target_gather _ hd1 (by omega), left_right, Progress.passed_of_le (by simp [h0])]
      simpa [Good, Channels.take, wiring] using hgood'

/-! ## Every call -/

include hN in
theorem trigger (h : Holds f input s I) (hs : (s.node r).state = .running) {done : Bool}
    {f' : Fields n T} (ht : triggerProgressImpl f r (s.node r).fields s.fabric = (done, f', F)) :
    ∃ I', Holds f input (Collective.setNode s r
      { s.node r with state := if done then .finished else .running, fields := f' } F) I' := by
  have hle := h.step_le r hs
  have hidx := h.index r hs
  -- nothing has arrived: the call changes nothing
  have stay : ∃ I', Holds f input (Collective.setNode s r
      { s.node r with state := .running, fields := (s.node r).fields } s.fabric) I' :=
    ⟨I, h.set_same rfl (by simp [steps, hs]) rfl (fun _ => ⟨hs, rfl⟩) (fun _ => .inr (.inl hs))⟩
  by_cases hlast : (s.node r).fields.current_step = 2 * (n - 1)
  · rw [triggerProgressImpl_ack hN hn hlast] at ht
    cases ht
    obtain ⟨j, hj⟩ : ∃ j, ringIndex ((s.node r).fields.current_index + 2) r = j := ⟨_, rfl⟩
    rw [hj]
    cases hslot : s.fabric.slot (.source_gather r j) with
    | true => exact h.finish hn hs hlast (ack_index hn (by rw [hidx]; split <;> omega) hj) hslot
    | false => rw [Fabric.reset_of_clear hslot]; exact stay
  · by_cases hi : (s.node r).fields.current_step + 1 < n
    · cases hslot : s.fabric.slot (.target_reduce r (s.node r).fields.current_index) with
      | true =>
        rw [triggerProgressImpl_reduce_set hN hn hi hslot] at ht
        cases ht
        rw [if_neg (by simp), ← hs]
        exact h.reduce hn hs hi hslot rfl
      | false =>
        rw [triggerProgressImpl_reduce_clear hN hn hi hslot] at ht
        cases ht
        exact stay
    · cases hslot : s.fabric.slot (.target_gather r (s.node r).fields.current_index) with
      | true =>
        rw [triggerProgressImpl_gather_set hN hn hi (by omega) hslot] at ht
        cases ht
        rw [if_neg (by simp), ← hs]
        exact h.gather hn hs hi (by omega) hslot rfl
      | false =>
        rw [triggerProgressImpl_gather_clear hN hn hi (by omega) hslot] at ht
        cases ht
        exact stay

end Holds

/-- **The invariant holds in every run, under every interleaving.** -/
theorem holds_of_reach (hN : 0 < number_elements) (hn : 2 ≤ n)
    {m : Loc n → Chunk n number_elements T}
    (h : (allreduce n number_elements f).Reach input m (fun _ _ => True) s) : ∃ I, Holds f input s I := by
  refine Collective.Reach.invariant (P := fun s => ∃ I, Holds f input s I) ⟨_, Holds.initial m⟩ ?_ h
  rintro s a t ⟨I, hI⟩ - ha
  cases ha with
  | waitForSetup hs => exact ⟨I, hI.set_same rfl (by simp [steps, hs]) rfl (by simp) (by simp [Active])⟩
  | copyIn hs hc => exact hI.copyIn hN hn hs hc
  | start hs hc => exact hI.start hN hn hs hc
  | trigger hs ht => exact hI.trigger hN hn hs ht
  | idle => exact ⟨I, hI⟩
  | copyOut hs => exact ⟨I, hI.copyOut hN hn hs⟩
  | network ha => exact ⟨I, hI.tracks.advance ha, hI.step_le, hI.index, hI.contents, hI.outputs⟩

end GaspiCxx.Collectives.AllreduceRing
