import GaspiCxx.Collectives.AllreduceRecursiveDoubling.Invariant

/-!
# Setup, start and copies keep the invariant
-/

namespace GaspiCxx.Collectives.AllreduceRecursiveDoubling

open OneSided SingleSided AllreduceCommon

variable {n number_elements : Nat} {T : Type} {op : T → T → T}
  {input : Fin n → Nat → Vec number_elements T} {s : GroupSys n number_elements T}
  {I I' : Channels (Port n) (Loc n) (Vec number_elements T)} {r : Fin n} {N : Object number_elements T}
  {f : Fields number_elements T} {F : Net number_elements n T}

namespace Holds

theorem network (h : Holds op input s I) {p : Port n} {i : Nat}
    (ha : s.fabric.advance (wiring n) p i = some F) : Holds op input { s with fabric := F } I :=
  ⟨h.tracks.advance ha, h.running, h.source, h.target, h.final, h.ahead, h.outputs⟩

/-! ## Reading and writing the own buffers -/

theorem mem_source (h : Holds op input s I) (r : Fin n) : s.fabric.mem (.source r) = I.mem (.source r) :=
  h.tracks.mem_eq fun _ hq _ => loc_ne_source hq

/-- The operand of the reduction is the partner's vector. -/
theorem mem_target (h : Holds op input s I) (hr : is_active_rank r) {i : Nat} (hp : Pending (s.node r) i) :
    s.fabric.mem (.target r i) = value op (round input (s.node r).run) i (neighbor r i) := by
  rw [← h.target r i hr hp]
  exact h.tracks.mem_eq fun q hq hlt => apart_of_eq (p := .target r i) rfl (h.idle_pending hr hp) hq hlt

theorem mem_final (h : Holds op input s I) (hr : is_odd_non_extra_rank r) (hs : (s.node r).state = .finished) :
    s.fabric.mem (.target_non_power_two r) =
      value op (round input (s.node r).run) (number_iterations n) (neighbor_non_power_two r) := by
  rw [← h.final r hr hs]
  exact h.tracks.mem_eq fun q hq hlt =>
    apart_of_eq (p := .target_non_power_two r) rfl (h.idle_final hr hs) hq hlt

/-- The acknowledgement has arrived: the data is reduced. -/
theorem reduce (h : Holds op input s I) (hr : is_active_rank r) {i : Nat} (hi : i < number_iterations n)
    (hp : Pending (s.node r) i) (hset : s.fabric.slot (.source r i) = true) :
    ∃ I', Tracks (wiring n) (Good op input)
        (apply_reduce_op op (wiring n) (s.fabric.reset (.source r i)) (.source r i) (.target r i)) I'
        ((schedule n).sent (progress s)) (bump ((schedule n).taken (progress s)) (.source r i)) ∧
      I'.mem (.source r) = value op (round input (s.node r).run) (i + 1) r ∧
      ∀ l, l ≠ .source r → I'.mem l = I.mem l := by
  have hst := steps_of_pending (r := r) hp
  obtain ⟨v, -, -, ht⟩ := h.tracks.take hset
  have hlt := h.tracks.lt_of_slot hset
  rw [sent_source _ hr hi, taken_source _ hr hi,
    Progress.passed_of_le (g := progress s r) (by simp [hst])] at hlt
  have hw := ht.write (l := .source r) (value op (round input (s.node r).run) (i + 1) r)
    (fun _ hq _ => loc_ne_source hq)
    (fun q hq hf => h.no_reader
      (fun _ j hj h1 h3 => by
        obtain rfl : j = i := by omega
        exact hlt)
      (fun _ => by omega) (fun ho => absurd ho (not_odd_of_active hr)) hq hf)
  have hsrc : I.mem (.source r) = value op (round input (s.node r).run) i r := by
    rw [h.source r (.inr (.inl hp.1)), contents_wait hr hp.1 (.inr hp.2.1), hp.2.2]
  have happly : apply_reduce_op op (wiring n) (s.fabric.reset (.source r i)) (.source r i) (.target r i) =
      (s.fabric.reset (.source r i)).write (.source r) (value op (round input (s.node r).run) (i + 1) r) := by
    simp only [apply_reduce_op, wiring, Fabric.reset_mem, h.mem_source, hsrc, h.mem_target hr hp]
    rfl
  refine ⟨(I.take (wiring n) (.source r i) v).write (.source r)
    (value op (round input (s.node r).run) (i + 1) r), by rw [happly]; exact hw, by simp [Channels.write],
    fun l hl => by simp [Channels.write, Channels.take, wiring, hl]⟩

/-- The previous transfer of an iteration has been taken. -/
theorem free_data (h : Holds op input s I) (hr : is_active_rank r) {i : Nat} (hi : i < number_iterations n)
    (hst : steps r (s.node r) ≤ 1 + 2 * i) :
    (schedule n).sent (progress s) (.target (neighbor r i) i) = (s.node r).run ∧
      (schedule n).taken (progress s) (.target (neighbor r i) i) = (s.node r).run := by
  have hact := active_neighbor hi r
  have h1 := h.ack_le hr hi
  have h2 := h.tracks.taken_le (.target (neighbor r i) i)
  rw [Progress.passed_of_le (g := progress s r) (by simp only [progressOf_steps]; omega)] at h1
  rw [sent_target _ hact hi, taken_target _ hact hi, neighbor_neighbor hi hr,
    Progress.passed_of_le (g := progress s r) hst] at h2 ⊢
  exact ⟨rfl, Nat.le_antisymm h2 h1⟩

/-! ## Outside `triggerProgress` -/

theorem waitForSetup (h : Holds op input s I) (hs : (s.node r).state = .uninitialized) :
    Holds op input (Collective.setNode s r { s.node r with state := .initialized } s.fabric) I :=
  h.set_quiet (by simp [steps, hs]) (fun _ _ _ hx => by simp [steps] at hx)
    (fun _ _ _ hx => by simp [steps] at hx) rfl rfl (by simp) (fun ha => by simp [Active] at ha)
    (fun i hp => by simp [Pending] at hp) (by simp)

theorem copyOutImpl_finished (h : Holds op input s I) (hN : 0 < number_elements) (hn : 2 ≤ n)
    (hs : (s.node r).state = .finished) :
    copyOutImpl r (s.node r).fields s.fabric = some (result op (round input (s.node r).run) r) := by
  rw [copyOutImpl, if_pos ⟨hN, hn⟩, result]
  by_cases hr : is_active_rank r
  · rw [if_pos hr, if_pos hr]
    show some (s.fabric.mem (.source r)) = _
    rw [h.mem_source, h.source r (.inr (.inr hs)), contents_final hr (.inr hs)]
  · rw [if_neg hr, if_neg hr]
    exact congrArg some (h.mem_final (not_active_iff.mp hr) hs)

theorem copyOut (h : Holds op input s I) (hN : 0 < number_elements) (hn : 2 ≤ n)
    (hs : (s.node r).state = .finished) :
    Holds op input (Collective.setNode s r
      { s.node r with
        state := .initialized
        outputs := (s.node r).outputs ++ [copyOutImpl r (s.node r).fields s.fabric] } s.fabric) I := by
  have hw : Schedule.Wraps (progress s) (progress (Collective.setNode s r
      { s.node r with
        state := .initialized
        outputs := (s.node r).outputs ++ [copyOutImpl r (s.node r).fields s.fabric] } s.fabric)) r
      (4 + 2 * number_iterations n) := wraps (by simp [Node.run]) (steps_finished hs) rfl
  have hpos : ∀ p, (schedule n).used p = true → (schedule n).postAt p < 4 + 2 * number_iterations n ∧
      (schedule n).takeAt p < 4 + 2 * number_iterations n := by
    intro p hu
    cases p with
    | target q i => have := (used_target.mp hu).2; simp only [schedule]; omega
    | source q i => have := (used_source.mp hu).2; simp only [schedule]; omega
    | source_non_power_two q => simp only [schedule]; omega
    | target_non_power_two q => simp only [schedule]; split <;> omega
  have hpassed : ∀ i, (⟨(s.node r).run + 1, 0⟩ : Progress).passed i = (s.node r).run + 1 :=
    fun i => Progress.passed_of_le (Nat.zero_le i)
  refine h.set (h.tracks.recount (hw.tally fun p hu _ => (hpos p hu).1) (hw.tally fun p hu _ => (hpos p hu).2))
    (by simp) (fun ha => by simp [Active] at ha) (fun i _ hp => by simp [Pending] at hp) (by simp) (fun _ _ => rfl)
    (fun i => ?_) (fun i hact hi => ?_) (fun k out hk => ?_)
  · have := (progress s r).passed_le i
    simpa [Node.run, steps, Progress.passed] using this
  · have := h.ahead r i hact hi
    rw [Progress.passed_of_lt (g := progress s r) (by rw [progressOf_steps, steps_finished hs]; omega)] at this
    simpa [Node.run, steps, Progress.passed] using this
  · rcases Node.getElem?_append_outputs hk with hk | ⟨rfl, rfl⟩
    · exact h.outputs r k out hk
    · exact h.copyOutImpl_finished hN hn hs

theorem copyIn (h : Holds op input s I) (hN : 0 < number_elements) (hn : 2 ≤ n)
    (hs : (s.node r).state = .initialized)
    (hc : copyInImpl r (input r (s.node r).run) (s.node r).fields s.fabric = (f, F)) :
    ∃ I', Holds op input (Collective.setNode s r { s.node r with state := .ready, fields := f } F) I' := by
  have h0 : steps r (s.node r) = 0 := by simp [steps, hs]
  have himpl : copyInImpl r (input r (s.node r).run) (s.node r).fields s.fabric =
      ((s.node r).fields, s.fabric.write (.source r) (input r (s.node r).run)) := by
    rw [copyInImpl, if_pos ⟨hN, hn⟩]
    split <;> rfl
  rw [himpl] at hc
  cases hc
  have hw := h.tracks.write (l := .source r) (input r (s.node r).run) (fun _ hq _ => loc_ne_source hq)
    (fun q hq hf => h.no_reader (fun _ i _ h1 _ => by omega) (fun _ => by omega) (fun _ => h0) hq hf)
  have hsame : progress (Collective.setNode s r { s.node r with state := .ready }
      (s.fabric.write (.source r) (input r (s.node r).run))) = progress s :=
    progressOf_same rfl (by rw [h0]; rfl)
  refine ⟨I.write (.source r) (input r (s.node r).run), h.set_moves h0 rfl (Nat.le_refl 0) rfl rfl
    (by rw [hsame]; exact hw) (by simp) (fun _ => ?_) (fun i _ hp => by simp [Pending] at hp) (by simp)
    (fun l hl => ?_) (fun i _ _ _ hx => by simp [steps] at hx)⟩
  · rw [contents_ready rfl]
    simp [Channels.write]
  · have : l ≠ .source r := by rintro rfl; exact hl rfl
    simp [Channels.write, this]

/-! ## `start` -/

/-- An odd rank sends its vector. -/
theorem start_odd (h : Holds op input s I) (hr : is_odd_non_extra_rank r) (hs : (s.node r).state = .ready)
    (hst : f.alg_stage = .INITIAL_STEP_NON_POWER_TWO) (hit : f.iteration = 0) (hL : 1 ≤ number_iterations n) :
    ∃ I', Holds op input (Collective.setNode s r { s.node r with state := .running, fields := f }
      (s.fabric.post (.target_non_power_two (neighbor_non_power_two r)))) I' := by
  have h0 : steps r (s.node r) = 0 := by simp [steps, hs]
  have heven := even_neighbor hr
  have hinv := neighbor_neighbor_non_power_two hr.2
  have hu := used_target_non_power_two.mpr heven.2
  have hown := h.source r (.inl hs)
  have hmv : Schedule.Moves (progress s) (progress (Collective.setNode s r
      { s.node r with state := .running, fields := f }
      (s.fabric.post (.target_non_power_two (neighbor_non_power_two r))))) r 0 (0 + 1) :=
    moves rfl h0 (by simp [steps, hst]) (Nat.zero_le 1)
  have hfree : (schedule n).sent (progress s) (.target_non_power_two (neighbor_non_power_two r)) =
      (s.node r).run ∧ (schedule n).taken (progress s) (.target_non_power_two (neighbor_non_power_two r)) =
      (s.node r).run := by
    have h1 := h.final_le hr
    have h2 := (progress s (neighbor_non_power_two r)).passed_anti
      (show 1 ≤ 1 + 2 * number_iterations n by omega)
    have h3 := h.initial_le heven
    rw [hinv, Progress.passed_of_le (g := progress s r) (by simp [h0])] at h3
    rw [Progress.passed_of_le (g := progress s r) (by simp [h0])] at h1
    rw [sent_initial _ heven, taken_initial _ heven, hinv,
      Progress.passed_of_le (g := progress s r) (by simp [h0])]
    exact ⟨rfl, Nat.le_antisymm h3 (Nat.le_trans h1 h2)⟩
  have ht := post_data h.tracks (p := .target_non_power_two (neighbor_non_power_two r)) rfl
    (hfree.1.trans hfree.2.symm) (by
      rw [hfree.1]
      simp only [Good, if_pos heven, wiring, hinv]
      rw [hown, contents_odd hr])
  refine ⟨_, h.set_moves (y := 0 + 1) h0 (by simp [steps, hst]) (Nat.zero_le _) rfl rfl
    (ht.recount (hmv.tally_step hu hinv (if_pos heven.1) fun p hp hs ha => postAt_inj hp hu hs ha)
      (hmv.tally_same fun p hp ho hx => ?_))
    (fun _ => ?_) (fun _ => ?_) (fun i _ hp => by simp [Pending, hst] at hp) (by simp) (fun _ _ => rfl)
    (fun i hact _ _ _ => absurd hr (not_odd_of_active hact))⟩
  · have := takeAt_odd hp hr ho
    omega
  · simp only [Running, hst, hit]
    exact ⟨hr.2, hL, fun _ => trivial⟩
  · show I.mem (.source r) = _
    rw [hown, contents_odd hr, contents_odd hr]

/-- An extra rank sends its data of the first iteration. -/
theorem start_extra (h : Holds op input s I) (hr : is_extra_rank r) (hs : (s.node r).state = .ready)
    (hst : f.alg_stage = .WAIT_FOR_DATA) (hit : f.iteration = 0) (hL : 1 ≤ number_iterations n)
    (hclear : Clear s r 0) :
    ∃ I', Holds op input (Collective.setNode s r { s.node r with state := .running, fields := f }
      (s.fabric.post (.target (neighbor r 0) 0))) I' := by
  have h0 : steps r (s.node r) = 0 := by simp [steps, hs]
  have hact : is_active_rank r := .inr hr
  have hinv := neighbor_neighbor (i := 0) hL hact
  have hu := used_target.mpr ⟨active_neighbor (i := 0) hL r, hL⟩
  have hvec : I.mem (.source r) = value op (round input (s.node r).run) 0 r := by
    rw [h.source r (.inl hs), contents_ready hs, value_zero_extra hr]
  have hmv : Schedule.Moves (progress s) (progress (Collective.setNode s r
      { s.node r with state := .running, fields := f } (s.fabric.post (.target (neighbor r 0) 0)))) r 0 2 :=
    moves rfl h0 (by simp [steps, hst, hit]) (Nat.zero_le 2)
  obtain ⟨hsent, htaken⟩ := h.free_data hact hL (by omega)
  have ht := post_data h.tracks (p := .target (neighbor r 0) 0) rfl (hsent.trans htaken.symm) (by
    rw [hsent]
    simp only [Good, wiring, hinv]
    exact hvec)
  refine ⟨_, h.set_moves (y := 2) h0 (by simp [steps, hst, hit]) (Nat.zero_le _) rfl rfl
    (ht.recount (hmv.tally_bump hu hinv (Nat.zero_le _) (by simp only [schedule]; omega)
      fun p hp ho hx hy => postAt_inj hp hu (ho.trans hinv.symm) ?_)
      (hmv.tally_same fun p hp ho hx => ?_))
    (fun _ => ?_) (fun _ => ?_) (fun i _ hp => by simp [Pending, hst] at hp) (by simp) (fun _ _ => rfl)
    (fun i _ _ _ hx => ?_)⟩
  · have := (postAt_active hp hact ho).1
    simp only [schedule] at this hy ⊢
    omega
  · rcases takeAt_active hp hact ho with ⟨he, -⟩ | ⟨h2, -⟩ | ⟨he, -⟩
    · exact he.2 hr
    · omega
    · exact he.2 hr
  · simp only [Running, hst, hit]
    exact ⟨hact, hL⟩
  · rw [contents_wait hact rfl (.inl hst), hit]
    exact hvec
  · obtain rfl : i = 0 := by omega
    exact hclear

theorem start (h : Holds op input s I) (hN : 0 < number_elements) (hn : 2 ≤ n)
    (hs : (s.node r).state = .ready) (hc : startImpl r (s.node r).fields s.fabric = (f, F))
    (hcare : Careful s r .start) :
    ∃ I', Holds op input (Collective.setNode s r { s.node r with state := .running, fields := f } F) I' := by
  have hL := iterations_pos hn
  rw [startImpl, if_neg (by omega)] at hc
  dsimp only at hc
  by_cases hextra : is_extra_rank r
  · rw [if_pos hextra, if_neg (show ¬ is_odd_non_extra_rank r from fun ho => ho.2 hextra),
      if_neg (show ¬ is_non_extra_rank r from fun hne => hne hextra)] at hc
    cases hc
    exact h.start_extra hextra hs rfl rfl hL (hcare 0 (by simp [posts, hextra]))
  · rw [if_neg hextra, if_pos hextra] at hc
    by_cases hodd : is_odd_non_extra_rank r
    · rw [if_pos hodd] at hc
      cases hc
      exact h.start_odd hodd hs rfl rfl hL
    · -- an even rank waits for the vector of its partner
      rw [if_neg hodd] at hc
      cases hc
      have heven : is_even_non_extra_rank r := ⟨by have := hextra; omega, hextra⟩
      refine ⟨I, h.set_quiet (by simp [steps, hs]) (fun p hu ho hx => ?_) (fun p hu ho hx => ?_) rfl rfl
        (fun _ => ⟨hextra, hL, fun _ => rfl⟩)
        (fun _ => ⟨.inl hs, fun x => by rw [contents_initial rfl rfl, contents_ready hs]⟩)
        (fun i hp => by simp [Pending] at hp) (by simp)⟩
      · have := (postAt_active hu (.inl heven) ho).1
        simp only [steps] at hx
        omega
      · have := takeAt_active hu (.inl heven) ho
        simp only [steps] at hx
        omega

end Holds

end GaspiCxx.Collectives.AllreduceRecursiveDoubling
