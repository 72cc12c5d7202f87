import GaspiCxx.Collectives.AllreduceRecursiveDoubling.Preserved

/-!
# Every careful `triggerProgress` keeps the invariant

One lemma for each thing the call can do, then the call by cases on the stage.
The initial step of an even rank goes on to the first iteration in the same
call: the invariant holds in between.
-/

namespace GaspiCxx.Collectives.AllreduceRecursiveDoubling

open OneSided SingleSided AllreduceCommon

variable {n number_elements : Nat} {T : Type} {op : T → T → T}
  {input : Fin n → Nat → Vec number_elements T} {s : GroupSys n number_elements T}
  {I : Channels (Port n) (Loc n) (Vec number_elements T)} {r : Fin n} {i : Nat}
  {f : Fields number_elements T} {F : Net number_elements n T} {done : Bool}

namespace Holds

/-! ## The iterations -/

/-- The data arrives and is acknowledged. -/
theorem data (h : Holds op input s I) (hr : is_active_rank r) (hs : (s.node r).state = .running)
    (hst : (s.node r).fields.alg_stage = .WAIT_FOR_DATA) (hit : (s.node r).fields.iteration = i)
    (hi : i < number_iterations n) (hset : s.fabric.slot (.target r i) = true)
    (hf : f.alg_stage = .WAIT_FOR_ACK) (hfi : f.iteration = i) :
    ∃ I', Holds op input (Collective.setNode s r { s.node r with state := .running, fields := f }
      ((s.fabric.reset (.target r i)).post (.source (neighbor r i) i))) I' := by
  have hx : steps r (s.node r) = 2 + 2 * i := by simp [steps, hs, hst, hit]
  have hact := active_neighbor hi r
  have hinv := neighbor_neighbor hi hr
  have hu₀ := used_target.mpr ⟨hr, hi⟩
  have hu₁ := used_source.mpr ⟨hact, hi⟩
  obtain ⟨v, hv, hgood, ht⟩ := h.tracks.take hset
  have hlt := h.tracks.lt_of_slot hset
  rw [sent_target _ hr hi, taken_target _ hr hi,
    Progress.passed_of_le (g := progress s r) (by simp [hx])] at hlt
  have hval : v = value op (round input (s.node r).run) i (neighbor r i) := by
    have := hgood rfl
    rw [taken_target _ hr hi, Progress.passed_of_le (g := progress s r) (by simp [hx])] at this
    exact this
  -- the partner has sent this run's data: it has seen the acknowledgements of all runs before
  have hfree : (schedule n).sent (progress s) (.source (neighbor r i) i) =
      bump ((schedule n).taken (progress s)) (.target r i) (.source (neighbor r i) i) := by
    have h1 := (progress s (neighbor r i)).passed_le (1 + 2 * i)
    have h2 := (progress s (neighbor r i)).run_le_passed (3 + 2 * i)
    have h3 := h.tracks.taken_le (.source (neighbor r i) i)
    rw [sent_source _ hact hi, taken_source _ hact hi, hinv,
      Progress.passed_of_le (g := progress s r) (by simp [hx])] at h3
    rw [bump_apply, if_neg (by simp), sent_source _ hact hi, taken_source _ hact hi, hinv,
      Progress.passed_of_le (g := progress s r) (by simp [hx])]
    simp only [progressOf_run] at hlt h1 h2 h3 ⊢
    omega
  have hmv : Schedule.Moves (progress s) (progress (Collective.setNode s r
      { s.node r with state := .running, fields := f }
      ((s.fabric.reset (.target r i)).post (.source (neighbor r i) i)))) r (2 + 2 * i) (2 + 2 * i + 1) :=
    moves rfl hx (by simp only [steps, hf, hfi]; omega) (Nat.le_succ _)
  have hmem : ∀ l, l ≠ .target r i → (I.take (wiring n) (.target r i) v).mem l = I.mem l := by
    intro l hl
    simp [Channels.take, wiring, hl]
  refine ⟨_, h.set_moves hx (y := 2 + 2 * i + 1) (by simp only [steps, hf, hfi]; omega) (Nat.le_succ _) rfl rfl
    ((ht.post_bare rfl hfree).recount
      (hmv.tally_step hu₁ hinv rfl fun p hp hs ha => postAt_inj hp hu₁ hs ha)
      (hmv.tally_step hu₀ rfl rfl fun p hp hs ha => takeAt_inj hp hu₀ hs ha))
    (fun _ => ?_) (fun _ => ?_) (fun j _ hp => ?_) (by simp) (fun l hl => ?_) (fun j _ _ h1 h2 => by omega)⟩
  · simp only [Running, hf, hfi]
    exact ⟨hr, hi⟩
  · rw [contents_wait hr rfl (.inr hf), hfi]
    exact (hmem (.source r) (by simp)).trans
      ((h.source r (.inr (.inl hs))).trans (by rw [contents_wait hr hs (.inl hst), hit]))
  · obtain rfl : i = j := hfi.symm.trans hp.2.2
    rw [← hval]
    simp [Channels.post, Channels.take, wiring]
  · exact hmem l (by rintro rfl; exact hl rfl)

/-- The data is reduced and the next iteration's data sent. -/
theorem ack_next (h : Holds op input s I) (hr : is_active_rank r) (hp : Pending (s.node r) i)
    (hi : i + 1 < number_iterations n) (hset : s.fabric.slot (.source r i) = true)
    (hf : f.alg_stage = .WAIT_FOR_DATA) (hfi : f.iteration = i + 1) (hclear : Clear s r (i + 1)) :
    ∃ I', Holds op input (Collective.setNode s r { s.node r with state := .running, fields := f }
      ((apply_reduce_op op (wiring n) (s.fabric.reset (.source r i)) (.source r i) (.target r i)).post
        (.target (neighbor r (i + 1)) (i + 1)))) I' := by
  have hx := steps_of_pending (r := r) hp
  have hinv := neighbor_neighbor hi hr
  have hu₀ := used_source.mpr ⟨hr, show i < number_iterations n by omega⟩
  have hu₁ := used_target.mpr ⟨active_neighbor hi r, hi⟩
  obtain ⟨I₁, ht, hsrc, hmem⟩ := h.reduce hr (by omega) hp hset
  obtain ⟨hsent, htaken⟩ := h.free_data hr hi (by omega)
  have hpost := post_data ht (p := .target (neighbor r (i + 1)) (i + 1)) rfl
    (by rw [bump_apply, if_neg (by simp), hsent, htaken]; rfl) (by
      rw [hsent]
      simp only [Good, wiring, hinv]
      exact hsrc)
  have hmv : Schedule.Moves (progress s) (progress (Collective.setNode s r
      { s.node r with state := .running, fields := f }
      ((apply_reduce_op op (wiring n) (s.fabric.reset (.source r i)) (.source r i) (.target r i)).post
        (.target (neighbor r (i + 1)) (i + 1))))) r (3 + 2 * i) (3 + 2 * i + 1) :=
    moves rfl hx (by simp only [steps, hf, hfi]; omega) (Nat.le_succ _)
  refine ⟨_, h.set_moves hx (y := 3 + 2 * i + 1) (by simp only [steps, hf, hfi]; omega) (Nat.le_succ _) rfl rfl
    (hpost.recount
      (hmv.tally_step hu₁ hinv (by simp only [schedule]; omega) fun p hp hs ha => postAt_inj hp hu₁ hs ha)
      (hmv.tally_step hu₀ rfl rfl fun p hp hs ha => takeAt_inj hp hu₀ hs ha))
    (fun _ => ?_) (fun _ => ?_) (fun j _ hp => ?_) (by simp) (fun l hl => ?_) (fun j _ _ h1 h2 => ?_)⟩
  · simp only [Running, hf, hfi]
    exact ⟨hr, hi⟩
  · rw [contents_wait hr rfl (.inl hf), hfi]
    exact hsrc
  · have := hf.symm.trans hp.2.1
    cases this
  · exact hmem l (by rintro rfl; exact hl rfl)
  · obtain rfl : j = i + 1 := by omega
    exact hclear

/-- The data of the last iteration is reduced, and an even rank sends the result back. -/
theorem ack_last (h : Holds op input s I) (hr : is_active_rank r) (hp : Pending (s.node r) i)
    (hi : i + 1 = number_iterations n) (hset : s.fabric.slot (.source r i) = true)
    (hf : f.alg_stage = .FINAL_STEP_NON_POWER_TWO) :
    ∃ I', Holds op input (Collective.setNode s r { s.node r with state := .running, fields := f }
      (if is_even_non_extra_rank r then
        (apply_reduce_op op (wiring n) (s.fabric.reset (.source r i)) (.source r i) (.target r i)).post
          (.target_non_power_two (neighbor_non_power_two r))
      else apply_reduce_op op (wiring n) (s.fabric.reset (.source r i)) (.source r i) (.target r i))) I' := by
  have hx := steps_of_pending (r := r) hp
  have hnot := not_odd_of_active hr
  have hu₀ := used_source.mpr ⟨hr, show i < number_iterations n by omega⟩
  obtain ⟨I₁, ht, hsrc, hmem⟩ := h.reduce hr (by omega) hp hset
  rw [hi] at hsrc
  have hy : steps r ({ s.node r with state := .running, fields := f } : Object number_elements T) =
      3 + 2 * number_iterations n := by simp only [steps, hf, if_neg hnot]
  have hmv : ∀ G, Schedule.Moves (progress s) (progress (Collective.setNode s r
      { s.node r with state := .running, fields := f } G)) r (3 + 2 * i) (3 + 2 * number_iterations n) :=
    fun G => moves rfl hx hy (by omega)
  have htake := fun G => (hmv G).tally_bump (w := (schedule n).owner) (k := (schedule n).takeAt) hu₀ rfl
    (Nat.le_refl (3 + 2 * i)) (by simp only [schedule]; omega) fun p hp ho h1 h2 =>
      takeAt_inj hp hu₀ ho (by
        have := takeAt_active hp hr ho
        simp only [schedule] at this h1 h2 ⊢
        omega)
  -- what is left once the result is on its way or nothing has to be sent
  have key : ∀ {G J}, Tracks (wiring n) (Good op input) G J
        ((schedule n).sent (progress (Collective.setNode s r
          { s.node r with state := .running, fields := f } G)))
        (bump ((schedule n).taken (progress s)) (.source r i)) →
      J.mem = I₁.mem →
      Holds op input (Collective.setNode s r { s.node r with state := .running, fields := f } G) J := by
    intro G J hT hJ
    refine h.set_moves hx hy (by omega) rfl rfl (hT.recount (fun _ => rfl) (htake G)) (fun _ => ?_)
      (fun _ => ?_) (fun j _ hp => ?_) (by simp) (fun l hl => ?_) (fun j _ hj h1 h2 => by omega)
    · simp only [Running, hf]
    · rw [hJ, hsrc, contents_final hr (.inl ⟨rfl, hf⟩)]
    · have := hf.symm.trans hp.2.1
      cases this
    · rw [hJ]
      exact hmem l (by rintro rfl; exact hl rfl)
  by_cases heven : is_even_non_extra_rank r
  · rw [if_pos heven]
    have hodd := odd_neighbor heven
    have hinv := neighbor_neighbor_non_power_two heven.2
    have hu₁ := used_target_non_power_two.mpr hodd.2
    have hnot' : ¬ (neighbor_non_power_two r).val % 2 = 0 := by have := hodd.1; omega
    have hfree : (schedule n).sent (progress s) (.target_non_power_two (neighbor_non_power_two r)) =
        (s.node r).run ∧ (schedule n).taken (progress s) (.target_non_power_two (neighbor_non_power_two r)) =
        (s.node r).run := by
      have h1 := h.final_ack_le heven
      have h2 := h.final_le hodd
      rw [Progress.passed_of_le (g := progress s r) (by simp only [progressOf_steps]; omega)] at h1
      rw [hinv, Progress.passed_of_le (g := progress s r) (by simp only [progressOf_steps]; omega)] at h2
      rw [sent_final _ hodd, taken_final _ hodd, hinv,
        Progress.passed_of_le (g := progress s r) (by simp only [progressOf_steps]; omega)]
      exact ⟨rfl, Nat.le_antisymm h2 h1⟩
    have hpost := post_data ht (p := .target_non_power_two (neighbor_non_power_two r)) rfl
      (by rw [bump_apply, if_neg (by simp), hfree.1, hfree.2]; rfl) (by
        rw [hfree.1]
        simp only [Good, if_neg (fun he : is_even_non_extra_rank _ => hnot' he.1), wiring, hinv]
        exact hsrc)
    refine ⟨_, key (hpost.recount ((hmv _).tally_bump hu₁ hinv ?_ ?_ fun p hp ho h1 h2 =>
      postAt_inj hp hu₁ (ho.trans hinv.symm) ?_) fun _ => rfl) rfl⟩
    · simp only [schedule, if_neg hnot']; omega
    · simp only [schedule, if_neg hnot']; omega
    · have := postAt_active hp hr ho
      simp only [schedule, if_neg hnot'] at this h1 h2 ⊢
      omega
  · rw [if_neg heven]
    refine ⟨I₁, key (ht.recount ((hmv _).tally_same fun p hp ho hxy => ?_) fun _ => rfl) rfl⟩
    rcases (postAt_active hp hr ho).2 with h1 | ⟨h1, -⟩
    · omega
    · exact heven h1

/-! ## The final step -/

/-- An even rank sees its result acknowledged. -/
theorem final_ack (h : Holds op input s I) (hr : is_even_non_extra_rank r) (hs : (s.node r).state = .running)
    (hst : (s.node r).fields.alg_stage = .FINAL_STEP_NON_POWER_TWO)
    (hset : s.fabric.slot (.source_non_power_two r) = true) :
    ∃ I', Holds op input (Collective.setNode s r { s.node r with state := .finished }
      (s.fabric.reset (.source_non_power_two r))) I' := by
  have hact : is_active_rank r := .inl hr
  have hx : steps r (s.node r) = 3 + 2 * number_iterations n := by
    simp only [steps, hs, hst, if_neg (not_odd_of_active hact)]
  have hu₀ := used_source_non_power_two.mpr hr
  obtain ⟨v, -, -, ht⟩ := h.tracks.take hset
  have hmem : (I.take (wiring n) (.source_non_power_two r) v).mem = I.mem := by
    simp [Channels.take, wiring]
  have hy : steps r ({ s.node r with state := .finished } : Object number_elements T) =
      3 + 2 * number_iterations n + 1 := by simp only [steps]; omega
  have hmv : Schedule.Moves (progress s) (progress (Collective.setNode s r { s.node r with state := .finished }
      (s.fabric.reset (.source_non_power_two r)))) r (3 + 2 * number_iterations n)
      (3 + 2 * number_iterations n + 1) := moves rfl hx hy (Nat.le_succ _)
  refine ⟨_, h.set_moves hx hy (Nat.le_succ _) rfl rfl
    (ht.recount (hmv.tally_same fun p hp ho hxy => ?_)
      (hmv.tally_step hu₀ rfl rfl fun p hp hs ha => takeAt_inj hp hu₀ hs ha))
    (by simp) (fun _ => ?_) (fun j _ hp => by simp [Pending] at hp)
    (fun hodd => absurd hodd (not_odd_of_active hact)) (fun l _ => by rw [hmem]) (fun j _ hj h1 _ => by omega)⟩
  · have := (postAt_active hp hact ho).2
    omega
  · rw [hmem, h.source r (.inr (.inl hs)), contents_final hact (.inl ⟨hs, hst⟩), contents_final hact (.inr rfl)]

/-- An odd rank gets the result, and acknowledges it. -/
theorem final_set (h : Holds op input s I) (hr : is_odd_non_extra_rank r) (hs : (s.node r).state = .running)
    (hst : (s.node r).fields.alg_stage = .FINAL_STEP_NON_POWER_TWO)
    (hset : s.fabric.slot (.target_non_power_two r) = true) :
    ∃ I', Holds op input (Collective.setNode s r { s.node r with state := .finished }
      ((s.fabric.reset (.target_non_power_two r)).post
        (.source_non_power_two (neighbor_non_power_two r)))) I' := by
  have hx : steps r (s.node r) = 2 + 2 * number_iterations n := by simp only [steps, hs, hst, if_pos hr]
  have heven := even_neighbor hr
  have hinv := neighbor_neighbor_non_power_two hr.2
  have hnot : ¬ r.val % 2 = 0 := by have := hr.1; omega
  have hu₀ := used_target_non_power_two.mpr hr.2
  have hu₁ := used_source_non_power_two.mpr heven
  obtain ⟨v, hv, hgood, ht⟩ := h.tracks.take hset
  have hlt := h.tracks.lt_of_slot hset
  rw [sent_final _ hr, taken_final _ hr, Progress.passed_of_le (g := progress s r) (by simp [hx])] at hlt
  have hval : v = value op (round input (s.node r).run) (number_iterations n) (neighbor_non_power_two r) := by
    have := hgood rfl
    rw [taken_final _ hr, Progress.passed_of_le (g := progress s r) (by simp [hx]), progressOf_run] at this
    simpa only [Good, if_neg (fun he : is_even_non_extra_rank r => hnot he.1)] using this
  have hfree : (schedule n).sent (progress s) (.source_non_power_two (neighbor_non_power_two r)) =
      bump ((schedule n).taken (progress s)) (.target_non_power_two r)
        (.source_non_power_two (neighbor_non_power_two r)) := by
    have h1 := (progress s (neighbor_non_power_two r)).passed_le (1 + 2 * number_iterations n)
    have h2 := (progress s (neighbor_non_power_two r)).run_le_passed (3 + 2 * number_iterations n)
    have h3 := h.final_ack_le heven
    rw [hinv, Progress.passed_of_le (g := progress s r) (by simp [hx])] at h3
    rw [bump_apply, if_neg (by simp), sent_final_ack _ heven, taken_final_ack _ heven, hinv,
      Progress.passed_of_le (g := progress s r) (by simp [hx])]
    simp only [progressOf_run] at hlt h1 h2 h3 ⊢
    omega
  have hy : steps r ({ s.node r with state := .finished } : Object number_elements T) =
      4 + 2 * number_iterations n := rfl
  have hmv : Schedule.Moves (progress s) (progress (Collective.setNode s r { s.node r with state := .finished }
      ((s.fabric.reset (.target_non_power_two r)).post
        (.source_non_power_two (neighbor_non_power_two r))))) r (2 + 2 * number_iterations n)
      (4 + 2 * number_iterations n) := moves rfl hx hy (by omega)
  have hmem : ∀ l, l ≠ .target_non_power_two r →
      (I.take (wiring n) (.target_non_power_two r) v).mem l = I.mem l := by
    intro l hl
    simp [Channels.take, wiring, hl]
  refine ⟨_, h.set_moves hx hy (by omega) rfl rfl
    ((ht.post_bare rfl hfree).recount
      (hmv.tally_bump hu₁ hinv (Nat.le_refl _) (by simp only [schedule]; omega) fun p hp ho h1 h2 =>
        postAt_inj hp hu₁ (ho.trans hinv.symm) ?_)
      (hmv.tally_bump hu₀ rfl (by simp only [schedule, if_neg hnot]; omega)
        (by simp only [schedule, if_neg hnot]; omega) fun p hp ho h1 h2 => takeAt_inj hp hu₀ ho ?_))
    (by simp) (fun _ => ?_) (fun j _ hp => by simp [Pending] at hp) (fun _ _ => ?_) (fun l hl => ?_)
    (fun j hact => absurd hr (not_odd_of_active hact))⟩
  · rcases postAt_odd hp hr ho with h0 | h0
    · omega
    · exact h0
  · rw [takeAt_odd hp hr ho, takeAt_odd hu₀ hr rfl]
  · rw [contents_odd hr]
    exact (hmem (.source r) (by simp)).trans ((h.source r (.inr (.inl hs))).trans (contents_odd hr))
  · rw [← hval]
    simp [Channels.post, Channels.take, wiring]
  · exact hmem l (by rintro rfl; exact hl rfl)

/-- An extra rank is done. -/
theorem final_extra (h : Holds op input s I) (hr : is_extra_rank r) (hs : (s.node r).state = .running)
    (hst : (s.node r).fields.alg_stage = .FINAL_STEP_NON_POWER_TWO) :
    Holds op input (Collective.setNode s r { s.node r with state := .finished } s.fabric) I := by
  have hact : is_active_rank r := .inr hr
  have hx : steps r (s.node r) = 3 + 2 * number_iterations n := by
    simp only [steps, hs, hst, if_neg (not_odd_of_active hact)]
  have hy : steps r ({ s.node r with state := .finished } : Object number_elements T) =
      4 + 2 * number_iterations n := rfl
  refine h.set_quiet (by omega) (fun p hp ho hxy => ?_) (fun p hp ho hxy => ?_) rfl rfl (by simp)
    (fun _ => ⟨.inr (.inl hs), fun x => ?_⟩) (fun j hp => by simp [Pending] at hp)
    (fun hodd => absurd hr hodd.2)
  · have := (postAt_active hp hact ho).2
    omega
  · rcases takeAt_active hp hact ho with ⟨he, -⟩ | h1 | ⟨he, -⟩
    · exact he.2 hr
    · omega
    · exact he.2 hr
  · rw [contents_final hact (.inl ⟨hs, hst⟩), contents_final hact (.inr rfl)]

/-- An odd rank counts its calls. -/
theorem count (h : Holds op input s I) (hr : is_odd_non_extra_rank r) (hs : (s.node r).state = .running)
    (hst : (s.node r).fields.alg_stage = .INITIAL_STEP_NON_POWER_TWO)
    (hf : f.alg_stage = if is_last_iteration n (s.node r).fields.iteration then
      .FINAL_STEP_NON_POWER_TWO else (s.node r).fields.alg_stage)
    (hfi : f.iteration = (s.node r).fields.iteration + 1) :
    Holds op input (Collective.setNode s r { s.node r with state := .running, fields := f } s.fabric) I := by
  have hx : steps r (s.node r) = 1 := by simp [steps, hs, hst]
  have hrun := h.running r hs
  simp only [Running, hst] at hrun
  by_cases hl : is_last_iteration n (s.node r).fields.iteration
  · rw [if_pos hl] at hf
    have hy : steps r ({ s.node r with state := .running, fields := f } : Object number_elements T) =
        2 + 2 * number_iterations n := by simp only [steps, hf, if_pos hr]
    refine h.set_quiet (by omega) (fun p hp ho hxy => ?_) (fun p hp ho hxy => ?_) rfl rfl
      (fun _ => by simp only [Running, hf])
      (fun _ => ⟨.inr (.inl hs), fun x => by rw [contents_odd hr, contents_odd hr]⟩)
      (fun j hp => by have := hf.symm.trans hp.2.1; cases this) (by simp)
    · have := postAt_odd hp hr ho
      omega
    · have := takeAt_odd hp hr ho
      omega
  · rw [if_neg hl, hst] at hf
    have hy : steps r ({ s.node r with state := .running, fields := f } : Object number_elements T) = 1 := by
      simp only [steps, hf]
    refine h.set_quiet (by omega) (fun p hp ho hxy => by omega) (fun p hp ho hxy => by omega) rfl rfl
      (fun _ => ?_) (fun _ => ⟨.inr (.inl hs), fun x => by rw [contents_odd hr, contents_odd hr]⟩)
      (fun j hp => by have := hf.symm.trans hp.2.1; cases this) (by simp)
    simp only [is_last_iteration] at hl
    simp only [Running, hf, hfi]
    exact ⟨hr.2, by omega, fun he => absurd he.1 (by have := hr.1; omega)⟩

/-! ## The initial step -/

/-- An even rank has its partner's vector, reduces it and sends its data of the first iteration. -/
theorem initial_set (h : Holds op input s I) (hr : is_even_non_extra_rank r) (hs : (s.node r).state = .running)
    (hst : (s.node r).fields.alg_stage = .INITIAL_STEP_NON_POWER_TWO) (hL : 1 ≤ number_iterations n)
    (hset : s.fabric.slot (.target_non_power_two r) = true) (hf : f.alg_stage = .WAIT_FOR_DATA)
    (hfi : f.iteration = 0) (hclear : Clear s r 0) :
    ∃ I', Holds op input (Collective.setNode s r { s.node r with state := .running, fields := f }
      ((apply_reduce_op op (wiring n) (s.fabric.reset (.target_non_power_two r)) (.source r 0)
        (.target_non_power_two r)).post (.target (neighbor r 0) 0))) I' := by
  have hact : is_active_rank r := .inl hr
  have hx : steps r (s.node r) = 1 := by simp [steps, hs, hst]
  have hinv := neighbor_neighbor (i := 0) hL hact
  have hu₀ := used_target_non_power_two.mpr hr.2
  have hu₁ := used_target.mpr ⟨active_neighbor (i := 0) hL r, hL⟩
  obtain ⟨v, hv, hgood, ht⟩ := h.tracks.take hset
  have hval : v = input (neighbor_non_power_two r) (s.node r).run := by
    have := hgood rfl
    rw [taken_initial _ hr, Progress.passed_of_le (g := progress s r) (by simp [hx]), progressOf_run] at this
    simpa only [Good, if_pos hr] using this
  have htarget : s.fabric.mem (.target_non_power_two r) = input (neighbor_non_power_two r) (s.node r).run := by
    have hle := h.tracks.sent_le (.target_non_power_two r)
    have hlt := h.tracks.lt_of_slot hset
    have hmem := ht.mem_eq (l := .target_non_power_two r) fun q hq hlt' =>
      apart_of_eq (p := .target_non_power_two r) rfl (by rw [bump_apply, if_pos rfl]; omega) hq hlt'
    rw [Fabric.reset_mem] at hmem
    rw [hmem, ← hval]
    simp [Channels.take, wiring]
  have hsource : s.fabric.mem (.source r) = input r (s.node r).run := by
    rw [h.mem_source, h.source r (.inr (.inl hs)), contents_initial hst hs]
  have happly : apply_reduce_op op (wiring n) (s.fabric.reset (.target_non_power_two r)) (.source r 0)
      (.target_non_power_two r) = (s.fabric.reset (.target_non_power_two r)).write (.source r)
        (value op (round input (s.node r).run) 0 r) := by
    rw [value_zero_even hr]
    simp only [apply_reduce_op, wiring, Fabric.reset_mem, hsource, htarget]
    rfl
  rw [happly]
  have hw := ht.write (l := .source r) (value op (round input (s.node r).run) 0 r)
    (fun _ hq _ => loc_ne_source hq)
    (fun q hq hfl => h.no_reader (fun _ j _ h1 _ => by omega) (fun _ => by omega)
      (fun ho => absurd ho (not_odd_of_active hact)) hq hfl)
  obtain ⟨hsent, htaken⟩ := h.free_data hact (i := 0) hL (by omega)
  have hpost := post_data hw (p := .target (neighbor r 0) 0) rfl
    (by rw [bump_apply, if_neg (by simp), hsent, htaken]; rfl) (by
      rw [hsent]
      simp only [Good, wiring, hinv]
      simp [Channels.write])
  have hmv : Schedule.Moves (progress s) (progress (Collective.setNode s r
      { s.node r with state := .running, fields := f }
      (((s.fabric.reset (.target_non_power_two r)).write (.source r)
        (value op (round input (s.node r).run) 0 r)).post (.target (neighbor r 0) 0)))) r 1 (1 + 1) :=
    moves rfl hx (by simp [steps, hf, hfi]) (Nat.le_succ 1)
  refine ⟨_, h.set_moves hx (y := 1 + 1) (by simp [steps, hf, hfi]) (Nat.le_succ _) rfl rfl
    (hpost.recount (hmv.tally_step hu₁ hinv rfl fun p hp hs ha => postAt_inj hp hu₁ hs ha)
      (hmv.tally_step hu₀ rfl (if_pos hr.1) fun p hp hs ha => takeAt_inj hp hu₀ hs ha))
    (fun _ => ?_) (fun _ => ?_) (fun j _ hp => by have := hf.symm.trans hp.2.1; cases this) (by simp)
    (fun l hl => ?_) (fun j _ _ h1 h2 => ?_)⟩
  · simp only [Running, hf, hfi]
    exact ⟨hact, hL⟩
  · rw [contents_wait hact rfl (.inl hf), hfi]
    simp [Channels.post, Channels.write]
  · have h1 : l ≠ .source r := by rintro rfl; exact hl rfl
    have h2 : l ≠ .target_non_power_two r := by rintro rfl; exact hl rfl
    simp [Channels.post, Channels.write, Channels.take, wiring, h1, h2]
  · obtain rfl : j = 0 := by omega
    exact hclear

/-! ## The call -/

/-- Nothing has arrived: the call changes nothing. -/
theorem stay (h : Holds op input s I) (hs : (s.node r).state = .running) :
    Holds op input (Collective.setNode s r
      { s.node r with state := .running, fields := (s.node r).fields } s.fabric) I := by
  rw [← hs]
  rwa [show Collective.setNode s r { s.node r with } s.fabric = s from Collective.setNode_same s r]

/-- The call behind the initial step. -/
theorem proceed (h : Holds op input s I) (hs : (s.node r).state = .running)
    (hnot : ¬ (is_even_non_extra_rank r ∧ (s.node r).fields.alg_stage = .INITIAL_STEP_NON_POWER_TWO))
    (hp : proceedImpl op r (s.node r).fields s.fabric = (done, f, F))
    (hclear : ∀ i, Pending (s.node r) i → s.fabric.slot (.source r i) = true → i + 1 < number_iterations n →
      Clear s r (i + 1)) :
    ∃ I', Holds op input (Collective.setNode s r
      { s.node r with state := if done then .finished else .running, fields := f } F) I' := by
  have hrun := h.running r hs
  cases hst : (s.node r).fields.alg_stage with
  | NOT_STARTED => simp only [Running, hst] at hrun
  | INITIAL_STEP_NON_POWER_TWO =>
    simp only [Running, hst] at hrun
    have hodd : is_odd_non_extra_rank r := ⟨by
      have : ¬ r.val % 2 = 0 := fun he => hnot ⟨⟨he, hrun.1⟩, hst⟩
      omega, hrun.1⟩
    rw [proceedImpl_count hst hodd] at hp
    cases hp
    exact ⟨I, h.count hodd hs hst rfl rfl⟩
  | WAIT_FOR_DATA =>
    simp only [Running, hst] at hrun
    cases hslot : s.fabric.slot (.target r (s.node r).fields.iteration) with
    | true =>
      rw [proceedImpl_data_set hst hrun.1 hslot] at hp
      cases hp
      exact h.data hrun.1 hs hst rfl hrun.2 hslot rfl rfl
    | false =>
      rw [proceedImpl_data_clear hst hrun.1 hslot] at hp
      cases hp
      exact ⟨I, h.stay hs⟩
  | WAIT_FOR_ACK =>
    simp only [Running, hst] at hrun
    cases hslot : s.fabric.slot (.source r (s.node r).fields.iteration) with
    | true =>
      rcases Nat.lt_or_ge ((s.node r).fields.iteration + 1) (number_iterations n) with hi | hi
      · rw [proceedImpl_ack_next hst hrun.1 hslot hi] at hp
        cases hp
        exact h.ack_next hrun.1 ⟨hs, hst, rfl⟩ hi hslot rfl rfl (hclear _ ⟨hs, hst, rfl⟩ hslot hi)
      · rw [proceedImpl_ack_last hst hrun.1 hslot (by omega)] at hp
        cases hp
        exact h.ack_last hrun.1 ⟨hs, hst, rfl⟩ (by omega) hslot rfl
    | false =>
      rw [proceedImpl_ack_clear hst hrun.1 hslot] at hp
      cases hp
      exact ⟨I, h.stay hs⟩
  | FINAL_STEP_NON_POWER_TWO =>
    by_cases heven : is_even_non_extra_rank r
    · rw [proceedImpl_final_ack hst heven] at hp
      cases hp
      cases hslot : s.fabric.slot (.source_non_power_two r) with
      | true => exact h.final_ack heven hs hst hslot
      | false => rw [Fabric.reset_of_clear hslot]; exact ⟨I, h.stay hs⟩
    · by_cases hextra : is_extra_rank r
      · rw [proceedImpl_final_extra hst hextra] at hp
        cases hp
        exact ⟨I, h.final_extra hextra hs hst⟩
      · have hodd : is_odd_non_extra_rank r := ⟨by
          have : ¬ r.val % 2 = 0 := fun he => heven ⟨he, hextra⟩
          omega, hextra⟩
        cases hslot : s.fabric.slot (.target_non_power_two r) with
        | true =>
          rw [proceedImpl_final_set hst hodd hslot] at hp
          cases hp
          exact h.final_set hodd hs hst hslot
        | false =>
          rw [proceedImpl_final_clear hst hodd hslot] at hp
          cases hp
          exact ⟨I, h.stay hs⟩

theorem trigger (h : Holds op input s I) (hN : 0 < number_elements) (hn : 2 ≤ n)
    (hs : (s.node r).state = .running)
    (ht : triggerProgressImpl op r (s.node r).fields s.fabric = (done, f, F))
    (hcare : Careful s r .triggerProgress) :
    ∃ I', Holds op input (Collective.setNode s r
      { s.node r with state := if done then .finished else .running, fields := f } F) I' := by
  by_cases hinit : is_even_non_extra_rank r ∧ (s.node r).fields.alg_stage = .INITIAL_STEP_NON_POWER_TWO
  · obtain ⟨heven, hst⟩ := hinit
    cases hslot : s.fabric.slot (.target_non_power_two r) with
    | false =>
      rw [triggerProgressImpl_initial_clear hN hn hst heven hslot] at ht
      cases ht
      exact ⟨I, h.stay hs⟩
    | true =>
      have hit : (s.node r).fields.iteration = 0 := by
        have := h.running r hs
        simp only [Running, hst] at this
        exact this.2.2 heven
      rw [triggerProgressImpl_initial_set hN hn hst heven hslot, hit] at ht
      obtain ⟨I₁, hI₁⟩ := h.initial_set
        (f := { (s.node r).fields with iteration := 0, alg_stage := .WAIT_FOR_DATA }) heven hs hst
        (iterations_pos hn) hslot rfl rfl (hcare 0 (by simp [posts, hs, hst, heven, hslot]))
      -- the first iteration starts from there
      obtain ⟨I₂, hI₂⟩ := hI₁.proceed (r := r) (f := f) (F := F)
        (by rw [Collective.setNode_self]) (by rw [Collective.setNode_self]; simp)
        (by rw [Collective.setNode_self]; exact ht)
        (fun i hp => by rw [Collective.setNode_self] at hp; simp [Pending] at hp)
      refine ⟨I₂, ?_⟩
      simpa only [Collective.setNode, Function.update_idem, Function.update_self] using hI₂
  · rw [triggerProgressImpl_proceed hN hn hinit] at ht
    refine h.proceed hs hinit ht fun i hp hset hi => hcare (i + 1) ?_
    obtain ⟨-, hst, rfl⟩ := hp
    simp [posts, hs, hst, hset, hi]

/-- **Every careful call keeps the invariant.** -/
theorem call (h : Holds op input s I) (hN : 0 < number_elements) (hn : 2 ≤ n) {c : Call}
    {t : GroupSys n number_elements T}
    (ha : (allreduce n number_elements op).Stepped input s (.call r c) t) (hcare : Careful s r c) :
    ∃ I', Holds op input t I' := by
  cases ha with
  | waitForSetup hs => exact ⟨I, h.waitForSetup hs⟩
  | copyIn hs hc => exact h.copyIn hN hn hs hc
  | start hs hc => exact h.start hN hn hs hc hcare
  | trigger hs ht => exact h.trigger hN hn hs ht hcare
  | idle => exact ⟨I, h⟩
  | copyOut hs => exact ⟨I, h.copyOut hN hn hs⟩

end Holds

end GaspiCxx.Collectives.AllreduceRecursiveDoubling
