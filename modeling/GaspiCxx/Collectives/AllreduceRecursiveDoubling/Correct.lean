import GaspiCxx.Collectives.AllreduceRecursiveDoubling.Trigger

/-!
# Correctness of the recursive-doubling allreduce

One run is correct under every interleaving: all ranks get the same vector, the
fold of all inputs. Over several runs a rank may send the next run's data over
data its partner has acknowledged but not reduced; it does not if it waits for
its partner to be done with it.
-/

namespace GaspiCxx.Collectives.AllreduceRecursiveDoubling

open OneSided SingleSided AllreduceCommon

variable {n number_elements : Nat} {T : Type} (op : T → T → T)
  (input : Fin n → Nat → Vec number_elements T)

/-- `out` is what rank `r` has copied out, or would copy out now. -/
def Returns (s : GroupSys n number_elements T) (r : Fin n) (out : Option (Vec number_elements T)) : Prop :=
  out ∈ (s.node r).outputs ∨
    (s.node r).state = .finished ∧ out = copyOutImpl r (s.node r).fields s.fabric

/-- What one run promises. -/
structure OneRun [Std.Commutative op] [Std.Associative op] (s : GroupSys n number_elements T) : Prop where
  /-- The fold may start from any rank's input. -/
  result : ∀ r out, Returns s r out → ∀ q,
    out = some ((Finset.univ.erase q).fold (combine op) (input q 0) (round input 0))
  detached : ∀ r, (s.node r).state = .finished → (schedule n).Detached s.fabric r
  live : s.fabric.Delivered → (∃ r, Unfinished (s.node r)) →
    ∃ r, Unfinished (s.node r) ∧ (allreduce n number_elements op).Proceeds input s r

/-- What consecutive runs promise. -/
structure Isolated (s : GroupSys n number_elements T) : Prop where
  /-- No step changes data that is observed and not reduced yet. -/
  undisturbed : ∀ r i, Pending (s.node r) i → ∀ a t, (allreduce n number_elements op).step input s a = some t →
    t.fabric.mem (.target r i) = s.fabric.mem (.target r i)
  operand : ∀ r i, Pending (s.node r) i →
    s.fabric.mem (.target r i) = value op (round input (s.node r).run) i (neighbor r i)
  outputs : 1 ≤ number_elements → ∀ r k out, (s.node r).outputs[k]? = some out →
    out = some (result op (round input k) r)

/-- A rank posts the data of an iteration only when its partner is not about to
reduce data of that iteration. -/
def WaitsForPartner (s : GroupSys n number_elements T) : Action (Fin n) (Port n) → Prop
  | .call r c => ∀ i ∈ posts s r c, ¬ Pending (s.node (neighbor r i)) i
  | .advance _ _ => True

variable {op input} {s t : GroupSys n number_elements T}
  {I : Channels (Port n) (Loc n) (Vec number_elements T)} {r : Fin n} {i : Nat}
  {m : Loc n → Vec number_elements T}

namespace Holds

/-! ## Careful calls -/

theorem posts_at (h : Holds op input s I) (hn : 2 ≤ n) {c : Call}
    (ha : (allreduce n number_elements op).Stepped input s (.call r c) t) (hp : posts s r c = some i) :
    is_active_rank r ∧ i < number_iterations n ∧ steps r (s.node r) ≤ 1 + 2 * i := by
  have hL := iterations_pos hn
  cases ha with
  | waitForSetup | copyIn | copyOut => cases hp
  | start hs _ =>
    simp only [posts] at hp
    split at hp
    · next hextra => cases hp; exact ⟨.inr hextra, hL, by simp [steps, hs]⟩
    · cases hp
  | idle hs => simp [posts, hs] at hp
  | trigger hs _ =>
    have hrun := h.running r hs
    simp only [posts, hs, if_true] at hp
    cases hst : (s.node r).fields.alg_stage with
    | INITIAL_STEP_NON_POWER_TWO =>
      simp only [hst] at hp
      split at hp
      · next heven => cases hp; exact ⟨.inl heven.1, hL, by simp [steps, hs, hst]⟩
      · cases hp
    | WAIT_FOR_ACK =>
      simp only [Running, hst] at hp hrun
      split at hp
      · next hi => cases hp; exact ⟨hrun.1, hi.2, by simp only [steps, hs, hst]; omega⟩
      · cases hp
    | NOT_STARTED | WAIT_FOR_DATA | FINAL_STEP_NON_POWER_TWO => simp only [hst] at hp; cases hp

/-- The partner has acknowledged the data of the run before; if it is not about
to reduce it, it has. -/
theorem clear_of_not_pending (h : Holds op input s I) (hr : is_active_rank r) (hi : i < number_iterations n)
    (hst : steps r (s.node r) ≤ 1 + 2 * i) (hno : ¬ Pending (s.node (neighbor r i)) i) : Clear s r i := by
  have hack := h.ack_le hr hi
  rw [Progress.passed_of_le (g := progress s r) (by simp only [progressOf_steps]; omega), progressOf_run] at hack
  have hne : steps (neighbor r i) (s.node (neighbor r i)) ≠ 3 + 2 * i := fun hx => hno (pending_of_steps hi hx)
  rw [Clear]
  rcases Nat.lt_or_ge (3 + 2 * i) (steps (neighbor r i) (s.node (neighbor r i))) with hx | hx
  · rw [Progress.passed_of_lt (by simp only [progressOf_steps]; omega)] at hack ⊢
    exact hack
  · rw [Progress.passed_of_le (by simp only [progressOf_steps]; omega)] at hack ⊢
    exact hack

/-! ## No rank waits for nothing -/

/-- With nothing in flight, the call that is due on a rank behind all others
changes its object. -/
theorem proceeds (h : Holds op input s I) (hN : 0 < number_elements) (hn : 2 ≤ n) (hd : s.fabric.Delivered)
    (hr : ∀ q, (progress s r).Behind (progress s q)) : (allreduce n number_elements op).Proceeds input s r := by
  by_cases hs : (s.node r).state = .running
  · have hrun := h.running r hs
    have stage : ∀ {f : Fields number_elements T}, f.alg_stage ≠ (s.node r).fields.alg_stage →
        f ≠ (s.node r).fields := fun hne he => hne (congrArg Fields.alg_stage he)
    have iteration : ∀ {f : Fields number_elements T}, f.iteration = (s.node r).fields.iteration + 1 →
        f ≠ (s.node r).fields := fun hx he => by have := congrArg Fields.iteration he; omega
    have later (hne : (s.node r).fields.alg_stage ≠ .INITIAL_STEP_NON_POWER_TWO) :
        triggerProgressImpl op r (s.node r).fields s.fabric = proceedImpl op r (s.node r).fields s.fabric :=
      triggerProgressImpl_proceed hN hn fun hx => hne hx.2
    cases hst : (s.node r).fields.alg_stage with
    | NOT_STARTED => simp only [Running, hst] at hrun
    | INITIAL_STEP_NON_POWER_TWO =>
      simp only [Running, hst] at hrun
      by_cases heven : is_even_non_extra_rank r
      · have hact : is_active_rank r := .inl heven
        have hslot := Schedule.awaited (S := schedule n) h.tracks (p := .target_non_power_two r) hr
          (used_target_non_power_two.mpr heven.2)
          (by simp only [schedule, if_pos heven.1, progressOf_steps, steps, hs, hst])
          (by simp only [schedule, if_pos heven.1]; omega) (hd _)
        have ht : triggerProgressImpl op r (s.node r).fields s.fabric = _ :=
          triggerProgressImpl_initial_set hN hn hst heven hslot
        -- the call goes on to the first iteration, and may find its data
        cases hdata : ((apply_reduce_op op (wiring n) (s.fabric.reset (.target_non_power_two r))
            (.source r (s.node r).fields.iteration) (.target_non_power_two r)).post
            (.target (neighbor r (s.node r).fields.iteration) (s.node r).fields.iteration)).slot
            (.target r (s.node r).fields.iteration) with
        | true =>
          rw [proceedImpl_data_set (f := { (s.node r).fields with alg_stage := .WAIT_FOR_DATA }) rfl hact hdata] at ht
          exact Collective.proceeds_of_trigger hs ht (.inr (stage (by simp [hst])))
        | false =>
          rw [proceedImpl_data_clear (f := { (s.node r).fields with alg_stage := .WAIT_FOR_DATA }) rfl hact hdata] at ht
          exact Collective.proceeds_of_trigger hs ht (.inr (stage (by simp [hst])))
      · have hodd : is_odd_non_extra_rank r := ⟨by
          have : ¬ r.val % 2 = 0 := fun he => heven ⟨he, hrun.1⟩
          omega, hrun.1⟩
        exact Collective.proceeds_of_trigger hs
          ((triggerProgressImpl_proceed hN hn fun hx => heven hx.1).trans (proceedImpl_count hst hodd))
          (.inr (iteration rfl))
    | WAIT_FOR_DATA =>
      simp only [Running, hst] at hrun
      have hslot := Schedule.awaited (S := schedule n) h.tracks (p := .target r (s.node r).fields.iteration) hr
        (used_target.mpr hrun) (by simp only [schedule, progressOf_steps, steps, hs, hst])
        (by simp only [schedule]; omega) (hd _)
      exact Collective.proceeds_of_trigger hs
        ((later (by simp [hst])).trans (proceedImpl_data_set hst hrun.1 hslot)) (.inr (stage (by simp [hst])))
    | WAIT_FOR_ACK =>
      simp only [Running, hst] at hrun
      have hslot := Schedule.awaited (S := schedule n) h.tracks (p := .source r (s.node r).fields.iteration) hr
        (used_source.mpr hrun) (by simp only [schedule, progressOf_steps, steps, hs, hst])
        (by simp only [schedule]; omega) (hd _)
      have hpro := later (by simp [hst])
      rcases Nat.lt_or_ge ((s.node r).fields.iteration + 1) (number_iterations n) with hi | hi
      · exact Collective.proceeds_of_trigger hs (hpro.trans (proceedImpl_ack_next hst hrun.1 hslot hi))
          (.inr (iteration rfl))
      · exact Collective.proceeds_of_trigger hs (hpro.trans (proceedImpl_ack_last hst hrun.1 hslot (by omega)))
          (.inr (iteration rfl))
    | FINAL_STEP_NON_POWER_TWO =>
      have hpro := later (by simp [hst])
      by_cases hextra : is_extra_rank r
      · exact Collective.proceeds_of_trigger hs (hpro.trans (proceedImpl_final_extra hst hextra)) (.inl rfl)
      · by_cases heven : is_even_non_extra_rank r
        · have hslot := Schedule.awaited (S := schedule n) h.tracks (p := .source_non_power_two r) hr
            (used_source_non_power_two.mpr heven)
            (by simp only [schedule, progressOf_steps, steps, hs, hst, if_neg (not_odd_of_active (.inl heven))])
            (by simp only [schedule]; omega) (hd _)
          exact Collective.proceeds_of_trigger hs (hpro.trans (proceedImpl_final_ack hst heven)) (.inl hslot)
        · have hodd : is_odd_non_extra_rank r := ⟨by
            have : ¬ r.val % 2 = 0 := fun he => heven ⟨he, hextra⟩
            omega, hextra⟩
          have hnot : ¬ r.val % 2 = 0 := by have := hodd.1; omega
          have hslot := Schedule.awaited (S := schedule n) h.tracks (p := .target_non_power_two r) hr
            (used_target_non_power_two.mpr hextra)
            (by simp only [schedule, progressOf_steps, steps, hs, hst, if_pos hodd, if_neg hnot])
            (by simp only [schedule, if_neg hnot]; omega) (hd _)
          exact Collective.proceeds_of_trigger hs (hpro.trans (proceedImpl_final_set hst hodd hslot)) (.inl rfl)
  · exact Collective.proceeds_of_not_running hs

/-! ## A finished rank -/

/-- In the first run whatever is sent is sent once, and a finished rank has
taken all of it and has had all of its own acknowledged. -/
theorem detached (h : Holds op input s I) (hle : ∀ q i, (progress s q).passed i ≤ 1)
    (hs : (s.node r).state = .finished) : (schedule n).Detached s.fabric r := by
  have hself : ∀ i, i < 4 + 2 * number_iterations n → 1 ≤ (progress s r).passed i := by
    intro i hi
    rw [Progress.passed_of_lt (by rw [progressOf_steps, steps_finished hs]; exact hi)]
    omega
  have idle : ∀ p, ((schedule n).used p = true → 1 ≤ (schedule n).taken (progress s) p) →
      s.fabric.flight p = [] := by
    intro p hp
    by_contra hf
    have hlt := h.tracks.lt_of_flight hf
    have hu := Schedule.used_of_lt hlt
    have := hle ((schedule n).sender p) ((schedule n).postAt p)
    rw [← Schedule.sent_used hu] at this
    have := hp hu
    omega
  refine ⟨fun p hp => idle p fun hu => ?_, fun p hc hp => idle p fun hu => ?_⟩
  · rw [Schedule.taken_used hu, hp]
    apply hself _
    cases p with
    | target q i => have := (used_target.mp hu).2; simp only [schedule]; omega
    | source q i => have := (used_source.mp hu).2; simp only [schedule]; omega
    | source_non_power_two q => simp only [schedule]; omega
    | target_non_power_two q => simp only [schedule]; split <;> omega
  · cases p with
    | source | source_non_power_two => simp [schedule, wiring] at hc
    | target q i =>
      obtain ⟨hq, hi⟩ := used_target.mp hu
      obtain rfl : neighbor q i = r := hp
      have hack := h.ack_le (active_neighbor hi q) hi
      rw [neighbor_neighbor hi hq] at hack
      rw [taken_target _ hq hi]
      exact Nat.le_trans (hself _ (by omega)) hack
    | target_non_power_two q =>
      have hne := used_target_non_power_two.mp hu
      obtain rfl : neighbor_non_power_two q = r := hp
      have hinv := neighbor_neighbor_non_power_two hne
      by_cases heven : is_even_non_extra_rank q
      · have h1 := h.final_le (odd_neighbor heven)
        rw [hinv] at h1
        rw [taken_initial _ heven]
        exact Nat.le_trans (hself _ (by omega)) (Nat.le_trans h1 (Progress.passed_anti (by omega)))
      · have hodd : is_odd_non_extra_rank q := ⟨by
          have : ¬ q.val % 2 = 0 := fun he => heven ⟨he, hne⟩
          omega, hne⟩
        have h1 := h.final_ack_le (even_neighbor hodd)
        rw [hinv] at h1
        rw [taken_final _ hodd]
        exact Nat.le_trans (hself _ (by omega)) h1

end Holds

/-! ## Runs -/

theorem holds_of_first (hN : 0 < number_elements) (hn : 2 ≤ n)
    (h : (allreduce n number_elements op).Reach input m FirstRun s) : ∃ I, Holds op input s I := by
  refine Collective.Reach.invariant (P := fun s => ∃ I, Holds op input s I) ⟨_, Holds.initial m⟩ ?_ h
  rintro s a t ⟨I, hI⟩ hg ha
  cases a with
  | call r c =>
    refine hI.call hN hn ha fun i _ => ?_
    rw [Clear, show (s.node r).run = 0 from hg]
    exact Nat.zero_le _
  | advance p i => cases ha with | network hG => exact ⟨I, hI.network hG⟩

theorem holds_of_waiting (hN : 0 < number_elements) (hn : 2 ≤ n)
    (h : (allreduce n number_elements op).Reach input m WaitsForPartner s) : ∃ I, Holds op input s I := by
  refine Collective.Reach.invariant (P := fun s => ∃ I, Holds op input s I) ⟨_, Holds.initial m⟩ ?_ h
  rintro s a t ⟨I, hI⟩ hg ha
  cases a with
  | call r c =>
    refine hI.call hN hn ha fun i hp => ?_
    obtain ⟨hr, hi, hst⟩ := hI.posts_at hn ha hp
    exact hI.clear_of_not_pending hr hi hst (hg i hp)
  | advance p i => cases ha with | network hG => exact ⟨I, hI.network hG⟩

theorem returns_result (hN : 0 < number_elements) (hn : 2 ≤ n)
    (h : (allreduce n number_elements op).Reach input m FirstRun s) {out : Option (Vec number_elements T)}
    (hr : Returns s r out) : out = some (result op (round input 0) r) := by
  obtain ⟨I, hI⟩ := holds_of_first hN hn h
  rcases hr with hr | ⟨hs, rfl⟩
  · exact hI.outputs r 0 out (h.getElem?_of_mem_outputs hr)
  · rw [hI.copyOutImpl_finished hN hn hs, h.run_of_finished hs]

/-- Without elements nothing is copied out. -/
theorem returns_none {m : Loc n → Vec 0 T} {s : GroupSys n 0 T} {input : Fin n → Nat → Vec 0 T}
    {guard : GroupSys n 0 T → Action (Fin n) (Port n) → Prop} (h : (allreduce n 0 op).Reach input m guard s)
    {out : Option (Vec 0 T)} (hr : Returns s r out) : out = none := by
  have hnone : ∀ f F, copyOutImpl r f F = (none : Option (Vec 0 T)) := fun f F => by simp [copyOutImpl]
  rcases hr with hr | ⟨-, rfl⟩
  · obtain ⟨f, F, rfl⟩ := h.exists_copyOut r out hr
    exact hnone f F
  · exact hnone _ _

/-- In the one run every position is passed once at most. -/
theorem passed_le_one (h : (allreduce n number_elements op).Reach input m FirstRun s) (q : Fin n) (i : Nat) :
    (progress s q).passed i ≤ 1 := by
  rcases h.first_run q with h0 | ⟨h1, hs⟩
  · exact Nat.le_trans ((progress s q).passed_le i) (by simp [h0])
  · rw [Progress.passed_of_le (by simp [steps, hs]), progressOf_run, h1]

/-! ## Nobody's call writes a target buffer -/

section

variable {q : Fin n} {f : Fields number_elements T} {F : Net number_elements n T}

theorem apply_reduce_op_mem_target {j : Nat} {p : Port n} :
    (apply_reduce_op op (wiring n) F (.source q j) p).mem (.target r i) = F.mem (.target r i) := by
  simp [apply_reduce_op, wiring, Fabric.write_mem]

theorem next_iteration_mem : (next_iteration q f F).2.2.mem = F.mem := by
  unfold next_iteration
  split
  · dsimp only; split <;> rfl
  · rfl

theorem proceedImpl_mem_target : (proceedImpl op q f F).2.2.mem (.target r i) = F.mem (.target r i) := by
  unfold proceedImpl
  split
  · split
    · rfl
    · split
      · exact congrFun checkForTransferAck_mem _
      · split
        · dsimp only
          split <;> exact congrFun checkForCompletion_mem _
        · rfl
  · split
    · split
      · dsimp only
        split <;> exact congrFun checkForCompletion_mem _
      · dsimp only
        split
        · exact congrFun checkForTransferAck_mem _
        · split
          · rw [next_iteration_mem, initTransfer_mem, apply_reduce_op_mem_target, checkForTransferAck_mem]
          · rw [next_iteration_mem, apply_reduce_op_mem_target, checkForTransferAck_mem]
      · rfl
    · rw [next_iteration_mem]

theorem triggerProgressImpl_mem_target :
    (triggerProgressImpl op q f F).2.2.mem (.target r i) = F.mem (.target r i) := by
  unfold triggerProgressImpl
  split
  · rfl
  · split
    · dsimp only
      split
      · exact congrFun checkForCompletion_mem _
      · rw [proceedImpl_mem_target, initTransfer_mem, apply_reduce_op_mem_target, checkForCompletion_mem]
    · exact proceedImpl_mem_target

theorem call_mem_target {c : Call} (h : (allreduce n number_elements op).Stepped input s (.call q c) t) :
    t.fabric.mem (.target r i) = s.fabric.mem (.target r i) := by
  cases h with
  | waitForSetup | idle | copyOut => rfl
  | copyIn _ hc =>
    replace hc : copyInImpl q (input q (s.node q).run) (s.node q).fields s.fabric = _ := hc
    unfold copyInImpl at hc
    split at hc
    · split at hc <;> cases hc <;> simp [wiring, Fabric.write_mem]
    · split at hc <;> cases hc <;> rfl
  | start _ hc =>
    replace hc : startImpl q (s.node q).fields s.fabric = _ := hc
    unfold startImpl at hc
    split at hc
    · cases hc; rfl
    · cases hc
      dsimp only [Collective.setNode]
      split <;> split <;> rfl
  | trigger _ hc =>
    have hm : (triggerProgressImpl op q (s.node q).fields s.fabric).2.2.mem (.target r i) =
        s.fabric.mem (.target r i) := triggerProgressImpl_mem_target
    rwa [show triggerProgressImpl op q (s.node q).fields s.fabric = _ from hc] at hm

end

/-! ## Two and three ranks with one element each -/

section

instance (N : Object number_elements T) (i : Nat) : Decidable (Pending N i) := by
  unfold Pending; infer_instance

instance (s : GroupSys n number_elements T) : DecidablePred (WaitsForPartner s)
  | .call r c => inferInstanceAs (Decidable (∀ i ∈ posts s r c, ¬ Pending (s.node (neighbor r i)) i))
  | .advance _ _ => inferInstanceAs (Decidable True)

def tag (n : Nat) (r : Fin n) (k : Nat) : Vec 1 Nat := fun _ => 10 * k + r

def enter (r : Fin n) : List (Action (Fin n) (Port n)) := [.call r .copyIn, .call r .start]

/-- The transfer to port `p` is read, stored and notified. -/
def deliver (p : Port n) : List (Action (Fin n) (Port n)) := List.replicate 3 (.advance p 0)

def setup (n : Nat) : List (Action (Fin n) (Port n)) :=
  (List.finRange n).map fun r => .call r .waitForSetup

/-- The three ranks, even, odd and extra, complete a run. -/
def exchange : List (Action (Fin 3) (Port 3)) :=
  enter 0 ++ enter 1 ++ enter 2 ++ deliver (.target_non_power_two 0) ++ deliver (.target 0 0) ++
    [.call 0 .triggerProgress] ++ deliver (.target 2 0) ++
    [.call 2 .triggerProgress, .advance (.source 0 0) 0, .advance (.source 2 0) 0, .call 0 .triggerProgress,
      .call 2 .triggerProgress, .call 2 .triggerProgress, .call 1 .triggerProgress] ++
    deliver (.target_non_power_two 1) ++
    [.call 1 .triggerProgress, .advance (.source_non_power_two 0) 0, .call 0 .triggerProgress]

def collect : List (Action (Fin 3) (Port 3)) := [.call 0 .copyOut, .call 1 .copyOut, .call 2 .copyOut]

/-- Rank `a` has acknowledged; before it sees its own acknowledgement, rank `b`
completes the run and sends the data of the next one. -/
def overtake (a b : Fin 2) : List (Action (Fin 2) (Port 2)) :=
  enter a ++ enter b ++ deliver (.target a 0) ++ deliver (.target b 0) ++
    [.call a .triggerProgress, .call b .triggerProgress, .advance (.source b 0) 0, .call b .triggerProgress,
      .call b .triggerProgress, .call b .copyOut] ++
    enter b ++ deliver (.target a 0)

/-- A commutative operation that is not associative. -/
def average (a b : Nat) : Nat := (a + b) / 2

instance : Std.Commutative average := ⟨fun a b => by rw [average, average, Nat.add_comm]⟩

end

/-! ## Results -/

/-- **One run of the recursive-doubling allreduce is correct under every interleaving.** -/
theorem allreduce_recursive_doubling_one_run [Std.Commutative op] [Std.Associative op] (hn : 2 ≤ n)
    (hN : 1 ≤ number_elements) (h : (allreduce n number_elements op).Reach input m FirstRun s) :
    OneRun op input s := by
  obtain ⟨I, hI⟩ := holds_of_first hN hn h
  refine ⟨fun r out hr q => ?_, fun r hs => hI.detached (passed_le_one h) hs, fun hd hu => ?_⟩
  · rw [returns_result hN hn h hr, result_fold r q]
  · obtain ⟨r, h0, hfin, hr⟩ := exists_behind_in_run steps (fun _ => Nat.zero_le _)
      (fun r hs => steps_finished hs) (fun r hs => hI.steps_lt hs) hu
    exact ⟨r, ⟨h0, hfin⟩, hI.proceeds hN hn hd hr⟩

theorem allreduce_recursive_doubling_one_run_exchange :
    ∃ s, (allreduce 3 1 (fun a b : Nat => a + b)).Reach (tag 3) (fun _ _ => 7) FirstRun s ∧
      (∀ r, (s.node r).state = .finished) ∧ OneRun (fun a b : Nat => a + b) (tag 3) s := by
  obtain ⟨s, hs, hfin⟩ : ∃ s, (allreduce 3 1 (fun a b : Nat => a + b)).Reach (tag 3) (fun _ _ => 7) FirstRun s ∧
      ∀ r, (s.node r).state = .finished := exists_reaches_of_exec (setup 3 ++ exchange) (by decide)
  exact ⟨s, hs, hfin, allreduce_recursive_doubling_one_run (by decide) (by decide) hs⟩

/-- **All ranks get identical results from any commutative operation.** -/
theorem allreduce_recursive_doubling_agree [Std.Commutative op] (hn : 2 ≤ n)
    (h : (allreduce n number_elements op).Reach input m FirstRun s) {r q : Fin n}
    {out out' : Option (Vec number_elements T)} (hr : Returns s r out) (hq : Returns s q out') :
    out = out' ∧ (1 ≤ number_elements → ∃ v, out = some v) := by
  rcases Nat.eq_zero_or_pos number_elements with rfl | hN
  · rw [returns_none h hr, returns_none h hq]
    exact ⟨rfl, nofun⟩
  · rw [returns_result hN hn h hr, returns_result hN hn h hq, result_agree q r]
    exact ⟨rfl, fun _ => ⟨_, rfl⟩⟩

theorem allreduce_recursive_doubling_agree_exchange :
    ∃ s, (allreduce 3 1 average).Reach (tag 3) (fun _ _ => 7) FirstRun s ∧
      copyOutImpl 1 (s.node 1).fields s.fabric = copyOutImpl 2 (s.node 2).fields s.fabric ∧
      (1 ≤ 1 → ∃ v, copyOutImpl 1 (s.node 1).fields s.fabric = some v) := by
  obtain ⟨s, hs, hfin⟩ : ∃ s, (allreduce 3 1 average).Reach (tag 3) (fun _ _ => 7) FirstRun s ∧
      ∀ r, (s.node r).state = .finished := exists_reaches_of_exec (setup 3 ++ exchange) (by decide)
  exact ⟨s, hs, allreduce_recursive_doubling_agree (by decide) hs (.inr ⟨hfin 1, rfl⟩) (.inr ⟨hfin 2, rfl⟩)⟩

/-- A rank may be about to reduce the next run's data. -/
theorem allreduce_recursive_doubling_overtaken : ¬ ∀ s : GroupSys 2 1 Nat,
    (allreduce 2 1 average).Reach (tag 2) (fun _ _ => 7) (fun _ _ => True) s → Isolated average (tag 2) s := by
  intro h
  obtain ⟨s, hs, hp, hrun, hmem⟩ : ∃ s, (allreduce 2 1 average).Reach (tag 2) (fun _ _ => 7) (fun _ _ => True) s ∧
      Pending (s.node 0) 0 ∧ (s.node 0).run = 0 ∧ s.fabric.mem (.target 0 0) 0 = 11 :=
    exists_reaches_of_exec (setup 2 ++ overtake 0 1) (by decide)
  rw [(h s hs).operand 0 0 hp, hrun] at hmem
  exact absurd hmem (by decide)

/-- **Consecutive runs are isolated if every rank waits for its partner to reduce.** -/
theorem allreduce_recursive_doubling_isolated (hn : 2 ≤ n)
    (h : (allreduce n number_elements op).Reach input m WaitsForPartner s) : Isolated op input s := by
  rcases Nat.eq_zero_or_pos number_elements with rfl | hN
  · -- all vectors are the empty one
    exact ⟨fun _ _ _ _ _ _ => Subsingleton.elim _ _, fun _ _ _ => Subsingleton.elim _ _, nofun⟩
  obtain ⟨I, hI⟩ := holds_of_waiting hN hn h
  have hact : ∀ r i, Pending (s.node r) i → is_active_rank r := by
    intro r i hp
    have := hI.running r hp.1
    simp only [Running, hp.2.1] at this
    exact this.1
  refine ⟨fun r i hp a t ha => ?_, fun r i hp => hI.mem_target (hact r i hp) hp, fun _ => hI.outputs⟩
  cases a with
  | call q c => exact call_mem_target (Collective.stepped ha)
  | advance p j =>
    obtain ⟨F, hF, rfl⟩ := Option.map_eq_some_iff.mp ha
    exact ((hI.network hF).mem_target (hact r i hp) hp).trans (hI.mem_target (hact r i hp) hp).symm

theorem allreduce_recursive_doubling_isolated_twice :
    ∃ s, (allreduce 3 1 average).Reach (tag 3) (fun _ _ => 7) WaitsForPartner s ∧ (∀ r, (s.node r).run = 2) ∧
      Isolated average (tag 3) s := by
  obtain ⟨s, hs, hrun⟩ : ∃ s, (allreduce 3 1 average).Reach (tag 3) (fun _ _ => 7) WaitsForPartner s ∧
      ∀ r, (s.node r).run = 2 :=
    exists_reaches_of_exec (setup 3 ++ exchange ++ collect ++ exchange ++ collect) (by decide)
  exact ⟨s, hs, hrun, allreduce_recursive_doubling_isolated (by decide) hs⟩

end GaspiCxx.Collectives.AllreduceRecursiveDoubling
