import GaspiCxx.Collectives.AllreduceRecursiveDoubling.Labels
import GaspiCxx.Collectives.Progress

/-!
# Who posts what when in the recursive-doubling allreduce

With `L` iterations the positions are: `0` the start, where an odd rank sends
its vector; `1` the initial step of an even rank; `2 + 2 * i` the arrival of
the data of iteration `i`, which is acknowledged, and `3 + 2 * i` the arrival
of the own acknowledgement. At position `1 + 2 * i` an active rank sends its
data of iteration `i`, at position `1 + 2 * L` an even rank sends the result
back; it arrives at position `2 + 2 * L` of the odd rank, and its
acknowledgement at position `3 + 2 * L`.
-/

namespace GaspiCxx.Collectives.AllreduceRecursiveDoubling

open OneSided SingleSided AllreduceCommon

variable {n number_elements : Nat} {T : Type}

def schedule (n : Nat) : Schedule (Fin n) (Port n) (Loc n) where
  toWiring := wiring n
  owner
    | .source r _ | .target r _ | .source_non_power_two r | .target_non_power_two r => r
  used
    | .source r i | .target r i => decide (is_active_rank r ∧ i < number_iterations n)
    | .source_non_power_two r => decide (is_even_non_extra_rank r)
    | .target_non_power_two r => decide (is_non_extra_rank r)
  postAt
    | .target _ i => 1 + 2 * i
    | .source _ i => 2 + 2 * i
    | .target_non_power_two r => if r.val % 2 = 0 then 0 else 1 + 2 * number_iterations n
    | .source_non_power_two _ => 2 + 2 * number_iterations n
  takeAt
    | .target _ i => 2 + 2 * i
    | .source _ i => 3 + 2 * i
    | .target_non_power_two r => if r.val % 2 = 0 then 1 else 2 + 2 * number_iterations n
    | .source_non_power_two _ => 3 + 2 * number_iterations n

/-- The positions a rank has passed in its current run. -/
def steps {Out : Type} (r : Fin n) (N : Node (Fields number_elements T) Out) : Nat :=
  match N.state with
  | .uninitialized | .initialized | .ready => 0
  | .running =>
    match N.fields.alg_stage with
    | .NOT_STARTED => 0
    | .INITIAL_STEP_NON_POWER_TWO => 1
    | .WAIT_FOR_DATA => 2 + 2 * N.fields.iteration
    | .WAIT_FOR_ACK => 3 + 2 * N.fields.iteration
    | .FINAL_STEP_NON_POWER_TWO =>
      if is_odd_non_extra_rank r then 2 + 2 * number_iterations n else 3 + 2 * number_iterations n
  | .finished => 4 + 2 * number_iterations n

theorem steps_finished {Out : Type} {r : Fin n} {N : Node (Fields number_elements T) Out}
    (h : N.state = .finished) : steps r N = 4 + 2 * number_iterations n := by simp [steps, h]

abbrev progress (s : GroupSys n number_elements T) : Fin n → Progress := progressOf steps s

section

variable (g : Fin n → Progress) {r : Fin n} {i : Nat}

theorem used_target : (schedule n).used (.target r i) = true ↔ is_active_rank r ∧ i < number_iterations n :=
  decide_eq_true_iff

theorem used_source : (schedule n).used (.source r i) = true ↔ is_active_rank r ∧ i < number_iterations n :=
  decide_eq_true_iff

theorem used_target_non_power_two :
    (schedule n).used (.target_non_power_two r) = true ↔ is_non_extra_rank r := decide_eq_true_iff

theorem used_source_non_power_two :
    (schedule n).used (.source_non_power_two r) = true ↔ is_even_non_extra_rank r := decide_eq_true_iff

theorem sent_target (hr : is_active_rank r) (hi : i < number_iterations n) :
    (schedule n).sent g (.target r i) = (g (neighbor r i)).passed (1 + 2 * i) :=
  Schedule.sent_used (used_target.mpr ⟨hr, hi⟩)

theorem taken_target (hr : is_active_rank r) (hi : i < number_iterations n) :
    (schedule n).taken g (.target r i) = (g r).passed (2 + 2 * i) :=
  Schedule.taken_used (used_target.mpr ⟨hr, hi⟩)

theorem sent_source (hr : is_active_rank r) (hi : i < number_iterations n) :
    (schedule n).sent g (.source r i) = (g (neighbor r i)).passed (2 + 2 * i) :=
  Schedule.sent_used (used_source.mpr ⟨hr, hi⟩)

theorem taken_source (hr : is_active_rank r) (hi : i < number_iterations n) :
    (schedule n).taken g (.source r i) = (g r).passed (3 + 2 * i) :=
  Schedule.taken_used (used_source.mpr ⟨hr, hi⟩)

/-- The vector of an odd rank. -/
theorem sent_initial (hr : is_even_non_extra_rank r) :
    (schedule n).sent g (.target_non_power_two r) = (g (neighbor_non_power_two r)).passed 0 := by
  rw [Schedule.sent_used (used_target_non_power_two.mpr hr.2)]
  simp only [schedule, if_pos hr.1]
  rfl

theorem taken_initial (hr : is_even_non_extra_rank r) :
    (schedule n).taken g (.target_non_power_two r) = (g r).passed 1 := by
  rw [Schedule.taken_used (used_target_non_power_two.mpr hr.2)]
  simp only [schedule, if_pos hr.1]

/-- The result for an odd rank. -/
theorem sent_final (hr : is_odd_non_extra_rank r) : (schedule n).sent g (.target_non_power_two r) =
    (g (neighbor_non_power_two r)).passed (1 + 2 * number_iterations n) := by
  rw [Schedule.sent_used (used_target_non_power_two.mpr hr.2)]
  simp only [schedule, if_neg (show ¬ r.val % 2 = 0 by omega)]
  rfl

theorem taken_final (hr : is_odd_non_extra_rank r) :
    (schedule n).taken g (.target_non_power_two r) = (g r).passed (2 + 2 * number_iterations n) := by
  rw [Schedule.taken_used (used_target_non_power_two.mpr hr.2)]
  simp only [schedule, if_neg (show ¬ r.val % 2 = 0 by omega)]

theorem sent_final_ack (hr : is_even_non_extra_rank r) : (schedule n).sent g (.source_non_power_two r) =
    (g (neighbor_non_power_two r)).passed (2 + 2 * number_iterations n) :=
  Schedule.sent_used (used_source_non_power_two.mpr hr)

theorem taken_final_ack (hr : is_even_non_extra_rank r) :
    (schedule n).taken g (.source_non_power_two r) = (g r).passed (3 + 2 * number_iterations n) :=
  Schedule.taken_used (used_source_non_power_two.mpr hr)

theorem neighbor_inj {r q : Fin n} (hr : is_active_rank r) (hq : is_active_rank q) (hi : i < number_iterations n)
    (h : neighbor r i = neighbor q i) : r = q := by
  rw [← neighbor_neighbor hi hr, h, neighbor_neighbor hi hq]

theorem neighbor_non_power_two_inj {r q : Fin n} (hr : is_non_extra_rank r) (hq : is_non_extra_rank q)
    (h : neighbor_non_power_two r = neighbor_non_power_two q) : r = q := by
  rw [← neighbor_neighbor_non_power_two hr, h, neighbor_neighbor_non_power_two hq]

/-- A rank posts to one port at each position. -/
theorem postAt_inj {p q : Port n} (hp : (schedule n).used p = true) (hq : (schedule n).used q = true)
    (hs : (schedule n).sender p = (schedule n).sender q) (ha : (schedule n).postAt p = (schedule n).postAt q) :
    p = q := by
  cases p with
  | target r i =>
    have hr := used_target.mp hp
    cases q with
    | target r' j =>
      obtain rfl : i = j := by simp only [schedule] at ha; omega
      rw [neighbor_inj hr.1 (used_target.mp hq).1 hr.2 hs]
    | target_non_power_two => simp only [schedule] at ha; split at ha <;> omega
    | source | source_non_power_two => simp only [schedule] at ha; omega
  | source r i =>
    have hr := used_source.mp hp
    cases q with
    | source r' j =>
      obtain rfl : i = j := by simp only [schedule] at ha; omega
      rw [neighbor_inj hr.1 (used_source.mp hq).1 hr.2 hs]
    | target_non_power_two => simp only [schedule] at ha; split at ha <;> omega
    | target | source_non_power_two => simp only [schedule] at ha; omega
  | target_non_power_two r =>
    have hr := used_target_non_power_two.mp hp
    cases q with
    | target_non_power_two r' => rw [neighbor_non_power_two_inj hr (used_target_non_power_two.mp hq) hs]
    | target r' j => have := (used_target.mp hq).2; simp only [schedule] at ha; split at ha <;> omega
    | source | source_non_power_two => simp only [schedule] at ha; split at ha <;> omega
  | source_non_power_two r =>
    have hr := used_source_non_power_two.mp hp
    cases q with
    | source_non_power_two r' =>
      rw [neighbor_non_power_two_inj hr.2 (used_source_non_power_two.mp hq).2 hs]
    | source r' j => have := (used_source.mp hq).2; simp only [schedule] at ha; omega
    | target_non_power_two => simp only [schedule] at ha; split at ha <;> omega
    | target => simp only [schedule] at ha; omega

/-- A rank takes from one port at each position. -/
theorem takeAt_inj {p q : Port n} (hp : (schedule n).used p = true) (hq : (schedule n).used q = true)
    (hs : (schedule n).owner p = (schedule n).owner q) (ha : (schedule n).takeAt p = (schedule n).takeAt q) :
    p = q := by
  cases p with
  | target r i =>
    have hr := used_target.mp hp
    cases q with
    | target r' j =>
      obtain rfl : r = r' := hs
      obtain rfl : i = j := by simp only [schedule] at ha; omega
      rfl
    | target_non_power_two => simp only [schedule] at ha; split at ha <;> omega
    | source | source_non_power_two => simp only [schedule] at ha; omega
  | source r i =>
    have hr := used_source.mp hp
    cases q with
    | source r' j =>
      obtain rfl : r = r' := hs
      obtain rfl : i = j := by simp only [schedule] at ha; omega
      rfl
    | target_non_power_two => simp only [schedule] at ha; split at ha <;> omega
    | target | source_non_power_two => simp only [schedule] at ha; omega
  | target_non_power_two r =>
    cases q with
    | target_non_power_two r' => obtain rfl : r = r' := hs; rfl
    | target r' j => have := (used_target.mp hq).2; simp only [schedule] at ha; split at ha <;> omega
    | source | source_non_power_two => simp only [schedule] at ha; split at ha <;> omega
  | source_non_power_two r =>
    cases q with
    | source_non_power_two r' => obtain rfl : r = r' := hs; rfl
    | source r' j => have := (used_source.mp hq).2; simp only [schedule] at ha; omega
    | target_non_power_two => simp only [schedule] at ha; split at ha <;> omega
    | target => simp only [schedule] at ha; omega

/-- An odd rank posts its vector and the acknowledgement of the result. -/
theorem postAt_odd {p : Port n} (hu : (schedule n).used p = true) (hr : is_odd_non_extra_rank r)
    (hs : (schedule n).sender p = r) :
    (schedule n).postAt p = 0 ∨ (schedule n).postAt p = 2 + 2 * number_iterations n := by
  cases p with
  | target q i => exact absurd hr (not_odd_of_active (hs ▸ active_neighbor (used_target.mp hu).2 q))
  | source q i => exact absurd hr (not_odd_of_active (hs ▸ active_neighbor (used_source.mp hu).2 q))
  | source_non_power_two q => exact .inr rfl
  | target_non_power_two q =>
    have hne := used_target_non_power_two.mp hu
    by_cases hq : q.val % 2 = 0
    · exact .inl (if_pos hq)
    · exact absurd hr (not_odd_of_active (.inl (hs ▸ even_neighbor ⟨by omega, hne⟩)))

/-- An active rank posts data and acknowledgements, an even one the result. -/
theorem postAt_active {p : Port n} (hu : (schedule n).used p = true) (hr : is_active_rank r)
    (hs : (schedule n).sender p = r) :
    1 ≤ (schedule n).postAt p ∧ ((schedule n).postAt p ≤ 2 * number_iterations n ∨
      is_even_non_extra_rank r ∧ (schedule n).postAt p = 1 + 2 * number_iterations n) := by
  cases p with
  | target q i => have := (used_target.mp hu).2; simp only [schedule]; omega
  | source q i => have := (used_source.mp hu).2; simp only [schedule]; omega
  | source_non_power_two q =>
    exact absurd (hs ▸ odd_neighbor (used_source_non_power_two.mp hu)) (not_odd_of_active hr)
  | target_non_power_two q =>
    have hne := used_target_non_power_two.mp hu
    by_cases hq : q.val % 2 = 0
    · exact absurd (hs ▸ odd_neighbor ⟨hq, hne⟩) (not_odd_of_active hr)
    · have heven : is_even_non_extra_rank r := hs ▸ even_neighbor ⟨by omega, hne⟩
      simp only [schedule, if_neg hq]
      exact ⟨by omega, .inr ⟨heven, trivial⟩⟩

theorem takeAt_odd {p : Port n} (hu : (schedule n).used p = true) (hr : is_odd_non_extra_rank r)
    (hs : (schedule n).owner p = r) : (schedule n).takeAt p = 2 + 2 * number_iterations n := by
  cases p with
  | target q i => exact absurd hr (not_odd_of_active (hs ▸ (used_target.mp hu).1))
  | source q i => exact absurd hr (not_odd_of_active (hs ▸ (used_source.mp hu).1))
  | source_non_power_two q => exact absurd hr (not_odd_of_active (.inl (hs ▸ used_source_non_power_two.mp hu)))
  | target_non_power_two q =>
    obtain rfl : q = r := hs
    exact if_neg (by omega)

theorem takeAt_active {p : Port n} (hu : (schedule n).used p = true) (hr : is_active_rank r)
    (hs : (schedule n).owner p = r) :
    is_even_non_extra_rank r ∧ (schedule n).takeAt p = 1 ∨
      2 ≤ (schedule n).takeAt p ∧ (schedule n).takeAt p ≤ 1 + 2 * number_iterations n ∨
      is_even_non_extra_rank r ∧ (schedule n).takeAt p = 3 + 2 * number_iterations n := by
  cases p with
  | target q i => have := (used_target.mp hu).2; simp only [schedule]; omega
  | source q i => have := (used_source.mp hu).2; simp only [schedule]; omega
  | source_non_power_two q => exact .inr (.inr ⟨hs ▸ used_source_non_power_two.mp hu, rfl⟩)
  | target_non_power_two q =>
    obtain rfl : q = r := hs
    have heven : is_even_non_extra_rank q := hr.resolve_right (used_target_non_power_two.mp hu)
    exact .inl ⟨heven, if_pos heven.1⟩

end

/-! ## What `triggerProgress` does -/

section

variable {op : T → T → T} {r : Fin n} {f : Fields number_elements T} {F : Net number_elements n T}

theorem not_power_two (h : is_non_extra_rank r) : ¬ is_power_two_case n := by
  simp only [is_non_extra_rank, is_extra_rank, is_power_two_case] at h ⊢
  omega

theorem proceedImpl_final_ack (hf : f.alg_stage = .FINAL_STEP_NON_POWER_TWO) (hr : is_even_non_extra_rank r) :
    proceedImpl op r f F = (F.slot (.source_non_power_two r), f, F.reset (.source_non_power_two r)) := by
  rw [proceedImpl, if_pos hf, if_neg (not_power_two hr.2), if_pos hr]
  cases hs : F.slot (.source_non_power_two r) with
  | true => simp only [checkForTransferAck_set hs]
  | false => simp only [checkForTransferAck_clear hs, Fabric.reset_of_clear hs]

theorem proceedImpl_final_clear (hf : f.alg_stage = .FINAL_STEP_NON_POWER_TWO) (hr : is_odd_non_extra_rank r)
    (hs : F.slot (.target_non_power_two r) = false) : proceedImpl op r f F = (false, f, F) := by
  rw [proceedImpl, if_pos hf, if_neg (not_power_two hr.2), if_neg (fun h => not_odd_of_active (.inl h) hr),
    if_pos hr]
  simp only [checkForCompletion_clear hs]
  rfl

theorem proceedImpl_final_set (hf : f.alg_stage = .FINAL_STEP_NON_POWER_TWO) (hr : is_odd_non_extra_rank r)
    (hs : F.slot (.target_non_power_two r) = true) : proceedImpl op r f F = (true, f,
      (F.reset (.target_non_power_two r)).post (.source_non_power_two (neighbor_non_power_two r))) := by
  rw [proceedImpl, if_pos hf, if_neg (not_power_two hr.2), if_neg (fun h => not_odd_of_active (.inl h) hr),
    if_pos hr]
  simp only [checkForCompletion_set hs]
  rfl

theorem proceedImpl_final_extra (hf : f.alg_stage = .FINAL_STEP_NON_POWER_TWO) (hr : is_extra_rank r) :
    proceedImpl op r f F = (true, f, F) := by
  rw [proceedImpl, if_pos hf]
  split
  · rfl
  · rw [if_neg (fun h => h.2 hr), if_neg (fun h => h.2 hr)]

theorem proceedImpl_data_clear (hf : f.alg_stage = .WAIT_FOR_DATA) (hr : is_active_rank r)
    (hs : F.slot (.target r f.iteration) = false) : proceedImpl op r f F = (false, f, F) := by
  rw [proceedImpl, if_neg (by simp [hf]), if_pos hr]
  simp only [hf, checkForCompletion_clear hs]
  rfl

theorem proceedImpl_data_set (hf : f.alg_stage = .WAIT_FOR_DATA) (hr : is_active_rank r)
    (hs : F.slot (.target r f.iteration) = true) :
    proceedImpl op r f F = (false, { f with alg_stage := .WAIT_FOR_ACK },
      (F.reset (.target r f.iteration)).post (.source (neighbor r f.iteration) f.iteration)) := by
  rw [proceedImpl, if_neg (by simp [hf]), if_pos hr]
  simp only [hf, checkForCompletion_set hs]
  rfl

theorem proceedImpl_ack_clear (hf : f.alg_stage = .WAIT_FOR_ACK) (hr : is_active_rank r)
    (hs : F.slot (.source r f.iteration) = false) : proceedImpl op r f F = (false, f, F) := by
  rw [proceedImpl, if_neg (by simp [hf]), if_pos hr]
  simp only [hf, checkForTransferAck_clear hs]
  rfl

theorem proceedImpl_ack_next (hf : f.alg_stage = .WAIT_FOR_ACK) (hr : is_active_rank r)
    (hs : F.slot (.source r f.iteration) = true) (hi : f.iteration + 1 < number_iterations n) :
    proceedImpl op r f F = (false, { f with iteration := f.iteration + 1, alg_stage := .WAIT_FOR_DATA },
      (apply_reduce_op op (wiring n) (F.reset (.source r f.iteration)) (.source r f.iteration)
        (.target r f.iteration)).post (.target (neighbor r (f.iteration + 1)) (f.iteration + 1))) := by
  have hlast : ¬ is_last_iteration n f.iteration := by simp only [is_last_iteration]; omega
  rw [proceedImpl, if_neg (by simp [hf]), if_pos hr]
  simp only [hf, checkForTransferAck_set hs, Bool.not_true, Bool.false_eq_true, if_false]
  rw [if_pos hlast, next_iteration, if_neg hlast]
  rfl

theorem proceedImpl_ack_last (hf : f.alg_stage = .WAIT_FOR_ACK) (hr : is_active_rank r)
    (hs : F.slot (.source r f.iteration) = true) (hi : f.iteration + 1 = number_iterations n) :
    proceedImpl op r f F = (false, { f with
        iteration := f.iteration + 1, alg_stage := .FINAL_STEP_NON_POWER_TWO },
      if is_even_non_extra_rank r then
        (apply_reduce_op op (wiring n) (F.reset (.source r f.iteration)) (.source r f.iteration)
          (.target r f.iteration)).post (.target_non_power_two (neighbor_non_power_two r))
      else apply_reduce_op op (wiring n) (F.reset (.source r f.iteration)) (.source r f.iteration)
          (.target r f.iteration)) := by
  have hlast : is_last_iteration n f.iteration := by simp only [is_last_iteration]; omega
  rw [proceedImpl, if_neg (by simp [hf]), if_pos hr]
  simp only [hf, checkForTransferAck_set hs, Bool.not_true, Bool.false_eq_true, if_false]
  rw [if_neg (not_not.mpr hlast), next_iteration, if_pos hlast]
  rfl

/-- An odd rank counts its calls. -/
theorem proceedImpl_count (hf : f.alg_stage = .INITIAL_STEP_NON_POWER_TWO) (hr : is_odd_non_extra_rank r) :
    proceedImpl op r f F = (false, { f with
      iteration := f.iteration + 1
      alg_stage := if is_last_iteration n f.iteration then .FINAL_STEP_NON_POWER_TWO else f.alg_stage }, F) := by
  rw [proceedImpl, if_neg (by simp [hf]), if_neg (not_active_iff.mpr hr), next_iteration]
  split
  · rw [if_neg fun h => not_odd_of_active (.inl h) hr]
  · rfl

variable (hN : 0 < number_elements) (hn : 2 ≤ n)
include hN hn

theorem triggerProgressImpl_initial_clear (hf : f.alg_stage = .INITIAL_STEP_NON_POWER_TWO)
    (hr : is_even_non_extra_rank r) (hs : F.slot (.target_non_power_two r) = false) :
    triggerProgressImpl op r f F = (false, f, F) := by
  rw [triggerProgressImpl, if_neg (by omega), if_pos ⟨hr, hf⟩]
  simp only [checkForCompletion_clear hs]
  rfl

/-- The initial step goes on to the first iteration in the same call. -/
theorem triggerProgressImpl_initial_set (hf : f.alg_stage = .INITIAL_STEP_NON_POWER_TWO)
    (hr : is_even_non_extra_rank r) (hs : F.slot (.target_non_power_two r) = true) :
    triggerProgressImpl op r f F = proceedImpl op r { f with alg_stage := .WAIT_FOR_DATA }
      ((apply_reduce_op op (wiring n) (F.reset (.target_non_power_two r)) (.source r f.iteration)
        (.target_non_power_two r)).post (.target (neighbor r f.iteration) f.iteration)) := by
  rw [triggerProgressImpl, if_neg (by omega), if_pos ⟨hr, hf⟩]
  simp only [checkForCompletion_set hs]
  rfl

theorem triggerProgressImpl_proceed
    (h : ¬ (is_even_non_extra_rank r ∧ f.alg_stage = .INITIAL_STEP_NON_POWER_TWO)) :
    triggerProgressImpl op r f F = proceedImpl op r f F := by
  rw [triggerProgressImpl, if_neg (by omega), if_neg h]

end

end GaspiCxx.Collectives.AllreduceRecursiveDoubling
