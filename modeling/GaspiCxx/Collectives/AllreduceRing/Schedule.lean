import GaspiCxx.Collectives.AllreduceRing.Model
import GaspiCxx.Collectives.Progress

/-!
# Who posts what when in the ring allreduce

A rank's program has `2n` positions: starting (0), leaving step `i - 1`
(`i = 1 .. 2n-2`) and seeing the acknowledgement (`2n-1`). Chunk `j` passes
rank `r`, at distance `d = dist j r`, at position `d` on its way around the
ring for the reduction and at position `n + d` with the result; whatever is
posted at position `i` is taken at position `i + 1` of the right neighbour.
-/

namespace GaspiCxx.Collectives.AllreduceRing

open OneSided SingleSided GroupUtilities AllreduceCommon

variable (n : Nat) {number_elements : Nat} {T : Type}

def schedule : Schedule (Fin n) (Port n) (Loc n) where
  toWiring := wiring n
  owner
    | .source_reduce r _ | .target_reduce r _ | .source_gather r _ | .target_gather r _ => r
  used
    | .source_reduce _ _ => false
    | .target_reduce r j => decide (0 < dist j r)
    | .source_gather r j => dist j (right r) + 2 == n
    | .target_gather r j => decide (dist j r + 2 ≤ n)
  postAt
    | .source_reduce _ _ => 0
    | .target_reduce r j => dist j r - 1
    | .source_gather _ _ => 2 * n - 2
    | .target_gather r j => n + dist j r - 1
  takeAt
    | .source_reduce _ _ => 0
    | .target_reduce r j => dist j r
    | .source_gather _ _ => 2 * n - 1
    | .target_gather r j => n + dist j r

/-- The positions a rank has passed in its current run. -/
def steps (N : Node (Fields n T) (Nat → Option T)) : Nat :=
  match N.state with
  | .uninitialized | .initialized | .ready => 0
  | .running => N.fields.current_step + 1
  | .finished => 2 * n

theorem steps_finished {N : Node (Fields n T) (Nat → Option T)} (h : N.state = .finished) :
    steps n N = 2 * n := by simp [steps, h]

abbrev progress (s : GroupSys n number_elements T) : Fin n → Progress :=
  progressOf (fun _ => steps n) s

section

variable {n} (g : Fin n → Progress) {r j : Fin n} {d : Nat}

theorem used_target_reduce : (schedule n).used (.target_reduce r j) = true ↔ 0 < dist j r := by
  simp [schedule]

theorem used_target_gather : (schedule n).used (.target_gather r j) = true ↔ dist j r + 2 ≤ n := by
  simp [schedule]

theorem used_source_gather :
    (schedule n).used (.source_gather r j) = true ↔ dist j (right r) + 2 = n := by
  simp [schedule]

theorem sent_target_reduce (h : dist j r = d + 1) :
    (schedule n).sent g (.target_reduce r j) = (g (left r)).passed d := by
  rw [Schedule.sent_used (used_target_reduce.mpr (by omega))]
  simp only [schedule, h, Nat.add_sub_cancel]
  rfl

theorem taken_target_reduce (h : dist j r = d + 1) :
    (schedule n).taken g (.target_reduce r j) = (g r).passed (d + 1) := by
  rw [Schedule.taken_used (used_target_reduce.mpr (by omega))]
  simp only [schedule, h]

theorem sent_target_gather (h : dist j r = d) (hd : d + 2 ≤ n) :
    (schedule n).sent g (.target_gather r j) = (g (left r)).passed (n + d - 1) := by
  rw [Schedule.sent_used (used_target_gather.mpr (by omega))]
  simp only [schedule, h]
  rfl

theorem taken_target_gather (h : dist j r = d) (hd : d + 2 ≤ n) :
    (schedule n).taken g (.target_gather r j) = (g r).passed (n + d) := by
  rw [Schedule.taken_used (used_target_gather.mpr (by omega))]
  simp only [schedule, h]

theorem sent_source_gather (h : dist j (right r) + 2 = n) :
    (schedule n).sent g (.source_gather r j) = (g (right r)).passed (2 * n - 2) :=
  Schedule.sent_used (used_source_gather.mpr h)

theorem taken_source_gather (h : dist j (right r) + 2 = n) :
    (schedule n).taken g (.source_gather r j) = (g r).passed (2 * n - 1) :=
  Schedule.taken_used (used_source_gather.mpr h)

end

section

variable {n} (hn : 2 ≤ n) {p q : Port n}
include hn

/-- A rank posts to one port at each position. -/
theorem postAt_inj (hp : (schedule n).used p = true) (hq : (schedule n).used q = true)
    (hs : (schedule n).sender p = (schedule n).sender q)
    (ha : (schedule n).postAt p = (schedule n).postAt q) : p = q := by
  cases p with
  | source_reduce r j => cases hp
  | target_reduce r j =>
    have hj := dist_lt j r
    have hp := used_target_reduce.mp hp
    cases q with
    | source_reduce r' j' => cases hq
    | target_reduce r' j' =>
      have hq := used_target_reduce.mp hq
      obtain rfl := left_inj hs
      simp only [schedule] at ha
      rw [dist_inj (show dist j r = dist j' r by omega)]
    | source_gather r' j' => simp only [schedule] at ha; omega
    | target_gather r' j' => simp only [schedule] at ha; omega
  | source_gather r j =>
    have hp := used_source_gather.mp hp
    cases q with
    | source_reduce r' j' => cases hq
    | target_reduce r' j' => have := dist_lt j' r'; simp only [schedule] at ha; omega
    | source_gather r' j' =>
      have hq := used_source_gather.mp hq
      obtain rfl := right_inj hs
      rw [dist_inj (show dist j (right r) = dist j' (right r) by omega)]
    | target_gather r' j' => have := used_target_gather.mp hq; simp only [schedule] at ha; omega
  | target_gather r j =>
    have hp := used_target_gather.mp hp
    cases q with
    | source_reduce r' j' => cases hq
    | target_reduce r' j' => have := dist_lt j' r'; simp only [schedule] at ha; omega
    | source_gather r' j' => simp only [schedule] at ha; omega
    | target_gather r' j' =>
      obtain rfl := left_inj hs
      simp only [schedule] at ha
      rw [dist_inj (show dist j r = dist j' r by omega)]

/-- A rank takes from one port at each position. -/
theorem takeAt_inj (hp : (schedule n).used p = true) (hq : (schedule n).used q = true)
    (hs : (schedule n).owner p = (schedule n).owner q)
    (ha : (schedule n).takeAt p = (schedule n).takeAt q) : p = q := by
  cases p with
  | source_reduce r j => cases hp
  | target_reduce r j =>
    have hj := dist_lt j r
    cases q with
    | source_reduce r' j' => cases hq
    | target_reduce r' j' =>
      obtain rfl : r = r' := hs
      rw [dist_inj (r := r) ha]
    | source_gather r' j' => simp only [schedule] at ha; omega
    | target_gather r' j' => simp only [schedule] at ha; omega
  | source_gather r j =>
    have hp := used_source_gather.mp hp
    cases q with
    | source_reduce r' j' => cases hq
    | target_reduce r' j' => have := dist_lt j' r'; simp only [schedule] at ha; omega
    | source_gather r' j' =>
      have hq := used_source_gather.mp hq
      obtain rfl : r = r' := hs
      rw [dist_inj (show dist j (right r) = dist j' (right r) by omega)]
    | target_gather r' j' => have := used_target_gather.mp hq; simp only [schedule] at ha; omega
  | target_gather r j =>
    have hp := used_target_gather.mp hp
    cases q with
    | source_reduce r' j' => cases hq
    | target_reduce r' j' => have := dist_lt j' r'; simp only [schedule] at ha; omega
    | source_gather r' j' => simp only [schedule] at ha; omega
    | target_gather r' j' =>
      obtain rfl : r = r' := hs
      simp only [schedule] at ha
      rw [dist_inj (show dist j r = dist j' r by omega)]

end

/-- The chunk whose acknowledgement ends the run: `current_index` has reached the
right neighbour's own chunk. -/
theorem ack_index {n : Nat} (hn : 2 ≤ n) {r i j : Fin n} (hi : dist i r = n - 1)
    (hj : ringIndex (i + 2) r = j) : dist j (right r) + 2 = n := by
  have := i.isLt; have := r.isLt
  have hv : j.val = (i.val + 2) % n := by rw [← hj]; rfl
  have hr := right_val r
  unfold GroupUtilities.dist at hi ⊢
  have hmod : (i.val + 2) % n = if i.val + 2 < n then i.val + 2 else i.val + 2 - n := by
    split
    · exact Nat.mod_eq_of_lt (by omega)
    · rw [Nat.mod_eq_sub_mod (by omega), Nat.mod_eq_of_lt (by omega)]
  split at hmod <;> split at hr <;> split at hi <;> split <;> omega

/-! ## What `triggerProgress` does -/

theorem algorithm_get_current_stage_eq {n i : Nat} (hn : 2 ≤ n) :
    algorithm_get_current_stage n i = if i + 1 < n then .REDUCE else .GATHER := by
  simp only [algorithm_get_current_stage, steps_per_stage, Nat.div_eq_zero_iff]
  split <;> split <;> first | rfl | omega

section

variable {n} {reduction_functor : T → T → T} {r : Fin n} {f : Fields n T}
  {F : Net n number_elements T} (hN : 0 < number_elements) (hn : 2 ≤ n)
include hN hn

theorem triggerProgressImpl_ack (hi : f.current_step = 2 * (n - 1)) :
    triggerProgressImpl reduction_functor r f F =
      ((F.slot (.source_gather r (ringIndex (f.current_index + 2) r))), f,
        F.reset (.source_gather r (ringIndex (f.current_index + 2) r))) := by
  have h1 : ¬ (number_elements = 0 ∨ n = 1) := by omega
  have h2 : is_last_step n f.current_step = true := by simp [is_last_step, steps_per_stage, hi]
  rw [triggerProgressImpl, if_neg h1, if_pos h2]
  cases hs : F.slot (.source_gather r (ringIndex (f.current_index + 2) r)) with
  | true => simp only [checkForTransferAck_set hs]
  | false => simp only [checkForTransferAck_clear hs, Fabric.reset_of_clear hs]

theorem triggerProgressImpl_reduce_clear (hi : f.current_step + 1 < n)
    (hs : F.slot (.target_reduce r f.current_index) = false) :
    triggerProgressImpl reduction_functor r f F = (false, f, F) := by
  have h1 : ¬ (number_elements = 0 ∨ n = 1) := by omega
  have h2 : ¬ is_last_step n f.current_step = true := by simp [is_last_step, steps_per_stage]; omega
  rw [triggerProgressImpl, if_neg h1, if_neg h2, algorithm_get_current_stage_eq hn, if_pos hi]
  simp [checkForCompletion_clear hs]

/-- A partial result arrives: this rank's contribution is added and the sum
sent on, from the last reduction step on in the gather buffers. -/
theorem triggerProgressImpl_reduce_set (hi : f.current_step + 1 < n)
    (hs : F.slot (.target_reduce r f.current_index) = true) :
    triggerProgressImpl reduction_functor r f F =
      (false, { f with current_step := f.current_step + 1, current_index := left f.current_index },
        Fabric.post (apply_reduce_op reduction_functor (wiring n) (F.reset (.target_reduce r f.current_index))
          (.source_reduce r f.current_index) (.target_reduce r f.current_index))
          (if f.current_step + 2 = n then .target_gather (right r) f.current_index
            else .target_reduce (right r) f.current_index)) := by
  have h1 : ¬ (number_elements = 0 ∨ n = 1) := by omega
  have h2 : ¬ is_last_step n f.current_step = true := by simp [is_last_step, steps_per_stage]; omega
  rw [triggerProgressImpl, if_neg h1, if_neg h2, algorithm_get_current_stage_eq hn, if_pos hi]
  have h3 : is_last_step_reduce n f.current_step = decide (f.current_step + 2 = n) := by
    rw [is_last_step_reduce, steps_per_stage, Bool.eq_iff_iff, beq_iff_eq, decide_eq_true_iff]
    omega
  by_cases hl : f.current_step + 2 = n <;>
    simp [checkForCompletion_set hs, h3, hl, initTransfer, wiring]

theorem triggerProgressImpl_gather_clear (hi : ¬ f.current_step + 1 < n)
    (hl : f.current_step < 2 * (n - 1)) (hs : F.slot (.target_gather r f.current_index) = false) :
    triggerProgressImpl reduction_functor r f F = (false, f, F) := by
  have h1 : ¬ (number_elements = 0 ∨ n = 1) := by omega
  have h2 : ¬ is_last_step n f.current_step = true := by simp [is_last_step, steps_per_stage]; omega
  rw [triggerProgressImpl, if_neg h1, if_neg h2, algorithm_get_current_stage_eq hn, if_neg hi]
  simp [checkForCompletion_clear hs]

/-- A result arrives: it is sent on, or acknowledged in the last step. -/
theorem triggerProgressImpl_gather_set (hi : ¬ f.current_step + 1 < n)
    (hl : f.current_step < 2 * (n - 1)) (hs : F.slot (.target_gather r f.current_index) = true) :
    triggerProgressImpl reduction_functor r f F =
      (false, { f with current_step := f.current_step + 1, current_index := left f.current_index },
        Fabric.post (F.reset (.target_gather r f.current_index))
          (if f.current_step + 3 = 2 * n then .source_gather (left r) f.current_index
            else .target_gather (right r) f.current_index)) := by
  have h1 : ¬ (number_elements = 0 ∨ n = 1) := by omega
  have h2 : ¬ is_last_step n f.current_step = true := by simp [is_last_step, steps_per_stage]; omega
  rw [triggerProgressImpl, if_neg h1, if_neg h2, algorithm_get_current_stage_eq hn, if_neg hi]
  have h3 : is_last_step_gather n f.current_step = decide (f.current_step + 3 = 2 * n) := by
    rw [is_last_step_gather, steps_per_stage, Bool.eq_iff_iff, beq_iff_eq, decide_eq_true_iff]
    omega
  by_cases hl : f.current_step + 3 = 2 * n <;>
    simp [checkForCompletion_set hs, h3, hl, initTransfer, ackTransfer, wiring]

end

end GaspiCxx.Collectives.AllreduceRing
