import GaspiCxx.Collectives.BroadcastBasicLinear.Model
import GaspiCxx.Collectives.Progress

/-!
# Who posts what when in the linear broadcast

Position `0` is the start and position `i` the call that leaves iteration `i`.
The rank at distance `d` from the root posts at position `d` (the root in
`start`) and its right neighbour takes at position `d + 1`; `last`
acknowledges at position `n - 1` and `second_last` sees it at position `n`.
-/

namespace GaspiCxx.Collectives.BroadcastBasicLinear

open OneSided SingleSided GroupUtilities

variable {n number_elements : Nat} {T : Type} (root : Fin n)

/-! ## The chain -/

@[simp] theorem right_neighbour_eq (r : Fin n) : right_neighbour r = right r := by
  apply Fin.ext
  simp only [right_neighbour, right, incrementIndexOnRing]
  rw [show n + r.val + 1 = r.val + 1 + n by omega, Nat.add_mod_right]

@[simp] theorem left_neighbour_eq (r : Fin n) : left_neighbour r = left r := by
  have := r.isLt
  apply Fin.ext
  simp only [left_neighbour, left, decrementIndexOnRing]
  rw [show n + r.val - 1 = r.val + n - 1 by omega]

theorem rank_after_first_eq (r : Fin n) : rank_after_first root r = dist root r := by
  have := r.isLt; have := root.isLt
  unfold rank_after_first GroupUtilities.dist
  split
  · rw [show n + r.val - root.val = (r.val - root.val) + n by omega, Nat.add_mod_right]
    exact Nat.mod_eq_of_lt (by omega)
  · rw [Nat.mod_eq_of_lt (by omega)]
    omega

theorem eq_last_iff (r : Fin n) : r.val = last root ↔ dist root r + 1 = n := by
  have := r.isLt; have := root.isLt
  have hl : last root = if root.val = 0 then n - 1 else root.val - 1 := by
    unfold last
    split
    · rw [Nat.mod_eq_of_lt (by omega)]; omega
    · rw [show n + root.val - 1 = (root.val - 1) + n by omega, Nat.add_mod_right]
      exact Nat.mod_eq_of_lt (by omega)
  unfold GroupUtilities.dist
  split at hl <;> split <;> omega

theorem eq_second_last_iff (hn : 2 ≤ n) (r : Fin n) : r.val = second_last root ↔ dist root r + 2 = n := by
  have := r.isLt; have := root.isLt
  have hl : second_last root = if root.val < 2 then n + root.val - 2 else root.val - 2 := by
    unfold second_last
    split
    · exact Nat.mod_eq_of_lt (by omega)
    · rw [show n + root.val - 2 = (root.val - 2) + n by omega, Nat.add_mod_right]
      exact Nat.mod_eq_of_lt (by omega)
  unfold GroupUtilities.dist
  split at hl <;> split <;> omega

theorem pos_iff (r : Fin n) : 0 < dist root r ↔ r ≠ root := by
  constructor
  · rintro h rfl
    rw [dist_self] at h
    cases h
  · intro h
    exact Nat.pos_of_ne_zero fun h0 => h (dist_eq_zero h0).symm

theorem dist_next {r : Fin n} (h : dist root r + 1 < n) : dist root (right r) = dist root r + 1 := by
  rw [dist_right, if_neg (by omega)]

/-- The rank in front of one that is not first. -/
theorem dist_prev {r : Fin n} (h : 0 < dist root r) : dist root (left r) + 1 = dist root r := by
  obtain ⟨d, hd⟩ := Nat.exists_eq_succ_of_ne_zero (Nat.ne_of_gt h)
  rw [dist_to_left hd, hd]

/-! ## The schedule -/

def schedule (number_elements : Nat) (root : Fin n) : Schedule (Fin n) (Port n) (Fin n) where
  toWiring := wiring number_elements n
  owner
    | .source r | .target r => r
  used
    | .source r => dist root r + 2 == n
    | .target r => decide (0 < dist root r)
  postAt
    | .source _ => n - 1
    | .target r => dist root r - 1
  takeAt
    | .source _ => n
    | .target r => dist root r

/-- The positions a rank has passed in its current run. -/
def steps (n : Nat) {Out : Type} (N : Node Fields Out) : Nat :=
  match N.state with
  | .uninitialized | .initialized | .ready => 0
  | .running => N.fields.iteration
  | .finished => n + 1

theorem steps_finished {Out : Type} {N : Node Fields Out} (h : N.state = .finished) :
    steps n N = n + 1 := by simp [steps, h]

abbrev progress (s : GroupSys number_elements n T) : Fin n → Progress := progressOf (fun _ => steps n) s

section

variable {root} (g : Fin n → Progress) {r : Fin n}

theorem used_target : (schedule number_elements root).used (.target r) = true ↔ 0 < dist root r := by
  simp [schedule]

theorem used_source : (schedule number_elements root).used (.source r) = true ↔ dist root r + 2 = n := by
  simp [schedule]

theorem sender_target : (schedule number_elements root).sender (.target r) = left r := by
  simp [Schedule.sender, schedule, wiring]

theorem sender_source : (schedule number_elements root).sender (.source r) = right r := by
  simp [Schedule.sender, schedule, wiring]

theorem sent_target (h : 0 < dist root r) :
    (schedule number_elements root).sent g (.target r) = (g (left r)).passed (dist root r - 1) := by
  rw [Schedule.sent_used (used_target.mpr h), sender_target]
  rfl

theorem taken_target (h : 0 < dist root r) :
    (schedule number_elements root).taken g (.target r) = (g r).passed (dist root r) :=
  Schedule.taken_used (used_target.mpr h)

theorem sent_source (h : dist root r + 2 = n) :
    (schedule number_elements root).sent g (.source r) = (g (right r)).passed (n - 1) := by
  rw [Schedule.sent_used (used_source.mpr h), sender_source]
  rfl

theorem taken_source (h : dist root r + 2 = n) :
    (schedule number_elements root).taken g (.source r) = (g r).passed n :=
  Schedule.taken_used (used_source.mpr h)

/-- A rank posts to one port. -/
theorem postAt_inj {p q : Port n} (hp : (schedule number_elements root).used p = true)
    (hq : (schedule number_elements root).used q = true)
    (hs : (schedule number_elements root).sender p = (schedule number_elements root).sender q)
    (ha : (schedule number_elements root).postAt p = (schedule number_elements root).postAt q) : p = q := by
  cases p with
  | source r =>
    cases q with
    | source r' =>
      rw [sender_source, sender_source] at hs
      rw [right_inj hs]
    | target r' =>
      have := used_target.mp hq
      have := dist_lt root r'
      simp only [schedule] at ha
      omega
  | target r =>
    have := used_target.mp hp
    have := dist_lt root r
    cases q with
    | source r' => simp only [schedule] at ha; omega
    | target r' =>
      rw [sender_target, sender_target] at hs
      rw [left_inj hs]

/-- A rank takes from one port at each position. -/
theorem takeAt_inj {p q : Port n}
    (hs : (schedule number_elements root).owner p = (schedule number_elements root).owner q)
    (ha : (schedule number_elements root).takeAt p = (schedule number_elements root).takeAt q) : p = q := by
  cases p with
  | source r =>
    cases q with
    | source r' => obtain rfl : r = r' := hs; rfl
    | target r' => have := dist_lt root r'; simp only [schedule] at ha; omega
  | target r =>
    cases q with
    | source r' => have := dist_lt root r; simp only [schedule] at ha; omega
    | target r' => obtain rfl : r = r' := hs; rfl

end

/-! ## What `triggerProgress` does -/

section

variable {root} {r : Fin n} {f : Fields} {F : Net number_elements n T} (hN : 0 < number_elements)
  (hn : 2 ≤ n)
include hN hn

theorem triggerProgressImpl_exit (hi : f.iteration = n) (hd : dist root r + 2 ≠ n) :
    triggerProgressImpl root r f F = (true, f, F) := by
  have h1 : ¬ (n = 1 ∨ number_elements = 0) := by omega
  rw [triggerProgressImpl, if_neg h1, if_pos hi, if_neg (mt (eq_second_last_iff root hn r).mp hd)]

theorem triggerProgressImpl_ack (hi : f.iteration = n) (hd : dist root r + 2 = n) :
    triggerProgressImpl root r f F = (F.slot (.source r), f, F.reset (.source r)) := by
  have h1 : ¬ (n = 1 ∨ number_elements = 0) := by omega
  rw [triggerProgressImpl, if_neg h1, if_pos hi, if_pos ((eq_second_last_iff root hn r).mpr hd)]
  cases hs : F.slot (.source r) with
  | true => simp only [checkForTransferAck_set hs]
  | false => simp only [checkForTransferAck_clear hs, Fabric.reset_of_clear hs]

theorem triggerProgressImpl_tick (hi : f.iteration ≠ n) (hd : dist root r ≠ f.iteration) :
    triggerProgressImpl root r f F = (false, { f with iteration := f.iteration + 1 }, F) := by
  have h1 : ¬ (n = 1 ∨ number_elements = 0) := by omega
  rw [triggerProgressImpl, if_neg h1, if_neg hi, if_neg (by rwa [rank_after_first_eq])]

theorem triggerProgressImpl_clear (hi : f.iteration ≠ n) (hd : dist root r = f.iteration)
    (hs : F.slot (.target r) = false) : triggerProgressImpl root r f F = (false, f, F) := by
  have h1 : ¬ (n = 1 ∨ number_elements = 0) := by omega
  rw [triggerProgressImpl, if_neg h1, if_neg hi, if_pos (by rwa [rank_after_first_eq])]
  simp only [checkForCompletion_clear hs]
  rfl

/-- The data arrives: it is forwarded, or acknowledged by the last rank. -/
theorem triggerProgressImpl_set (hi : f.iteration ≠ n) (hd : dist root r = f.iteration)
    (hs : F.slot (.target r) = true) :
    triggerProgressImpl root r f F = (false, { f with iteration := f.iteration + 1 },
      (F.reset (.target r)).post
        (if dist root r + 1 = n then .source (left r) else .target (right r))) := by
  have h1 : ¬ (n = 1 ∨ number_elements = 0) := by omega
  rw [triggerProgressImpl, if_neg h1, if_neg hi, if_pos (by rwa [rank_after_first_eq])]
  simp only [checkForCompletion_set hs, Bool.not_true, Bool.false_eq_true, if_false]
  by_cases hl : dist root r + 1 = n
  · rw [if_neg (not_not.mpr ((eq_last_iff root r).mpr hl)), if_pos hl]
    simp [ackTransfer, wiring]
  · rw [if_pos (mt (eq_last_iff root r).mp hl), if_neg hl]
    simp [initTransfer, wiring]

end

end GaspiCxx.Collectives.BroadcastBasicLinear
