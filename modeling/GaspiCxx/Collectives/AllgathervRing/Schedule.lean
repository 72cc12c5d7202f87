import GaspiCxx.Collectives.AllgathervRing.Model
import GaspiCxx.Collectives.Progress

/-!
# Who posts what when in the ring allgatherv

A rank's program has `n + 1` positions: starting (0), leaving step `i - 1`
(`i = 1 .. n-1`) and seeing the last acknowledgement (`n`). Target `i` is
posted at position `i` of the left neighbour and taken at position `i + 1`.
-/

namespace GaspiCxx.Collectives.AllgathervRing

open OneSided SingleSided GroupUtilities AllgathervCommon

variable {n : Nat} {T : Type} (counts : Fin n → Nat)

def schedule : Schedule (Fin n) (Port n) (Loc n) where
  toWiring := wiring counts
  owner
    | .source r _ => r
    | .target r _ => r
  used
    | .source _ i => i + 2 == n
    | .target _ i => decide (i + 1 < n)
  postAt
    | .source _ _ => n - 1
    | .target _ i => i
  takeAt
    | .source _ _ => n
    | .target _ i => i + 1

/-- The positions a rank has passed in its current run. -/
def steps (n : Nat) (N : Node (Fields T) (Nat → Option T)) : Nat :=
  match N.state with
  | .uninitialized | .initialized | .ready => 0
  | .running => N.fields.current_step + 1
  | .finished => n + 1

theorem steps_finished {N : Node (Fields T) (Nat → Option T)} (h : N.state = .finished) :
    steps n N = n + 1 := by simp [steps, h]

abbrev progress (s : GroupSys n T) : Fin n → Progress := progressOf (fun _ => steps n) s

/-- Rank `r`'s block in run `k`. -/
def blk (input : Fin n → Nat → Nat → T) (r : Fin n) (k : Nat) : List T :=
  readFrom (input r k) (counts r)

/-- What the `k`-th transfer to a target buffer has to bring. -/
def Good (input : Fin n → Nat → Nat → T) : Port n → Nat → List T → Prop
  | .source _ _, _, _ => True
  | .target r i, k, v => v = blk counts input (receive_index r i) k

section

variable {counts} (g : Fin n → Progress) (r : Fin n) {i : Nat}

theorem used_target : (schedule counts).used (.target r i) = true ↔ i + 1 < n := by simp [schedule]

theorem used_source : (schedule counts).used (.source r i) = true ↔ i + 2 = n := by simp [schedule]

theorem sent_target (hi : i + 1 < n) :
    (schedule counts).sent g (.target r i) = (g (left r)).passed i :=
  Schedule.sent_used ((used_target r).mpr hi)

theorem taken_target (hi : i + 1 < n) :
    (schedule counts).taken g (.target r i) = (g r).passed (i + 1) :=
  Schedule.taken_used ((used_target r).mpr hi)

theorem sent_source (hi : i + 2 = n) :
    (schedule counts).sent g (.source r i) = (g (right r)).passed (n - 1) :=
  Schedule.sent_used ((used_source r).mpr hi)

theorem taken_source (hi : i + 2 = n) : (schedule counts).taken g (.source r i) = (g r).passed n :=
  Schedule.taken_used ((used_source r).mpr hi)

end

/-! ## Ring arithmetic -/

theorem receive_index_right (r : Fin n) : ∀ i, receive_index (right r) (i + 1) = receive_index r i
  | 0 => by simp [receive_index]
  | i + 1 => by rw [receive_index, receive_index_right r i, receive_index]

theorem receive_index_right_zero (r : Fin n) : receive_index (right r) 0 = r := by
  simp [receive_index]

theorem dist_receive_index (r : Fin n) : ∀ i, i + 1 < n → dist (receive_index r i) r = i + 1
  | 0, h => by rw [receive_index, dist_left, dist_self, if_neg (by omega)]
  | i + 1, h => by
    rw [receive_index, dist_left, dist_receive_index r i (by omega), if_neg (by omega)]

/-- Every other rank's block is received in some target buffer. -/
theorem exists_receive_index {q r : Fin n} (h : q ≠ r) :
    ∃ i, i + 1 < n ∧ receive_index r i = q := by
  have hd : dist q r ≠ 0 := fun h0 => h (dist_eq_zero h0)
  have := dist_lt q r
  refine ⟨dist q r - 1, by omega, dist_inj (r := r) ?_⟩
  rw [dist_receive_index r _ (by omega)]
  omega

/-- **A posted transfer fits the right neighbour's target buffer exactly.** -/
theorem bufferSize_peer (r : Fin n) (i : Nat) :
    bufferSize counts (.source r i) = bufferSize counts ((wiring counts).peer (.source r i)) := by
  cases i with
  | zero => simp [bufferSize, wiring, receive_index]
  | succ i => simp only [bufferSize, wiring, receive_index_right]

/-- A block is transferred as data unless it is empty. -/
theorem carries_target (r : Fin n) (i : Nat) :
    (wiring counts).carries (.target r i) = decide (0 < counts (receive_index r i)) := by
  have h := bufferSize_peer counts (left r) i
  simp only [wiring, right_left] at h
  show decide (0 < bufferSize counts (.source (left r) i)) = _
  rw [h]
  rfl

/-! ## What `triggerProgress` does -/

section

variable {counts} {r : Fin n} {f : Fields T} {F : Net n T}

theorem triggerProgressImpl_ack_set (hn : n ≠ 1) (hlast : f.current_step = n - 1)
    (hset : F.slot (.source r (n - 2)) = true) :
    triggerProgressImpl counts r f F = (true, f, F.reset (.source r (n - 2))) := by
  have hidx : n - 1 - 1 = n - 2 := rfl
  simp only [triggerProgressImpl, if_neg hn, is_last_step, hlast, beq_self_eq_true, if_true, hidx,
    checkForTransferAck_set hset]

theorem triggerProgressImpl_ack_clear (hn : n ≠ 1) (hlast : f.current_step = n - 1)
    (hset : F.slot (.source r (n - 2)) = false) : triggerProgressImpl counts r f F = (false, f, F) := by
  have hidx : n - 1 - 1 = n - 2 := rfl
  simp only [triggerProgressImpl, if_neg hn, is_last_step, hlast, beq_self_eq_true, if_true, hidx,
    checkForTransferAck_clear hset]

theorem triggerProgressImpl_target_clear (hn : n ≠ 1) (hlast : f.current_step ≠ n - 1)
    (hset : F.slot (.target r f.current_step) = false) :
    triggerProgressImpl counts r f F = (false, f, F) := by
  simp [triggerProgressImpl, hn, is_last_step, hlast, checkForCompletion_clear hset]

/-- A block arrives: it is forwarded to the right, the last one is acknowledged. -/
theorem triggerProgressImpl_target_set (hn : n ≠ 1) (hlast : f.current_step ≠ n - 1)
    (hset : F.slot (.target r f.current_step) = true) :
    triggerProgressImpl counts r f F = (false, { f with current_step := f.current_step + 1 },
      if f.current_step + 1 = n - 1 then
        (F.reset (.target r f.current_step)).post (.source (left r) f.current_step)
      else (F.reset (.target r f.current_step)).post (.target (right r) (f.current_step + 1))) := by
  by_cases hnext : f.current_step + 1 = n - 1
  · simp [triggerProgressImpl, hn, is_last_step, hlast, checkForCompletion_set hset, hnext, ackTransfer,
      wiring]
    congr; omega
  · simp [triggerProgressImpl, hn, is_last_step, hlast, checkForCompletion_set hset, hnext, initTransfer,
      wiring]

end

end GaspiCxx.Collectives.AllgathervRing
