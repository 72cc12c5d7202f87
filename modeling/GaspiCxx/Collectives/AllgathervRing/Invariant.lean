import GaspiCxx.Collectives.AllgathervRing.Output

/-!
# The invariant of the ring allgatherv

`Holds s I`: the fabric of `s` carries the channels `I` (`tracks`); a rank's
own buffer and the blocks it has received in this run hold the right data;
and no rank is more than one started run ahead of the runs its right
neighbour has copied out (`ahead`). The last clause is not kept by the code: it
is what the guard `WaitsForRight` on `start` adds.
-/

namespace GaspiCxx.Collectives.AllgathervRing

open OneSided SingleSided GroupUtilities AllgathervCommon

variable {n : Nat} {T : Type} (counts : Fin n → Nat) (input : Fin n → Nat → Nat → T)

/-- Rank `r` starts its run only when its right neighbour has copied out the
run before. -/
def WaitsForRight (s : GroupSys n T) : Action (Fin n) (Port n) → Prop
  | .call r c => c = .start → (s.node r).run ≤ (s.node (right r)).run
  | .advance _ _ => True

instance (s : GroupSys n T) : DecidablePred (WaitsForRight s)
  | .call r c => inferInstanceAs (Decidable (c = .start → (s.node r).run ≤ (s.node (right r)).run))
  | .advance _ _ => .isTrue trivial

/-- The input of the current run has been copied in. -/
def Active (N : Node (Fields T) (Nat → Option T)) : Prop :=
  N.state = .ready ∨ N.state = .running ∨ N.state = .finished

structure Holds (s : GroupSys n T) (I : Channels (Port n) (Loc n) (List T)) : Prop where
  tracks : Tracks (wiring counts) (Good counts input) s.fabric I
    ((schedule counts).sent (progress s)) ((schedule counts).taken (progress s))
  step_lt : ∀ r, (s.node r).state = .running → (s.node r).fields.current_step < n
  own : ∀ r, Active (s.node r) → I.mem (.own r) = blk counts input r (s.node r).run
  block : ∀ r i, i + 1 < n → i + 1 < steps n (s.node r) → 0 < counts (receive_index r i) →
    I.mem (.block r i) = blk counts input (receive_index r i) (s.node r).run
  ahead : ∀ r, (progress s r).passed 0 ≤ (s.node (right r)).run + 1
  outputs : ∀ r k out, (s.node r).outputs[k]? = some out → Gathered counts (fun q => input q k) out

variable {counts input} {s : GroupSys n T} {I I' : Channels (Port n) (Loc n) (List T)} {r : Fin n}

/-! ## Causality -/

namespace Holds

variable (h : Holds counts input s I)
include h

theorem steps_lt (hs : (s.node r).state ≠ .finished) : steps n (s.node r) < n + 1 := by
  cases hst : (s.node r).state with
  | running => have := h.step_lt r hst; simp only [steps, hst]; omega
  | finished => exact absurd hst hs
  | uninitialized | initialized | ready => simp [steps, hst]

theorem data_le (r : Fin n) {i : Nat} (hi : i + 1 < n) :
    (progress s (right r)).passed (i + 1) ≤ (progress s r).passed i := by
  have := h.tracks.taken_le (.target (right r) i)
  rwa [sent_target _ _ hi, taken_target _ _ hi, left_right] at this

theorem ack_le (hn : 2 ≤ n) (r : Fin n) :
    (progress s r).passed n ≤ (progress s (right r)).passed (n - 1) := by
  have := h.tracks.taken_le (.source r (n - 2))
  rwa [sent_source _ _ (by omega), taken_source _ _ (by omega)] at this

/-- What a rank has not yet sent in this run is not on its way from an earlier
run: that run ended with its right neighbour's acknowledgement. -/
theorem fresh (hn : 2 ≤ n) (r : Fin n) {i : Nat} (hi : i + 1 < n) (hp : (progress s r).steps ≤ i) :
    (progress s (right r)).passed (i + 1) = (progress s r).passed i := by
  have h1 := h.data_le r hi
  have h2 := h.ack_le hn r
  have h3 := (progress s r).run_le_passed n
  have h4 := (progress s (right r)).passed_anti (show i + 1 ≤ n - 1 by omega)
  rw [Progress.passed_of_le hp] at h1 ⊢
  omega

/-- When a rank may send its `i`-th block, its right neighbour is not
forwarding from the buffer it lands in. -/
theorem settled (hn : 2 ≤ n) (r : Fin n) {i : Nat} (hi : i + 2 < n) (hp : (progress s r).steps ≤ i)
    (hrun : (s.node r).run ≤ (s.node (right r)).run) :
    (progress s (right (right r))).passed (i + 1 + 1) = (progress s (right r)).passed (i + 1) := by
  have h1 := h.fresh hn r (i := i) (by omega) hp
  rw [Progress.passed_of_le hp] at h1
  apply h.fresh hn (right r) hi
  by_contra hlt
  rw [Progress.passed_of_lt (by omega)] at h1
  simp only [progress, progressOf] at h1
  omega

end Holds

end GaspiCxx.Collectives.AllgathervRing
