import GaspiCxx.Collectives.AllreduceRing.Passing

/-!
# Correctness of the ring allreduce

The object may be reused any number of times under any interleaving: the one
acknowledgement per run is enough, because a chunk has to travel all the way
around the ring before its buffer is written again.
-/

namespace GaspiCxx.Collectives.AllreduceRing

open OneSided SingleSided GroupUtilities AllreduceCommon

variable {n number_elements : Nat} {T : Type} (f : T → T → T) (input : Fin n → Nat → Nat → T)

/-- The owner has yet to read the buffer, to send from it, or to copy it out. -/
def StillNeeds (s : GroupSys n number_elements T) : Loc n → Prop
  | .received r j => s.fabric.slot (.target_reduce r j) = true
  | .chunk r j =>
    (s.node r).state = .ready ∨ (s.node r).state = .finished ∨
    -- its own contribution has not been sent, or the result has arrived
    (s.node r).state = .running ∧ ((s.node r).fields.current_step < dist j r ∨
      n + dist j r ≤ (s.node r).fields.current_step ∨ dist j r + 1 = n) ∨
    s.fabric.slot (.target_gather r j) = true ∨
    ∃ q, (wiring n).carries q = true ∧ s.fabric.flight q ≠ [] ∧ (wiring n).loc ((wiring n).peer q) = .chunk r j

/-- What every reachable state of the group promises. -/
structure Correct (s : GroupSys n number_elements T) : Prop where
  outputs : ∀ r k out, (s.node r).outputs[k]? = some out →
    (∀ j, j < number_elements → ∃ hj : j / number_elements_padded n number_elements < n,
      out j = some (reduction f (fun q => input q k j)
        ⟨j / number_elements_padded n number_elements, hj⟩ (n - 1))) ∧
    ∀ j, number_elements ≤ j → out j = none
  agree : ∀ r q (k : Nat) out out', (s.node r).outputs[k]? = some out →
    (s.node q).outputs[k]? = some out' → out = out'
  no_overrun : ∀ p, ¬ s.fabric.Overrun p
  safe : ∀ p, (wiring n).carries p = true → s.fabric.flight p ≠ [] → ¬ StillNeeds s ((wiring n).loc p)
  live : ∀ k, (∀ r, Started k (s.node r)) → (∃ r, ¬ Completed k (s.node r)) → s.fabric.Delivered →
    ∃ r, (s.node r).state = .running ∧ (allreduce n number_elements f).Proceeds input s r

namespace Holds

variable {f input} {s : GroupSys n number_elements T}
  {I : Channels (Port n) (Loc n) (Chunk n number_elements T)}

theorem safe (h : Holds f input s I) (hn : 2 ≤ n) {p : Port n} (hc : (wiring n).carries p = true)
    (hf : s.fabric.flight p ≠ []) : ¬ StillNeeds s ((wiring n).loc p) := by
  have hlt := h.tracks.lt_of_flight hf
  have hov := h.tracks.sim.no_overrun p
  cases p with
  | source_reduce | source_gather => simp [wiring] at hc
  | target_reduce r j => exact fun hneed => hov ⟨hneed, hf⟩
  | target_gather r j =>
    have hu := used_target_gather.mp (Schedule.used_of_lt hlt)
    have hst : dist j r < steps n (s.node r) ∧ steps n (s.node r) ≤ n + dist j r := by
      by_contra hno
      have := h.idle_gather_in hn (r := r) (j := j) (by omega)
      omega
    rintro (hs | hs | ⟨hs, hd⟩ | hs | ⟨q, hq, hfq, hloc⟩)
    · simp only [steps, hs] at hst; omega
    · simp only [steps, hs] at hst; omega
    · simp only [steps, hs] at hst; omega
    · exact hov ⟨hs, hf⟩
    · exact h.tracks.sim.apart _ q (h.tracks.incoming_iff.mpr ⟨hc, hlt⟩) hq hfq hloc.symm

theorem live (h : Holds f input s I) (hN : 0 < number_elements) (hn : 2 ≤ n) {k : Nat}
    (hstart : ∀ r, Started k (s.node r)) (hno : ∃ r, ¬ Completed k (s.node r))
    (hd : s.fabric.Delivered) :
    ∃ r, (s.node r).state = .running ∧ (allreduce n number_elements f).Proceeds input s r := by
  obtain ⟨r, hs, hr⟩ := exists_behind_running (fun _ => steps n) hstart hno
    (fun r hs => steps_finished n hs) (fun r hs => h.steps_lt hs)
  have hle := h.step_le r hs
  have hidx := h.index r hs
  have hst : (progress n s r).steps = (s.node r).fields.current_step + 1 := by simp [steps, hs]
  refine ⟨r, hs, ?_⟩
  by_cases hlast : (s.node r).fields.current_step = 2 * (n - 1)
  · have hj := ack_index hn (r := r) (i := (s.node r).fields.current_index)
      (by rw [hidx]; split <;> omega) rfl
    have hslot := Schedule.awaited (S := schedule n) h.tracks
      (p := .source_gather r (ringIndex ((s.node r).fields.current_index + 2) r)) hr (used_source_gather.mpr hj)
      (by simp only [schedule]; omega) (by simp only [schedule]; omega) (hd _)
    refine Collective.proceeds_of_trigger hs (triggerProgressImpl_ack hN hn hlast) (.inl hslot)
  · by_cases hi : (s.node r).fields.current_step + 1 < n
    · rw [if_pos hi] at hidx
      have hslot := Schedule.awaited (S := schedule n) h.tracks
        (p := .target_reduce r (s.node r).fields.current_index) hr (used_target_reduce.mpr (by omega))
        (by simp only [schedule]; omega) (by simp only [schedule]; omega) (hd _)
      refine Collective.proceeds_of_trigger hs (triggerProgressImpl_reduce_set hN hn hi hslot)
        (.inr fun he => ?_)
      have := congrArg Fields.current_step he
      simp at this
    · rw [if_neg hi] at hidx
      have hslot := Schedule.awaited (S := schedule n) h.tracks
        (p := .target_gather r (s.node r).fields.current_index) hr (used_target_gather.mpr (by omega))
        (by simp only [schedule]; omega) (by simp only [schedule]; omega) (hd _)
      refine Collective.proceeds_of_trigger hs (triggerProgressImpl_gather_set hN hn hi (by omega) hslot)
        (.inr fun he => ?_)
      have := congrArg Fields.current_step he
      simp at this

end Holds

/-! ## Two ranks with three elements each -/

section

/-- Rank `r` contributes `100 * k + 10 * r + j` as element `j` of run `k`. -/
def stamp (r : Fin 2) (k j : Nat) : Nat := 100 * k + 10 * r + j

def enter (r : Fin 2) : List (Action (Fin 2) (Port 2)) := [.call r .copyIn, .call r .start]

/-- The transfer to port `p` is read, stored and notified. -/
def deliver (p : Port 2) : List (Action (Fin 2) (Port 2)) := List.replicate 3 (.advance p 0)

def trigger : List (Action (Fin 2) (Port 2)) := (List.finRange 2).map fun r => .call r .triggerProgress

/-- The ranks `a` and `b` complete a run in lockstep. -/
def lockstep (a b : Fin 2) : List (Action (Fin 2) (Port 2)) :=
  enter a ++ enter b ++ deliver (.target_reduce b a) ++ deliver (.target_reduce a b) ++ trigger ++
    deliver (.target_gather a a) ++ deliver (.target_gather b b) ++ trigger ++
    [.advance (.source_gather a b) 0, .advance (.source_gather b a) 0] ++ trigger ++
    [.call a .copyOut, .call b .copyOut]

end

/-! ## Results -/

variable {f input} {s : GroupSys n number_elements T} {m : Loc n → Chunk n number_elements T}

/-- **The ring allreduce is correct over any number of runs and under every
interleaving, for any operation.** -/
theorem allreduce_ring_correct (hn : 2 ≤ n) (hN : 1 ≤ number_elements)
    (h : (allreduce n number_elements f).Reach input m (fun _ _ => True) s) : Correct f input s := by
  obtain ⟨I, hI⟩ := holds_of_reach hN hn h
  refine ⟨fun r k out hk => ⟨fun j hjN => ?_, fun j hj => ?_⟩, fun r q k out out' hk hk' => ?_,
    hI.tracks.sim.no_overrun, fun p => hI.safe hn, fun k => hI.live hN hn⟩
  · have hj : j / number_elements_padded n number_elements < n := by
      obtain ⟨i, e, rfl⟩ := exists_element (n := n) hjN (by omega)
      rw [element_div]
      exact i.isLt
    exact ⟨hj, by rw [hI.outputs r k out hk, result, dif_pos ⟨hj, hjN⟩]⟩
  · rw [hI.outputs r k out hk, result, dif_neg (by omega)]
  · rw [hI.outputs r k out hk, hI.outputs q k out' hk']

theorem allreduce_ring_correct_lockstep :
    ∃ s, (allreduce 2 3 (ReductionOp.functor .SUM)).Reach stamp (fun _ _ => 0) (fun _ _ => True) s ∧
      (s.node 0).run = 2 ∧ Correct (ReductionOp.functor .SUM) stamp s := by
  obtain ⟨s, hs, hrun⟩ : ∃ s, (allreduce 2 3 (ReductionOp.functor .SUM)).Reach stamp (fun _ _ => 0)
      (fun _ _ => True) s ∧ (s.node 0).run = 2 :=
    exists_reaches_of_exec ([.call 0 .waitForSetup, .call 1 .waitForSetup] ++ lockstep 0 1 ++ lockstep 0 1) (by decide)
  exact ⟨s, hs, hrun, allreduce_ring_correct (by decide) (by decide) hs⟩

end GaspiCxx.Collectives.AllreduceRing
