import GaspiCxx.Context.Contexts

/-!
# What the checks of `writePart` keep out

Both contexts compare `offset + size` with the size of the source and `size`
with the size of the target before they post. The sum is a `size_t`: an offset
that makes it wrap around passes the check.
-/

namespace GaspiCxx.Context

def Operation.isWrite : Operation → Bool
  | .gaspi_write_notify .. => true
  | .gaspi_notify .. => false

variable {σ : Type}

section

variable (source target : BufferDescription) (size offset : UInt64)

/-- The part lies inside both buffers, as integers. -/
def Inside : Prop := offset.toNat + size.toNat ≤ source.size.toNat ∧ size.toNat ≤ target.size.toNat

/-- What the two checks let through. -/
def Passes : Prop := ¬ offset + size > source.size ∧ ¬ size > target.size

/-- The sum wraps around to a value within the source. -/
def Wraps : Prop :=
  0 < size.toNat ∧ size.toNat ≤ target.size.toNat ∧ 2 ^ 64 ≤ offset.toNat + size.toNat ∧
    offset.toNat + size.toNat - 2 ^ 64 ≤ source.size.toNat

/-- Writes stay inside their buffers. -/
structure StaysInside (call : Call) : Prop where
  issued : ∀ rounds, ∀ c ∈ (call rounds).2, c.1.isWrite = true → Inside source target size offset
  throws : 0 < size.toNat → ¬ Inside source target size offset →
    ∀ rounds, (∃ what, (call rounds).1 = .threw what) ∧ (call rounds).2 = []

/-- What a `writePart` does, by its checks. -/
structure Checked (call : Call) : Prop where
  rejects : 0 < size.toNat → ¬ Passes source target size offset →
    ∀ rounds, (∃ what, (call rounds).1 = .threw what) ∧ (call rounds).2 = []
  writes : 0 < size.toNat → Passes source target size offset →
    ∀ rounds, 0 < rounds → ∃ c ∈ (call rounds).2, c.1.isWrite = true
  notifies : size.toNat = 0 → ∀ rounds, ∀ c ∈ (call rounds).2, c.1.isWrite = false

variable {source target size offset}

theorem passes_iff : Passes source target size offset ↔
    (offset.toNat + size.toNat) % 2 ^ 64 ≤ source.size.toNat ∧ size.toNat ≤ target.size.toNat := by
  unfold Passes
  rw [gt_iff_lt, gt_iff_lt, UInt64.lt_iff_toNat_lt, UInt64.lt_iff_toNat_lt, UInt64.toNat_add, Nat.not_lt, Nat.not_lt]

theorem inside_of_passes (hp : Passes source target size offset) (hw : ¬ Wraps source target size offset)
    (hs : 0 < size.toNat) : Inside source target size offset := by
  obtain ⟨h₁, h₂⟩ := passes_iff.mp hp
  have ho := offset.toNat_lt
  have hsize := size.toNat_lt
  refine ⟨?_, h₂⟩
  by_contra hlt
  exact hw ⟨hs, h₂, by omega, by omega⟩

theorem passes_of_wraps (hw : Wraps source target size offset) : Passes source target size offset := by
  obtain ⟨-, h₂, hwrap, h₁⟩ := hw
  have ho := offset.toNat_lt
  have hsize := size.toNat_lt
  exact passes_iff.mpr ⟨by omega, h₂⟩

theorem not_inside_of_wraps (hw : Wraps source target size offset) : ¬ Inside source target size offset := by
  have hsource := source.size.toNat_lt
  obtain ⟨-, -, hwrap, -⟩ := hw
  rintro ⟨h₁, -⟩
  omega

/-- Writes stay inside exactly when no wrap-around gets past the check. -/
theorem Checked.staysInside_iff {call : Call} (h : Checked source target size offset call) :
    StaysInside source target size offset call ↔ ¬ Wraps source target size offset := by
  constructor
  · intro hin hw
    obtain ⟨c, hc, hwrite⟩ := h.writes hw.1 (passes_of_wraps hw) 1 Nat.one_pos
    exact not_inside_of_wraps hw (hin.issued 1 c hc hwrite)
  · intro hw
    refine ⟨fun rounds c hc hwrite => ?_, fun hs hout rounds => ?_⟩
    · have hs : 0 < size.toNat := by
        by_contra hzero
        have hno := h.notifies (by omega) rounds c hc
        exact absurd hwrite (by simp [hno])
      refine inside_of_passes ?_ hw hs
      by_contra hp
      rw [(h.rejects hs hp rounds).2] at hc
      exact absurd hc List.not_mem_nil
    · exact h.rejects hs (fun hp => hout (inside_of_passes hp hw hs)) rounds

end

variable {G : Gaspi σ} {w : World σ} {op : Operation} {source target : BufferDescription} {size offset : UInt64}

theorem size_pos_iff : size > 0 ↔ 0 < size.toNat := by
  rw [gt_iff_lt, UInt64.lt_iff_toNat_lt]
  rfl

theorem size_zero_iff : size = 0 ↔ size.toNat = 0 := by
  rw [← UInt64.toNat_inj]
  rfl

/-- A loop of `rounds` rounds has made posting calls of the operation `op` and of no other. -/
def Posts (op : Operation) (rounds : Nat) (before after : Calls) : Prop :=
  ∃ calls, after = before ++ calls ∧ (∀ call ∈ calls, call.1 = op) ∧ (0 < rounds → calls ≠ [])

theorem Posts.all {rounds : Nat} {calls : Calls} (h : Posts op rounds [] calls) :
    ∀ call ∈ calls, call.1 = op := by
  obtain ⟨calls', rfl, hops, -⟩ := h
  exact hops

theorem Posts.some {rounds : Nat} {calls : Calls} (h : Posts op rounds [] calls)
    (hr : 0 < rounds) : ∃ call ∈ calls, call.1 = op := by
  obtain ⟨calls', rfl, hops, hne⟩ := h
  obtain ⟨call, rest, rfl⟩ := List.exists_cons_of_ne_nil (hne hr)
  exact ⟨call, List.mem_cons_self, hops call List.mem_cons_self⟩

/-! ## `SingleQueueContext` -/

namespace SingleQueueContext

variable {c : SingleQueueContext} {origin rethrow context : String}

/-- The loop posts nothing but its operation. -/
theorem posts (rounds : Nat) (w : World σ) :
    Posts op rounds w.calls (post G c op origin rethrow context rounds w).2.calls := by
  induction rounds generalizing w with
  | zero => exact ⟨[], by simp [post], by simp, nofun⟩
  | succ rounds ih =>
    have hone : ∀ call ∈ [(op, c._pQueue, (issue G op c._pQueue w).1)], call.1 = op := by simp
    unfold post
    simp only
    split
    · cases hf : flush G c._pQueue (issue G op c._pQueue w).2 with
      | mk outcome w' =>
        have hcalls : w'.calls = w.calls ++ [(op, c._pQueue, (issue G op c._pQueue w).1)] :=
          (congrArg (fun r => r.2.calls) hf).symm
        cases outcome with
        | returned =>
          obtain ⟨calls, hpost, hops, -⟩ := ih w'
          refine ⟨_ :: calls, ?_, List.forall_mem_cons.mpr ⟨hone _ List.mem_cons_self, hops⟩,
            fun _ => List.cons_ne_nil _ _⟩
          rw [hpost, hcalls, List.append_assoc, List.singleton_append]
        | _ => exact ⟨_, hcalls, hone, fun _ => List.cons_ne_nil _ _⟩
    · refine ⟨_, ?_, hone, fun _ => List.cons_ne_nil _ _⟩
      split <;> rfl

theorem checked (g : σ) : Checked source target size offset (called G c g source target size offset) where
  rejects _ hp rounds := by
    unfold called writePart
    split
    · exact ⟨⟨_, rfl⟩, rfl⟩
    · split
      · exact ⟨⟨_, rfl⟩, rfl⟩
      · next h₁ h₂ => exact absurd ⟨h₁, h₂⟩ hp
  writes hs hp rounds hr := by
    unfold called writePart
    rw [if_neg hp.1, if_neg hp.2, if_pos (size_pos_iff.mpr hs)]
    obtain ⟨call, hc, hop⟩ := Posts.some (posts rounds { gaspi := g, calls := [] }) hr
    exact ⟨call, hc, by rw [hop]; rfl⟩
  notifies hs rounds call hc := by
    unfold called writePart at hc
    split at hc
    · exact absurd hc List.not_mem_nil
    · split at hc
      · exact absurd hc List.not_mem_nil
      · rw [if_neg (by rw [size_pos_iff]; omega)] at hc
        rw [(posts rounds { gaspi := g, calls := [] }).all call hc]
        rfl

end SingleQueueContext

/-! ## `RoundRobinQueuesContext` -/

namespace RoundRobinQueuesContext

variable {queues : List QueueID} {c : RoundRobinQueuesContext} {origin : String}

theorem select_available_queue_calls (full queue_index : Fin queues.length) :
    (select_available_queue G queues full queue_index w).2.2.calls = w.calls := by
  unfold select_available_queue
  split
  · simp only
    cases hf : flush G _ w with
    | mk outcome w' =>
      have hcalls : w'.calls = w.calls := (congrArg (fun r => r.2.calls) hf).symm
      cases outcome <;> exact hcalls
  · rfl

theorem posts (rounds : Nat) (current queue_index : Fin queues.length) (w : World σ) :
    Posts op rounds w.calls (post G queues op origin rounds current queue_index w).2.2.calls := by
  induction rounds generalizing current queue_index w with
  | zero => exact ⟨[], by simp [post], by simp, nofun⟩
  | succ rounds ih =>
    have hone : ∀ call ∈ [(op, queues.get current, (issue G op (queues.get current) w).1)], call.1 = op := by simp
    unfold post
    simp only
    split
    · exact ⟨_, rfl, hone, fun _ => List.cons_ne_nil _ _⟩
    · have hselect := select_available_queue_calls (G := G) (w := (issue G op (queues.get current) w).2) current
        queue_index
      cases hs : select_available_queue G queues current queue_index (issue G op (queues.get current) w).2 with
      | mk outcome rest =>
        rw [hs] at hselect
        cases outcome with
        | returned =>
          obtain ⟨calls, hpost, hops, -⟩ := ih rest.1 rest.1 rest.2
          refine ⟨_ :: calls, ?_, List.forall_mem_cons.mpr ⟨hone _ List.mem_cons_self, hops⟩,
            fun _ => List.cons_ne_nil _ _⟩
          rw [hpost, hselect, issue_calls, List.append_assoc, List.singleton_append]
        | _ => exact ⟨_, hselect, hone, fun _ => List.cons_ne_nil _ _⟩
    · exact ⟨_, rfl, hone, fun _ => List.cons_ne_nil _ _⟩

theorem checked (g : σ) : Checked source target size offset (called G c g source target size offset) where
  rejects hs hp rounds := by
    unfold called writePart
    rw [if_neg (by rw [size_zero_iff]; omega)]
    split
    · exact ⟨⟨_, rfl⟩, rfl⟩
    · split
      · exact ⟨⟨_, rfl⟩, rfl⟩
      · next h₁ h₂ => exact absurd ⟨h₁, h₂⟩ hp
  writes hs hp rounds hr := by
    unfold called writePart
    rw [if_neg (by rw [size_zero_iff]; omega), if_neg hp.1, if_neg hp.2]
    obtain ⟨call, hc, hop⟩ := Posts.some (posts rounds c.queue_index c.queue_index { gaspi := g, calls := [] }) hr
    exact ⟨call, hc, by rw [hop]; rfl⟩
  notifies hs rounds call hc := by
    unfold called writePart at hc
    rw [if_pos (size_zero_iff.mpr hs)] at hc
    rw [(posts rounds c.queue_index c.queue_index { gaspi := g, calls := [] }).all call hc]
    rfl

end RoundRobinQueuesContext

/-- **Writes stay inside their buffers exactly when the sum does not wrap past
the check**, in both contexts and whatever the library answers. -/
theorem write_part_inside_iff (G : Gaspi σ) (g : σ) (single : SingleQueueContext) (roundRobin : RoundRobinQueuesContext)
    (source target : BufferDescription) (size offset : UInt64) :
    (StaysInside source target size offset (single.called G g source target size offset) ↔
      ¬ Wraps source target size offset) ∧
    (StaysInside source target size offset (roundRobin.called G g source target size offset) ↔
      ¬ Wraps source target size offset) :=
  ⟨(SingleQueueContext.checked g).staysInside_iff, (RoundRobinQueuesContext.checked g).staysInside_iff⟩

/-- 16 bytes from 8 bytes before the source buffer on. -/
theorem write_part_wraps : ¬ ∀ (σ : Type) (G : Gaspi σ) (g : σ) (single : SingleQueueContext)
    (roundRobin : RoundRobinQueuesContext) (source target : BufferDescription) (size offset : UInt64),
    StaysInside source target size offset (single.called G g source target size offset) ∧
      StaysInside source target size offset (roundRobin.called G g source target size offset) := by
  intro h
  have hin := (h _ (queues 1) (fun _ => 0) ⟨0⟩ ⟨[0], 0⟩ ⟨0, 0, 0, 16, 0⟩ ⟨1, 0, 0, 16, 0⟩ 16 (0 - 8)).1
  exact (SingleQueueContext.checked _).staysInside_iff.mp hin (by unfold Wraps; decide)

/-- A whole buffer is written inside its target or not at all: nothing wraps around. -/
theorem write_inside (G : Gaspi σ) (g : σ) (single : SingleQueueContext) (roundRobin : RoundRobinQueuesContext)
    (source target : BufferDescription) :
    StaysInside source target source.size 0 (write (single.called G g) source target) ∧
      StaysInside source target source.size 0 (write (roundRobin.called G g) source target) := by
  have hw : ¬ Wraps source target source.size 0 := by
    rintro ⟨-, -, hwrap, -⟩
    have hsource := source.size.toNat_lt
    rw [UInt64.toNat_zero] at hwrap
    omega
  exact ⟨(SingleQueueContext.checked g).staysInside_iff.mpr hw, (RoundRobinQueuesContext.checked g).staysInside_iff.mpr hw⟩

end GaspiCxx.Context
