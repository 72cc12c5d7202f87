import GaspiCxx.Context.Contexts

/-!
# The two contexts do the same

On queues with room for at least one operation both loops end in their second
round at the latest: a full queue is waited for, and then it is empty. The two
differ in one place. `RoundRobinQueuesContext` looks at a size of zero before it
looks at the offset, `SingleQueueContext` behind it.
-/

namespace GaspiCxx.Context

/-- Both calls throw and post nothing, or both return and have posted the same one operation. -/
def Same (source target : BufferDescription) (size offset : UInt64) (single roundRobin : Outcome × Calls) : Prop :=
  ((∃ what, single.1 = .threw what) ∧ (∃ what, roundRobin.1 = .threw what) ∧
    posted single.2 = [] ∧ posted roundRobin.2 = []) ∨
  (single.1 = .returned ∧ roundRobin.1 = .returned ∧
    posted single.2 = [if size > 0 then writeNotify source target size offset else notifyOnly target] ∧
    posted roundRobin.2 = [if size > 0 then writeNotify source target size offset else notifyOnly target])

/-- The calls end within two rounds, and they have done the same. -/
def Interchangeable (source target : BufferDescription) (size offset : UInt64) (single roundRobin : Call) : Prop :=
  ∀ rounds, 2 ≤ rounds → Same source target size offset (single rounds) (roundRobin rounds)

variable {capacity rounds : Nat} {op : Operation} {w : World (QueueID → Nat)} {source target : BufferDescription}
  {size offset : UInt64}

/-! ## The loops -/

namespace SingleQueueContext

variable {c : SingleQueueContext} {origin rethrow context : String}

theorem post_room (h : w.gaspi c._pQueue < capacity) :
    post (queues capacity) c op origin rethrow context (rounds + 1) w = (.returned,
      { gaspi := Function.update w.gaspi c._pQueue (w.gaspi c._pQueue + 1),
        calls := w.calls ++ [(op, c._pQueue, .GASPI_SUCCESS)] }) := by
  rw [post, issue_room h]
  rfl

theorem post_full (h : capacity ≤ w.gaspi c._pQueue) :
    post (queues capacity) c op origin rethrow context (rounds + 1) w =
      post (queues capacity) c op origin rethrow context rounds
        { gaspi := Function.update w.gaspi c._pQueue 0,
          calls := w.calls ++ [(op, c._pQueue, .GASPI_QUEUE_FULL)] } := by
  rw [post, issue_full h]
  rfl

/-- The loop posts its operation, at the latest behind a flush. -/
theorem post_queues (hcap : 0 < capacity) (hr : 2 ≤ rounds) (w : World (QueueID → Nat)) :
    (post (queues capacity) c op origin rethrow context rounds w).1 = .returned ∧
      posted (post (queues capacity) c op origin rethrow context rounds w).2.calls = posted w.calls ++ [op] := by
  obtain ⟨rounds, rfl⟩ : ∃ r, rounds = r + 2 := ⟨rounds - 2, by omega⟩
  rcases Nat.lt_or_ge (w.gaspi c._pQueue) capacity with hroom | hfull
  · rw [post_room hroom]
    exact ⟨rfl, posted_success ..⟩
  · rw [post_full hfull, post_room (by simpa using hcap)]
    exact ⟨rfl, by rw [posted_success, posted_full]⟩

end SingleQueueContext

namespace RoundRobinQueuesContext

variable {ids : List QueueID} {c : RoundRobinQueuesContext} {origin : String} {i : Fin ids.length}

theorem next_lt (ids : List QueueID) (i : Fin ids.length) : (i + 1) % ids.length < ids.length :=
  Nat.mod_lt _ (Fin.pos i)

/-- The queue behind the queue `i`. -/
def next (i : Fin ids.length) : Fin ids.length := ⟨(i + 1) % ids.length, next_lt ids i⟩

theorem post_room (h : w.gaspi (ids.get i) < capacity) :
    post (queues capacity) ids op origin (rounds + 1) i i w = (.returned, i,
      { gaspi := Function.update w.gaspi (ids.get i) (w.gaspi (ids.get i) + 1),
        calls := w.calls ++ [(op, ids.get i, .GASPI_SUCCESS)] }) := by
  rw [post, issue_room h]

theorem post_full (h : capacity ≤ w.gaspi (ids.get i)) :
    post (queues capacity) ids op origin (rounds + 1) i i w =
      post (queues capacity) ids op origin rounds (next i) (next i)
        { gaspi := Function.update w.gaspi (ids.get (next i)) 0,
          calls := w.calls ++ [(op, ids.get i, .GASPI_QUEUE_FULL)] } := by
  rw [post, issue_full h]
  simp only [select_available_queue, ↓reduceIte, flush_queues]
  rfl

/-- The loop posts its operation, at the latest on the next queue. -/
theorem post_queues (hcap : 0 < capacity) (hr : 2 ≤ rounds) (i : Fin ids.length) (w : World (QueueID → Nat)) :
    (post (queues capacity) ids op origin rounds i i w).1 = .returned ∧
      posted (post (queues capacity) ids op origin rounds i i w).2.2.calls = posted w.calls ++ [op] := by
  obtain ⟨rounds, rfl⟩ : ∃ r, rounds = r + 2 := ⟨rounds - 2, by omega⟩
  rcases Nat.lt_or_ge (w.gaspi (ids.get i)) capacity with hroom | hfull
  · rw [post_room hroom]
    exact ⟨rfl, posted_success ..⟩
  · rw [post_full hfull, post_room (by simpa using hcap)]
    exact ⟨rfl, by rw [posted_success, posted_full]⟩

end RoundRobinQueuesContext

/-! ## The two contexts -/

variable {single : SingleQueueContext} {roundRobin : RoundRobinQueuesContext} {occupancy : QueueID → Nat}

theorem zero_add_le : ¬ offset + 0 > source.size ↔ offset.toNat ≤ source.size.toNat := by
  rw [UInt64.add_zero, gt_iff_lt, UInt64.lt_iff_toNat_lt, Nat.not_lt]

/-- A part of positive size is checked alike. -/
theorem same_of_pos (hcap : 0 < capacity) (hs : size > 0) :
    Interchangeable source target size offset (single.called (queues capacity) occupancy source target size offset)
      (roundRobin.called (queues capacity) occupancy source target size offset) := by
  intro rounds hr
  have hzero : size ≠ 0 := by
    rintro rfl
    exact absurd hs (by decide)
  unfold Same SingleQueueContext.called RoundRobinQueuesContext.called SingleQueueContext.writePart
    RoundRobinQueuesContext.writePart
  rw [if_neg hzero]
  by_cases hsource : offset + size > source.size
  · rw [if_pos hsource, if_pos hsource]
    exact .inl ⟨⟨_, rfl⟩, ⟨_, rfl⟩, rfl, rfl⟩
  · rw [if_neg hsource, if_neg hsource]
    by_cases htarget : size > target.size
    · rw [if_pos htarget, if_pos htarget]
      exact .inl ⟨⟨_, rfl⟩, ⟨_, rfl⟩, rfl, rfl⟩
    · rw [if_neg htarget, if_neg htarget, if_pos hs, if_pos hs]
      obtain ⟨h₁, h₂⟩ := SingleQueueContext.post_queues hcap hr { gaspi := occupancy, calls := [] }
      obtain ⟨h₃, h₄⟩ := RoundRobinQueuesContext.post_queues hcap hr roundRobin.queue_index
        { gaspi := occupancy, calls := [] }
      exact .inr ⟨h₁, h₃, h₂, h₄⟩

/-- Of a part of size zero `SingleQueueContext` checks the offset, and `RoundRobinQueuesContext` nothing. -/
theorem same_of_zero (hcap : 0 < capacity) :
    Interchangeable source target 0 offset (single.called (queues capacity) occupancy source target 0 offset)
      (roundRobin.called (queues capacity) occupancy source target 0 offset) ↔
        offset.toNat ≤ source.size.toNat := by
  have hround : ∀ rounds, 2 ≤ rounds →
      (roundRobin.called (queues capacity) occupancy source target 0 offset rounds).1 = .returned ∧
        posted (roundRobin.called (queues capacity) occupancy source target 0 offset rounds).2 = [notifyOnly target] :=
    fun rounds hr => RoundRobinQueuesContext.post_queues hcap hr roundRobin.queue_index { gaspi := occupancy, calls := [] }
  constructor
  · intro h
    by_contra hbehind
    have hthrows : ∃ what, (single.called (queues capacity) occupancy source target 0 offset 2).1 = .threw what := by
      unfold SingleQueueContext.called SingleQueueContext.writePart
      rw [if_pos (by rwa [← not_not (a := offset + 0 > source.size), zero_add_le])]
      exact ⟨_, rfl⟩
    rcases h 2 (Nat.le_refl 2) with ⟨-, ⟨what, hw⟩, -⟩ | ⟨hs, -⟩
    · rw [(hround 2 (Nat.le_refl 2)).1] at hw
      cases hw
    · obtain ⟨what, hw⟩ := hthrows
      rw [hs] at hw
      cases hw
  · intro hle rounds hr
    have hsingle : single.called (queues capacity) occupancy source target 0 offset rounds =
        ((single.notify (queues capacity) rounds target { gaspi := occupancy, calls := [] }).1,
          (single.notify (queues capacity) rounds target { gaspi := occupancy, calls := [] }).2.calls) := by
      unfold SingleQueueContext.called SingleQueueContext.writePart
      rw [if_neg (zero_add_le.mpr hle), if_neg (by simp), if_neg (by decide)]
    have hnotify : (single.notify (queues capacity) rounds target { gaspi := occupancy, calls := [] }).1 = .returned ∧
        posted (single.notify (queues capacity) rounds target { gaspi := occupancy, calls := [] }).2.calls =
          [notifyOnly target] := SingleQueueContext.post_queues hcap hr { gaspi := occupancy, calls := [] }
    rw [hsingle]
    exact .inr ⟨hnotify.1, (hround rounds hr).1, hnotify.2, (hround rounds hr).2⟩

/-- **The contexts are interchangeable, except for an empty part that starts
behind the end of the source.** -/
theorem contexts_interchangeable_iff (hcap : 0 < capacity) (single : SingleQueueContext)
    (roundRobin : RoundRobinQueuesContext) (occupancy : QueueID → Nat) (source target : BufferDescription)
    (size offset : UInt64) :
    Interchangeable source target size offset (single.called (queues capacity) occupancy source target size offset)
      (roundRobin.called (queues capacity) occupancy source target size offset) ↔
        ¬ (size = 0 ∧ source.size.toNat < offset.toNat) := by
  by_cases hs : size = 0
  · subst hs
    rw [same_of_zero hcap, ← Nat.not_lt]
    exact ⟨fun h h' => h h'.2, fun h hlt => h ⟨rfl, hlt⟩⟩
  · refine ⟨fun _ h => hs h.1, fun _ => same_of_pos hcap (UInt64.pos_iff_ne_zero.mpr hs)⟩

/-- The sizes and offsets of `CommunicationContext::write` never tell them apart. -/
theorem write_interchangeable (hcap : 0 < capacity) (single : SingleQueueContext)
    (roundRobin : RoundRobinQueuesContext) (occupancy : QueueID → Nat) (source target : BufferDescription) :
    Interchangeable source target source.size 0 (write (single.called (queues capacity) occupancy) source target)
      (write (roundRobin.called (queues capacity) occupancy) source target) := by
  by_cases hs : source.size = 0
  · unfold write
    rw [hs]
    exact (same_of_zero hcap).mpr (Nat.zero_le _)
  · exact same_of_pos hcap (UInt64.pos_iff_ne_zero.mpr hs)

/-- Eight bytes from the middle of a buffer on, on full queues. -/
theorem contexts_interchangeable_iff_full : 0 < 4 ∧
    (Interchangeable ⟨0, 0, 0, 16, 0⟩ ⟨1, 0, 0, 16, 3⟩ 8 8
      ((⟨0⟩ : SingleQueueContext).called (queues 4) (fun _ => 4) ⟨0, 0, 0, 16, 0⟩ ⟨1, 0, 0, 16, 3⟩ 8 8)
      ((⟨[0, 1], 1⟩ : RoundRobinQueuesContext).called (queues 4) (fun _ => 4) ⟨0, 0, 0, 16, 0⟩ ⟨1, 0, 0, 16, 3⟩ 8 8) ↔
        ¬ ((8 : UInt64) = 0 ∧ (16 : UInt64).toNat < (8 : UInt64).toNat)) :=
  ⟨by decide, contexts_interchangeable_iff (by decide) _ _ _ _ _ _ _⟩

/-- Nothing, from one byte behind the end of an empty buffer on. -/
theorem contexts_differ : ¬ ∀ (capacity : Nat) (single : SingleQueueContext) (roundRobin : RoundRobinQueuesContext)
    (occupancy : QueueID → Nat) (source target : BufferDescription) (size offset : UInt64), 0 < capacity →
    Interchangeable source target size offset (single.called (queues capacity) occupancy source target size offset)
      (roundRobin.called (queues capacity) occupancy source target size offset) := by
  intro h
  have hsame := h 1 ⟨0⟩ ⟨[0], 0⟩ (fun _ => 0) ⟨0, 0, 0, 0, 0⟩ ⟨1, 0, 0, 0, 0⟩ 0 1 Nat.one_pos
  exact absurd ((same_of_zero Nat.one_pos).mp hsame) (by decide)

end GaspiCxx.Context
