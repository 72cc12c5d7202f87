import GaspiCxx.Segment.NotificationManager

/-!
# What a `Buffer` takes from its segment (`segment/SegmentManager`, `singlesided/Buffer`)

A segment has a memory manager and a notification manager. A `Buffer`
allocates its bytes first and acquires its notification id behind that; when
the id is refused the bytes are given back.
-/

namespace GaspiCxx.Segment

/-- The managers of a segment. -/
structure SegmentManager where
  _memoryManager : List Block
  _notifyManager : List Block
  deriving DecidableEq, Repr

namespace SegmentManager

/-- A segment of `segmentSize` bytes at `pointer` with `N` notifications. -/
def construct (pointer segmentSize N : Nat) : SegmentManager where
  _memoryManager := [{ g_start := pointer, size := segmentSize, free := true }]
  _notifyManager := NotificationManager.construct N

def hasFreeMemory (size : Nat) (s : SegmentManager) : Bool := MemoryManager.canAllocate size s._memoryManager

/-- The notification ids that are out. -/
def ids (s : SegmentManager) : List Nat := NotificationManager.ids s._notifyManager

end SegmentManager

end GaspiCxx.Segment

namespace GaspiCxx.SingleSided

open Segment

abbrev Error := MemoryManager.Error

structure Buffer where
  _pointer : Nat
  _size : Nat
  _notification : NotificationManager.Notification
  deriving DecidableEq, Repr

/-- `Buffer(segment, size)`. -/
def Buffer.construct (size : Nat) (s : SegmentManager) : Except Error Buffer × SegmentManager :=
  match MemoryManager.allocate size s._memoryManager with
  | (.error e, memory) => (.error e, { s with _memoryManager := memory })
  | (.ok pointer, memory) =>
    match NotificationManager.acquire_notification s._notifyManager with
    | (.error e, notifications) =>
      (.error e, { _memoryManager := (MemoryManager.deallocate pointer size memory).2, _notifyManager := notifications })
    | (.ok notification, notifications) =>
      (.ok { _pointer := pointer, _size := size, _notification := notification },
        { _memoryManager := memory, _notifyManager := notifications })

/-- `Buffer(pointer, segment, size)`: the memory is the caller's. -/
def Buffer.constructAt (pointer size : Nat) (s : SegmentManager) : Except Error Buffer × SegmentManager :=
  match NotificationManager.acquire_notification s._notifyManager with
  | (.error e, notifications) => (.error e, { s with _notifyManager := notifications })
  | (.ok notification, notifications) =>
    (.ok { _pointer := pointer, _size := size, _notification := notification },
      { s with _notifyManager := notifications })

/-- `~Buffer` with a `_allocMemory` of its own. -/
def Buffer.destroy (b : Buffer) (s : SegmentManager) : SegmentManager where
  _memoryManager := (MemoryManager.deallocate b._pointer b._size s._memoryManager).2
  _notifyManager := (NotificationManager.release_notification b._notification s._notifyManager).2

/-- `~Buffer` without a `_allocMemory`. -/
def Buffer.destroyAt (b : Buffer) (s : SegmentManager) : SegmentManager :=
  { s with _notifyManager := (NotificationManager.release_notification b._notification s._notifyManager).2 }

variable {N size pointer : Nat} {s : SegmentManager}

/-- The ids of a segment are in order, whatever happens to its buffers. -/
theorem holds_construct (h : NotificationManager.Holds N s._notifyManager) (size : Nat) :
    NotificationManager.Holds N (Buffer.construct size s).2._notifyManager := by
  have hcall := h.call .allocate
  unfold Buffer.construct
  cases MemoryManager.allocate size s._memoryManager with
  | mk result memory =>
    cases result with
    | error e => exact h
    | ok pointer =>
      unfold NotificationManager.acquire_notification
      unfold NotificationManager.call at hcall
      cases ha : NotificationManager.allocate 1 s._notifyManager with
      | mk result notifications =>
        rw [ha] at hcall
        cases result <;> exact hcall

theorem holds_destroy (h : NotificationManager.Holds N s._notifyManager) (b : Buffer) :
    NotificationManager.Holds N (b.destroy s)._notifyManager :=
  h.call (.deallocate (NotificationManager.toSize b._notification))

theorem construct_ok {b : Buffer} {s' : SegmentManager} (h : Buffer.construct size s = (.ok b, s')) :
    MemoryManager.allocate size s._memoryManager = (.ok b._pointer, s'._memoryManager) ∧
      ∃ p, NotificationManager.allocate 1 s._notifyManager = (.ok p, s'._notifyManager) ∧
        b._notification = NotificationManager.toNotification p ∧ b._size = size := by
  unfold Buffer.construct NotificationManager.acquire_notification at h
  cases hm : MemoryManager.allocate size s._memoryManager with
  | mk result memory =>
    rw [hm] at h
    cases result with
    | error e => cases h
    | ok pointer =>
      cases ha : NotificationManager.allocate 1 s._notifyManager with
      | mk result notifications =>
        rw [ha] at h
        cases result with
        | error e => cases h
        | ok p =>
          simp only [Except.map, Prod.mk.injEq, Except.ok.injEq] at h
          obtain ⟨rfl, rfl⟩ := h
          refine ⟨rfl, p, rfl, ?_, rfl⟩
          simp only

theorem constructAt_ok {b : Buffer} {s' : SegmentManager} (h : Buffer.constructAt pointer size s = (.ok b, s')) :
    ∃ p, NotificationManager.allocate 1 s._notifyManager = (.ok p, s'._notifyManager) ∧
      b._notification = NotificationManager.toNotification p := by
  unfold Buffer.constructAt NotificationManager.acquire_notification at h
  rcases NotificationManager.allocate_cases s._notifyManager with ⟨_, it, _, _, _, _, ha⟩ | ⟨_, ha⟩ <;> rw [ha] at h
  · simp only [Except.map, Prod.mk.injEq, Except.ok.injEq] at h
    obtain ⟨rfl, rfl⟩ := h
    refine ⟨it.g_start, ha, ?_⟩
    simp only
  · cases h

theorem constructAt_error {e : Error} {s' : SegmentManager} (h : Buffer.constructAt pointer size s = (.error e, s')) :
    s'._notifyManager = s._notifyManager := by
  unfold Buffer.constructAt NotificationManager.acquire_notification at h
  rcases NotificationManager.allocate_cases s._notifyManager with ⟨_, _, _, _, _, _, ha⟩ | ⟨_, ha⟩ <;> rw [ha] at h
  · cases h
  · exact (congrArg (fun r => r.2._notifyManager) h).symm

theorem construct_error {e : Error} {s' : SegmentManager} (h : Buffer.construct size s = (.error e, s')) :
    s'._notifyManager = s._notifyManager := by
  unfold Buffer.construct NotificationManager.acquire_notification at h
  cases hm : MemoryManager.allocate size s._memoryManager with
  | mk result memory =>
    rw [hm] at h
    cases result with
    | error e => exact (congrArg (fun r => r.2._notifyManager) h).symm
    | ok pointer =>
      rcases NotificationManager.allocate_cases s._notifyManager with ⟨_, _, _, _, _, _, ha⟩ | ⟨_, ha⟩ <;> rw [ha] at h
      · cases h
      · exact (congrArg (fun r => r.2._notifyManager) h).symm

/-- A construction that throws has given its bytes back. -/
theorem construct_error_live {R : MemoryManager.Region} {e : Error} {s' : SegmentManager} (hsize : 0 < size)
    (hpart : Blocks.Partition R.memory_segment_ptr R.stop s._memoryManager)
    (h : Buffer.construct size s = (.error e, s')) :
    Blocks.Partition R.memory_segment_ptr R.stop s'._memoryManager ∧
      (Blocks.live s'._memoryManager).Perm (Blocks.live s._memoryManager) := by
  have hcall : Blocks.Partition R.memory_segment_ptr R.stop (MemoryManager.allocate size s._memoryManager).2 :=
    MemoryManager.partition_call hpart (.allocate size)
  unfold Buffer.construct at h
  rcases MemoryManager.allocate_cases hsize s._memoryManager with ⟨_, it, _, _, _, _, hm⟩ | ⟨_, hm⟩
  · have hlive := (MemoryManager.allocated_of_partition hpart hsize hm).live
    rw [hm] at h hcall
    simp only at h hcall
    split at h
    · obtain ⟨bs, hd, hbs, hperm⟩ := MemoryManager.deallocate_live hcall R.not_null
        (hlive.symm.subset List.mem_cons_self)
      obtain ⟨-, rfl⟩ := Prod.mk.inj h
      rw [hd]
      exact ⟨hbs, (List.perm_cons _).mp (hperm.trans hlive)⟩
    · cases h
  · rw [hm] at h
    obtain ⟨-, rfl⟩ := Prod.mk.inj h
    exact ⟨hpart, .refl _⟩

/-- What a construction does to the ids: it takes one, or it throws and takes none. -/
theorem construct_cases (h : NotificationManager.Holds N s._notifyManager) (size : Nat) :
    (∃ b s' p, Buffer.construct size s = (.ok b, s') ∧ NotificationManager.Holds N s'._notifyManager ∧
      NotificationManager.Allocated N s._notifyManager p s'._notifyManager ∧
      b._notification = NotificationManager.toNotification p) ∨
    ∃ e s', Buffer.construct size s = (.error e, s') ∧ s'._notifyManager = s._notifyManager := by
  have hholds := holds_construct h size
  cases hb : Buffer.construct size s with
  | mk result s' =>
    rw [hb] at hholds
    cases result with
    | ok b =>
      obtain ⟨-, p, hp, hn, -⟩ := construct_ok hb
      exact .inl ⟨b, s', p, rfl, hholds, h.allocated hp, hn⟩
    | error e => exact .inr ⟨e, s', rfl, construct_error hb⟩

/-- A construction needs a block of memory and a notification id, and nothing else. -/
theorem construct_iff (h : NotificationManager.Holds N s._notifyManager) (size : Nat) :
    (∃ b s', Buffer.construct size s = (.ok b, s')) ↔ s.hasFreeMemory size = true ∧ s.ids.length < N := by
  have hle : s.ids.length ≤ N := h.length_le
  have hfull := h.full
  unfold SegmentManager.hasFreeMemory
  rw [MemoryManager.canAllocate_iff_allocate]
  unfold Buffer.construct NotificationManager.acquire_notification
  cases hm : MemoryManager.allocate size s._memoryManager with
  | mk result memory =>
    cases result with
    | error e => exact ⟨fun ⟨_, _, h⟩ => (nomatch h), fun ⟨⟨_, _, h⟩, _⟩ => (nomatch h)⟩
    | ok pointer =>
      cases ha : NotificationManager.allocate 1 s._notifyManager with
      | mk result notifications =>
        rw [ha] at hfull
        cases result with
        | error e =>
          have heq : s.ids.length = N := hfull.mp ⟨_, _, rfl⟩
          exact ⟨fun ⟨_, _, h⟩ => (nomatch h), fun ⟨_, hlt⟩ => absurd heq (Nat.ne_of_lt hlt)⟩
        | ok p =>
          have hne : s.ids.length ≠ N := fun heq => by
            obtain ⟨e, bs', h⟩ := hfull.mpr heq
            cases h
          exact ⟨fun _ => ⟨⟨_, _, rfl⟩, by omega⟩, fun _ => ⟨_, _, rfl⟩⟩

end GaspiCxx.SingleSided
