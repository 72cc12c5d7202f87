import GaspiCxx.SingleSided.Buffer

/-!
# The pool of segments behind `Buffer(size)` (`segment/DynamicSegmentPool`)

`getSegment` hands out the first segment with a free block of the size, and
makes a new one if there is none. Whether the segment has a notification id
left it does not ask.
-/

namespace GaspiCxx.Segment

open SingleSided

structure DynamicSegmentPool where
  _sizePerSegment : Nat
  _segments : List SegmentManager
  deriving DecidableEq, Repr

namespace DynamicSegmentPool

def _maxSegmentSize : Nat := 4 * 1024 * 1024 * 1024

def construct (sizePerSegment : Nat) : Except String DynamicSegmentPool :=
  if sizePerSegment > _maxSegmentSize then
    .error "DynamicSegmentPool: Requested size per segment larger than maximally allowed size per segment"
  else .ok { _sizePerSegment := sizePerSegment, _segments := [] }

/-- The size per segment, brought up to the next power of two where `size` asks for more. -/
def adjusted (size _sizePerSegment : Nat) : Nat :=
  if size > _sizePerSegment then min (2 ^ Nat.clog 2 size) _maxSegmentSize else _sizePerSegment

/-- The index of the segment; a new segment is at the front, and `pointer` is
where the library puts it. -/
def getSegment (N pointer size : Nat) (pool : DynamicSegmentPool) : Except String Nat × DynamicSegmentPool :=
  if size > _maxSegmentSize then
    (.error "DynamicSegmentPool::getSegment: Requested size larger than maximally allowed size per segment", pool)
  else
    let pool := { pool with _sizePerSegment := adjusted size pool._sizePerSegment }
    match pool._segments.findIdx? (·.hasFreeMemory size) with
    | some i => (.ok i, pool)
    | none =>
      (.ok 0, { pool with _segments := .construct pointer pool._sizePerSegment N :: pool._segments })

/-- What is done with a pool: segments are asked for, and buffers come and go on its segments. -/
inductive Step (N : Nat) : DynamicSegmentPool → DynamicSegmentPool → Prop where
  | getSegment (pool : DynamicSegmentPool) (pointer size : Nat) : Step N pool (getSegment N pointer size pool).2
  | construct {pool : DynamicSegmentPool} {i : Nat} {s : SegmentManager} (hs : pool._segments[i]? = some s)
      (size : Nat) : Step N pool { pool with _segments := pool._segments.set i (Buffer.construct size s).2 }
  | destroy {pool : DynamicSegmentPool} {i : Nat} {s : SegmentManager} (hs : pool._segments[i]? = some s)
      (b : Buffer) : Step N pool { pool with _segments := pool._segments.set i (b.destroy s) }

inductive Reachable (N : Nat) : DynamicSegmentPool → Prop where
  | construct {sizePerSegment : Nat} {pool : DynamicSegmentPool} (h : construct sizePerSegment = .ok pool) :
      Reachable N pool
  | step {pool pool' : DynamicSegmentPool} (h : Reachable N pool) (hs : Step N pool pool') : Reachable N pool'

/-- The segment that is handed out can hold the buffer. -/
def Serves (N size : Nat) (pool : DynamicSegmentPool) : Prop :=
  ∀ pointer i pool', getSegment N pointer size pool = (.ok i, pool') →
    ∃ s b s', pool'._segments[i]? = some s ∧ Buffer.construct size s = (.ok b, s')

variable {N size pointer : Nat} {pool pool' : DynamicSegmentPool} {s : SegmentManager}

/-! ## The segments -/

def Holds (N : Nat) (pool : DynamicSegmentPool) : Prop :=
  ∀ s ∈ pool._segments, NotificationManager.Holds N s._notifyManager

theorem getSegment_segments (N pointer size : Nat) (pool : DynamicSegmentPool) :
    (getSegment N pointer size pool).2._segments = pool._segments ∨
      (getSegment N pointer size pool).2._segments =
        .construct pointer (adjusted size pool._sizePerSegment) N :: pool._segments := by
  unfold getSegment
  split
  · exact .inl rfl
  · simp only
    split
    · exact .inl rfl
    · exact .inr rfl

theorem Step.holds (hN : 0 < N) (h : Holds N pool) (hs : Step N pool pool') : Holds N pool' := by
  cases hs with
  | getSegment pointer size =>
    unfold Holds
    rcases getSegment_segments N pointer size pool with he | he <;> rw [he]
    · exact h
    · exact List.forall_mem_cons.mpr ⟨NotificationManager.holds_construct hN, h⟩
  | construct hs size =>
    intro s' hs'
    rcases List.mem_or_eq_of_mem_set hs' with hm | rfl
    · exact h s' hm
    · exact holds_construct (h _ (List.mem_of_getElem? hs)) size
  | destroy hs b =>
    intro s' hs'
    rcases List.mem_or_eq_of_mem_set hs' with hm | rfl
    · exact h s' hm
    · exact holds_destroy (h _ (List.mem_of_getElem? hs)) b

theorem Reachable.holds (hN : 0 < N) (h : Reachable N pool) : Holds N pool := by
  induction h with
  | construct h =>
    unfold DynamicSegmentPool.construct at h
    split at h
    · cases h
    · obtain rfl := Except.ok.inj h
      exact fun _ hs => absurd hs List.not_mem_nil
  | step _ hs ih => exact hs.holds hN ih

/-! ## What `getSegment` hands out -/

theorem getSegment_cases (hsize : size ≤ _maxSegmentSize) (N pointer : Nat) (pool : DynamicSegmentPool) :
    (∃ i s, pool._segments.find? (·.hasFreeMemory size) = some s ∧ pool._segments[i]? = some s ∧
      getSegment N pointer size pool =
        (.ok i, { pool with _sizePerSegment := adjusted size pool._sizePerSegment })) ∨
    (pool._segments.find? (·.hasFreeMemory size) = none ∧ getSegment N pointer size pool =
      (.ok 0, { _sizePerSegment := adjusted size pool._sizePerSegment,
                _segments := .construct pointer (adjusted size pool._sizePerSegment) N :: pool._segments })) := by
  unfold getSegment
  rw [if_neg (by omega)]
  simp only
  split
  · next i hi =>
    obtain ⟨hlt, hfree, hfirst⟩ := List.findIdx?_eq_some_iff_getElem.mp hi
    refine .inl ⟨i, pool._segments[i], ?_, List.getElem?_eq_getElem hlt, rfl⟩
    exact List.find?_eq_some_iff_getElem.mpr ⟨hfree, i, hlt, rfl, by simpa using hfirst⟩
  · next hnone =>
    refine .inr ⟨List.find?_eq_none.mpr fun s hs => ?_, rfl⟩
    simpa using List.findIdx?_eq_none_iff.mp hnone s hs

theorem le_adjusted (h : size ≤ _maxSegmentSize) (_sizePerSegment : Nat) : size ≤ adjusted size _sizePerSegment := by
  unfold adjusted
  split
  · exact Nat.le_min.mpr ⟨Nat.le_pow_clog (by decide) size, h⟩
  · omega

/-- A new segment holds what it was made for. -/
theorem construct_new (hN : 0 < N) {segmentSize : Nat} (h : size ≤ segmentSize) (pointer : Nat) :
    ∃ b s', Buffer.construct size (.construct pointer segmentSize N) = (.ok b, s') := by
  have hholds := NotificationManager.holds_construct hN
  refine (construct_iff (s := .construct pointer segmentSize N) hholds size).mpr ⟨?_, hN⟩
  unfold SegmentManager.hasFreeMemory MemoryManager.canAllocate
  split
  · rfl
  · exact Blocks.canAllocate_iff.mpr ⟨_, List.mem_cons_self, rfl, h⟩

/-- A pool that serves a request has a notification id left on the first segment with free memory. -/
theorem Serves.lt (hserves : Serves N size pool) (hholds : Holds N pool) (hsize : size ≤ _maxSegmentSize)
    (hs : pool._segments.find? (·.hasFreeMemory size) = some s) : s.ids.length < N := by
  rcases getSegment_cases hsize N 0 pool with ⟨i, s', hs', hi, hget⟩ | ⟨hnone, -⟩
  · obtain rfl : s = s' := Option.some.inj (hs.symm.trans hs')
    obtain ⟨s', b, s'', hi', hb⟩ := hserves 0 i _ hget
    obtain rfl : s = s' := Option.some.inj (hi.symm.trans hi')
    exact ((construct_iff (hholds s (List.mem_of_getElem? hi)) size).mp ⟨b, s'', hb⟩).2
  · rw [hnone] at hs
    cases hs

/-- **The pool serves a request exactly if the first segment with free memory
has a notification id left**, or if there is no such segment. -/
theorem get_segment_serves_iff (hN : 0 < N) (h : Reachable N pool) (hsize : size ≤ _maxSegmentSize) :
    Serves N size pool ↔
      ∀ s, pool._segments.find? (·.hasFreeMemory size) = some s → s.ids.length < N := by
  have hholds := h.holds hN
  constructor
  · exact fun hserves s hs => hserves.lt hholds hsize hs
  · intro hleft pointer i pool' hget
    rcases getSegment_cases hsize N pointer pool with ⟨i', s, hs, hi, hget'⟩ | ⟨-, hget'⟩ <;> rw [hget'] at hget
    · obtain ⟨rfl, rfl⟩ : i' = i ∧ _ = pool' := by simpa using hget
      have hfree : s.hasFreeMemory size = true := by simpa using List.find?_some hs
      obtain ⟨b, s', hb⟩ := (construct_iff (hholds s (List.mem_of_getElem? hi)) size).mpr ⟨hfree, hleft s hs⟩
      exact ⟨s, b, s', hi, hb⟩
    · obtain ⟨rfl, rfl⟩ : 0 = i ∧ _ = pool' := by simpa using hget
      obtain ⟨b, s', hb⟩ := construct_new hN (le_adjusted hsize pool._sizePerSegment) pointer
      exact ⟨_, b, s', rfl, hb⟩

/-- A pool with one segment. -/
theorem get_segment_serves_iff_one : ∃ pool, 0 < 4 ∧ Reachable 4 pool ∧ 8 ≤ _maxSegmentSize ∧ (Serves 4 8 pool ↔
    ∀ s, pool._segments.find? (·.hasFreeMemory 8) = some s → s.ids.length < 4) := by
  have hpool : Reachable 4 (getSegment 4 100 8 ⟨1024, []⟩).2 :=
    .step (.construct (show construct 1024 = .ok ⟨1024, []⟩ from rfl)) (.getSegment _ 100 8)
  exact ⟨_, by decide, hpool, by decide, get_segment_serves_iff (by decide) hpool (by decide)⟩

/-! ## Small buffers use up the ids -/

/-- A free block of at least `m` bytes. -/
def Room (m : Nat) (s : SegmentManager) : Prop := ∃ b ∈ s._memoryManager, b.free = true ∧ m ≤ b.size

theorem Room.allocate {m p : Nat} {bs : List Block} (hm : 0 < m) (hs : 0 < size) (hroom : Room (m + size) s)
    (ha : MemoryManager.allocate size s._memoryManager = (.ok p, bs)) : ∃ b ∈ bs, b.free = true ∧ m ≤ b.size := by
  obtain ⟨b, hb, hfree, hle⟩ := hroom
  rcases MemoryManager.allocate_cases hs s._memoryManager with ⟨pre, it, post, he, hit, -, heq⟩ | ⟨-, heq⟩
  · rw [heq] at ha
    obtain ⟨-, rfl⟩ : _ ∧ pre ++ (Blocks.split size it ++ post) = bs := by simpa using ha
    rw [he] at hb
    rcases List.mem_append.mp hb with hb | hb
    · exact ⟨b, List.mem_append_left _ hb, hfree, by omega⟩
    · rcases List.mem_cons.mp hb with rfl | hb
      · refine ⟨{ b with g_start := b.g_start + size, size := b.size - size }, ?_, hfree, by simp only; omega⟩
        rw [Blocks.split, if_pos (by omega)]
        simp
      · exact ⟨b, by simp [hb], hfree, by omega⟩
  · rw [heq] at ha
    cases ha

/-- A buffer takes its bytes and one id. -/
theorem construct_takes {m : Nat} (hm : 0 < m) (hs : 0 < size) (hholds : NotificationManager.Holds N s._notifyManager)
    (hroom : Room (m + size) s) (hlt : s.ids.length < N) :
    Room m (Buffer.construct size s).2 ∧ (Buffer.construct size s).2.ids.length = s.ids.length + 1 := by
  have hfree : s.hasFreeMemory size = true := by
    obtain ⟨b, hb, hfree, hle⟩ := hroom
    unfold SegmentManager.hasFreeMemory MemoryManager.canAllocate
    rw [if_neg (by omega)]
    exact Blocks.canAllocate_iff.mpr ⟨b, hb, hfree, by omega⟩
  obtain ⟨b, s', hb⟩ := (construct_iff hholds size).mpr ⟨hfree, hlt⟩
  obtain ⟨hmem, p, hnot, -⟩ := construct_ok hb
  rw [hb]
  exact ⟨hroom.allocate hm hs hmem, (hholds.allocated hnot).live.length_eq⟩

/-- A pool whose only segment is out of ids and has memory left. -/
theorem exists_exhausted (hN : 0 < N) (hs : 0 < size) {sizePerSegment : Nat}
    (hle : (N + 1) * size ≤ sizePerSegment) (hmax : sizePerSegment ≤ _maxSegmentSize) :
    ∃ pool, Reachable N pool ∧ ¬ Serves N size pool := by
  have hpool : construct sizePerSegment = .ok { _sizePerSegment := sizePerSegment, _segments := [] } := by
    rw [construct, if_neg (by omega)]
  have hsize : size ≤ sizePerSegment := (Nat.le_mul_of_pos_left size (Nat.succ_pos N)).trans hle
  have hnew : getSegment N 0 size { _sizePerSegment := sizePerSegment, _segments := [] } =
      (.ok 0, { _sizePerSegment := sizePerSegment, _segments := [.construct 0 sizePerSegment N] }) := by
    rw [getSegment, if_neg (by omega), adjusted, if_neg (Nat.not_lt.mpr hsize)]
    rfl
  have hfill : ∀ k ≤ N, ∃ s, Reachable N { _sizePerSegment := sizePerSegment, _segments := [s] } ∧
      Room (sizePerSegment - k * size) s ∧ s.ids.length = k := by
    intro k hk
    induction k with
    | zero =>
      have hstep := Step.getSegment (N := N) { _sizePerSegment := sizePerSegment, _segments := [] } 0 size
      rw [hnew] at hstep
      exact ⟨_, (Reachable.construct hpool).step hstep, ⟨_, List.mem_cons_self, rfl, by simp⟩, rfl⟩
    | succ k ih =>
      obtain ⟨s, hr, hroom, hids⟩ := ih (by omega)
      have hmul : (k + 1) * size + size ≤ (N + 1) * size := by
        rw [← Nat.succ_mul]
        exact Nat.mul_le_mul_right size (by omega)
      have hroom' : Room (sizePerSegment - (k + 1) * size + size) s := by
        rwa [Nat.succ_mul, ← Nat.sub_sub, Nat.sub_add_cancel (by rw [Nat.succ_mul] at hmul; omega)]
      obtain ⟨hroom, hids'⟩ := construct_takes (by omega) hs (hr.holds hN s List.mem_cons_self) hroom' (by omega)
      exact ⟨_, hr.step (.construct (i := 0) rfl size), hroom, by omega⟩
  obtain ⟨s, hr, ⟨b, hb, hfree, hroom⟩, hids⟩ := hfill N (Nat.le_refl N)
  refine ⟨_, hr, fun hserves => ?_⟩
  have hhas : s.hasFreeMemory size = true := by
    rw [Nat.succ_mul] at hle
    unfold SegmentManager.hasFreeMemory MemoryManager.canAllocate
    rw [if_neg (by omega)]
    exact Blocks.canAllocate_iff.mpr ⟨b, hb, hfree, by omega⟩
  have hlt := hserves.lt (s := s) (hr.holds hN) (by omega) (by simp [hhas])
  omega

/-- 65536 notifications and segments of 1 MiB: buffers of 8 bytes. -/
theorem get_segment_exhausted : ¬ ∀ (N size : Nat) (pool : DynamicSegmentPool), 0 < N → Reachable N pool →
    size ≤ _maxSegmentSize → Serves N size pool := by
  intro h
  obtain ⟨pool, hpool, hno⟩ := exists_exhausted (show 0 < 65536 by decide) (show 0 < 8 by decide)
    (show (65536 + 1) * 8 ≤ 1024 * 1024 by decide) (by decide)
  exact hno (h 65536 8 pool (by decide) hpool (by decide))

end DynamicSegmentPool

end GaspiCxx.Segment
