import GaspiCxx.Collectives.Exchange.Model
import GaspiCxx.Collectives.Exchange.Strips
import GaspiCxx.SingleSided.Buffer

/-!
# What a call takes, and what the destructors give back

`allgather`, `allgatherv`, `alltoall` and `alltoallv` seen from inside one rank: what
their instructions take from the two segments and which of them throw. The
buffers are held by `unique_ptr`s, so that their memory is given back however
the function is left.
-/

namespace GaspiCxx.Collectives.Exchange.Unwinding

open OneSided Passive SingleSided Segment AllgathervCommon
open Segment.NotificationManager (Notification toNotification toSize)

/-- The four functions, with the sizes they are given. -/
inductive Collective (n : Nat) where
  | allgather (size : Nat)
  | allgatherv (sizes : Fin n → Nat)
  | alltoall (size : Nat)
  | alltoallv (sourceSizes targetSizes : Fin n → Nat)

/-- A call on one rank. The descriptions that arrive and the context, which may
refuse any write, are the call's surroundings. -/
structure Invocation (n : Nat) where
  collective : Collective n
  D : Serialization.Typedefs
  group : Group n
  rank : Fin n
  sourceSegment : Nat
  gSource : Nat
  targetSegment : Nat
  gTarget : Nat
  arrives : Fin n → Descriptions
  write : Fin n → BufferDescription → BufferDescription → Except Error Unit

variable {n : Nat}

namespace Invocation

variable (c : Invocation n)

/-- What the `i`-th source description is about. -/
def source (i : Fin n) : Part :=
  match c.collective with
  | .allgather size => ⟨c.sourceSegment, c.gSource, size⟩
  | .allgatherv sizes => ⟨c.sourceSegment, c.gSource, sizes c.rank⟩
  | .alltoall size => ⟨c.sourceSegment, c.gSource + i * size, size⟩
  | .alltoallv sourceSizes _ => ⟨c.sourceSegment, c.gSource + before sourceSizes i, sourceSizes i⟩

/-- What the `i`-th target description is about. -/
def target (i : Fin n) : Part :=
  match c.collective with
  | .allgather size => ⟨c.targetSegment, c.gTarget + i * size, size⟩
  | .allgatherv sizes => ⟨c.targetSegment, c.gTarget + before sizes i, sizes i⟩
  | .alltoall size => ⟨c.targetSegment, c.gTarget + i * size, size⟩
  | .alltoallv _ targetSizes => ⟨c.targetSegment, c.gTarget + before targetSizes i, targetSizes i⟩

def segment : Side → Nat
  | .source => c.sourceSegment
  | .target => c.targetSegment

def part (side : Side) (i : Fin n) : Part :=
  match side with
  | .source => c.source i
  | .target => c.target i

end Invocation

/-- A `segment::Notification` as a `gaspi_notification_id_t`. -/
def toNotificationId (notification : Notification) : Nat := (notification % 2 ^ 32).toNat

/-- The segments of the rank, and the variables of the function. -/
structure State (n : Nat) where
  segments : Nat → SegmentManager
  /-- `localSourceDescriptions` and `localTargetDescriptions`. -/
  descriptions : Side → Fin n → BufferDescription
  /-- `remoteTargetDescriptions` and `remoteSourceDescriptions`. -/
  remote : Fin n → Descriptions
  /-- `descriptionSendBuffers` and `descriptionRecvBuffers`. -/
  buffers : Role → Fin n → Option Buffer

namespace State

def initial (segments : Nat → SegmentManager) : State n where
  segments := segments
  descriptions _ _ := ⟨0, 0, 0, 0, 0⟩
  remote _ := (⟨0, 0, 0, 0, 0⟩, ⟨0, 0, 0, 0, 0⟩)
  buffers _ _ := none

def setBuffer (s : State n) (role : Role) (i : Fin n) (b : Option Buffer) : State n :=
  { s with buffers := Function.update s.buffers role (Function.update (s.buffers role) i b) }

def setSegment (s : State n) (k : Nat) (segment : SegmentManager) : State n :=
  { s with segments := Function.update s.segments k segment }

def setDescription (s : State n) (side : Side) (i : Fin n) (d : BufferDescription) : State n :=
  { s with descriptions := Function.update s.descriptions side (Function.update (s.descriptions side) i d) }

/-- `reset(nullptr)`, and what a `unique_ptr` does at the end. -/
def reset (c : Invocation n) (role : Role) (s : State n) (i : Fin n) : State n :=
  match s.buffers role i with
  | none => s
  | some b => (s.setSegment c.targetSegment (b.destroy (s.segments c.targetSegment))).setBuffer role i none

/-- The variables are destroyed in the reverse order of their definitions. -/
def unwind (c : Invocation n) (s : State n) : State n :=
  (List.finRange n).foldl (reset c .src) ((List.finRange n).foldl (reset c .rcv) s)

end State

/-- What an instruction does to the rank it runs on. -/
def exec (c : Invocation n) (s : State n) : Instr n → Except Error Unit × State n
  | .acquire_notification side i =>
    let segment := s.segments (c.segment side)
    match NotificationManager.acquire_notification segment._notifyManager with
    | (.error e, notifications) =>
      (.error e, s.setSegment (c.segment side) { segment with _notifyManager := notifications })
    | (.ok notification, notifications) =>
      (.ok (), (s.setSegment (c.segment side) { segment with _notifyManager := notifications }).setDescription side i
        { rank := c.group.toGlobalRank c.rank, segmentId := (c.part side i).segmentId
          offset := (c.part side i).offset, size := (c.part side i).size
          notificationId := toNotificationId notification })
  | .newBuffer role i =>
    match Buffer.construct (descriptionsSize c.D) (s.segments c.targetSegment) with
    | (.error e, segment) => (.error e, s.setSegment c.targetSegment segment)
    | (.ok b, segment) => (.ok (), ((s.setSegment c.targetSegment segment).reset c role i).setBuffer role i (some b))
  | .waitForNotification .rcv i => (.ok (), { s with remote := Function.update s.remote i (c.arrives i) })
  | .deleteBuffer role i => (.ok (), s.reset c role i)
  | .write i => (c.write i (s.descriptions .source i) (s.remote i).1, s)
  | .release_notification side i =>
    let segment := s.segments (c.segment side)
    let (result, notifications) := NotificationManager.release_notification
      (toNotification (s.descriptions side i).notificationId) segment._notifyManager
    (result, s.setSegment (c.segment side) { segment with _notifyManager := notifications })
  | .enter | .serialize _ | .post _ _ | .waitForNotification .src _ | .waitForBufferNotification _ _
  | .notify _ | .leave => (.ok (), s)

def loop (body : Fin n → List (Instr n)) : List (Instr n) := (List.finRange n).flatMap body

/-- The instructions in the order in which they run. -/
def program (n : Nat) : List (Instr n) :=
  .enter ::
  (loop (fun i => [.acquire_notification .source i, .acquire_notification .target i, .newBuffer .src i, .serialize i,
    .newBuffer .rcv i, .post .src i, .post .rcv i]) ++
  (loop (fun i => [.waitForNotification .rcv i, .deleteBuffer .rcv i, .write i]) ++
  (loop (fun i => [.waitForBufferNotification .target i, .notify i, .release_notification .target i]) ++
  (loop (fun i => [.waitForBufferNotification .source i, .waitForNotification .src i, .deleteBuffer .src i,
    .release_notification .source i]) ++
  [.leave]))))

def run (c : Invocation n) : List (Instr n) → State n → Except Error Unit × State n
  | [], s => (.ok (), s)
  | I :: Is, s =>
    match exec c s I with
    | (.ok (), s) => run c Is s
    | (.error e, s) => (.error e, s)

/-- The call: whether it throws, and the segments it leaves. -/
def call (c : Invocation n) (segments : Nat → SegmentManager) : Except Error Unit × (Nat → SegmentManager) :=
  let (result, s) := run c (program n) (.initial segments)
  (result, (s.unwind c).segments)

/-- `I` throws, and the exception leaves the function. -/
def ThrowsAt (c : Invocation n) (I : Instr n) (e : Error) (segments segments' : Nat → SegmentManager) : Prop :=
  ∃ before after s s', program n = before ++ I :: after ∧ run c before (.initial segments) = (.ok (), s) ∧
    exec c s I = (.error e, s') ∧ (s'.unwind c).segments = segments'

variable {c : Invocation n} {I J : Instr n} {e : Error} {s s' : State n} {segments segments' : Nat → SegmentManager}

/-! ## The order of the instructions -/

theorem flatMap_range' (base k n : Nat) :
    (List.finRange n).flatMap (fun i : Fin n => List.range' (base + k * i) k) = List.range' base (k * n) := by
  induction n with
  | zero => rfl
  | succ n ih =>
    rw [List.finRange_succ_last, List.flatMap_append, List.flatMap_map]
    simp only [Fin.val_castSucc, List.flatMap_singleton, Fin.val_last]
    rw [ih, List.range'_append_1, Nat.mul_succ]

/-- A loop with a body of `k` instructions. -/
theorem loop_positions {body : Fin n → List (Instr n)} (base k : Nat)
    (h : ∀ i, (body i).map Instr.position = List.range' (base + k * i) k) :
    (loop body).map Instr.position = List.range' base (k * n) := by
  unfold loop
  rw [List.map_flatMap, ← flatMap_range']
  exact List.flatMap_congr fun i _ => h i

/-- The instructions are those of `Instr`, in the order of their positions. -/
theorem program_positions (n : Nat) : (program n).map Instr.position = List.range (length n) := by
  unfold program
  rw [List.map_cons, List.map_append, List.map_append, List.map_append, List.map_append,
    loop_positions 1 7 fun i => ?_, loop_positions (1 + 7 * n) 3 fun i => ?_,
    loop_positions (1 + 7 * n + 3 * n) 3 fun i => ?_, loop_positions (1 + 7 * n + 3 * n + 3 * n) 4 fun i => ?_]
  · have hleave : [(Instr.leave : Instr n)].map Instr.position = List.range' (1 + 7 * n + 3 * n + 3 * n + 4 * n) 1 := by
      simp only [List.map_cons, List.map_nil, Instr.position, List.range'_succ, List.range'_zero, List.cons.injEq,
        and_true]
      omega
    rw [hleave, List.range'_append_1, List.range'_append_1, List.range'_append_1, List.range'_append_1,
      List.range_eq_range', length, show 17 * n + 2 = 7 * n + (3 * n + (3 * n + (4 * n + 1))) + 1 by omega,
      List.range'_succ]
    rfl
  all_goals
    simp only [List.map_cons, List.map_nil, Instr.position, List.range'_succ, List.range'_zero, List.cons.injEq, and_true]
    omega

theorem position_lt_of_before {before after : List (Instr n)} (h : program n = before ++ I :: after) (hJ : J ∈ before) :
    J.position < I.position := by
  have hsorted : (program n).Pairwise fun I J => I.position < J.position := by
    rw [← List.pairwise_map (f := Instr.position) (R := (· < ·)), program_positions]
    exact List.pairwise_lt_range
  rw [h, List.pairwise_append] at hsorted
  exact hsorted.2.2 J hJ I List.mem_cons_self

/-! ## Runs -/

theorem run_cons {Is : List (Instr n)} (h : run c (J :: Is) s = (.ok (), s')) :
    ∃ s₁, exec c s J = (.ok (), s₁) ∧ run c Is s₁ = (.ok (), s') := by
  unfold run at h
  split at h
  · next s₁ hexec => exact ⟨s₁, hexec, h⟩
  · cases h

/-- An exception of a run is one of its instructions. -/
theorem run_error_iff {Is : List (Instr n)} : run c Is s = (.error e, s') ↔
    ∃ before I after s₁, Is = before ++ I :: after ∧ run c before s = (.ok (), s₁) ∧ exec c s₁ I = (.error e, s') := by
  induction Is generalizing s with
  | nil => simp [run]
  | cons J Is ih =>
    constructor
    · intro h
      unfold run at h
      split at h
      · next s₁ hexec =>
        obtain ⟨before, I, after, s₂, rfl, hrun, hthrow⟩ := ih.mp h
        refine ⟨J :: before, I, after, s₂, rfl, ?_, hthrow⟩
        rw [run, hexec]
        exact hrun
      · next e' s₁ hexec =>
        obtain ⟨rfl, rfl⟩ : e' = e ∧ s₁ = s' := by simpa using h
        exact ⟨[], J, Is, s, rfl, rfl, hexec⟩
    · rintro ⟨before, I, after, s₁, heq, hrun, hthrow⟩
      unfold run
      cases before with
      | nil =>
        obtain ⟨rfl, -⟩ := List.cons.inj heq
        obtain ⟨-, rfl⟩ := Prod.mk.inj hrun
        rw [hthrow]
      | cons K before =>
        obtain ⟨rfl, rfl⟩ := List.cons.inj heq
        obtain ⟨s₂, hexec, hrun⟩ := run_cons hrun
        rw [hexec]
        exact ih.mpr ⟨before, I, after, s₁, rfl, hrun, hthrow⟩

/-- The call throws where an instruction does. -/
theorem call_error_iff : call c segments = (.error e, segments') ↔ ∃ I, ThrowsAt c I e segments segments' := by
  unfold call ThrowsAt
  constructor
  · intro h
    obtain ⟨hresult, hsegments⟩ := Prod.mk.inj h
    have hcall : run c (program n) (.initial segments) = (.error e, (run c (program n) (.initial segments)).2) :=
      Prod.ext hresult rfl
    obtain ⟨before, I, after, s, hprog, hrun, hthrow⟩ := run_error_iff.mp hcall
    exact ⟨I, before, after, s, _, hprog, hrun, hthrow, hsegments⟩
  · rintro ⟨I, before, after, s, s', hprog, hrun, hthrow, rfl⟩
    rw [run_error_iff.mpr ⟨before, I, after, s, hprog, hrun, hthrow⟩]

/-! ## Updates -/

theorem buffers_setBuffer {role role' : Role} {i i' : Fin n} {b : Option Buffer} :
    (s.setBuffer role i b).buffers role' i' = if role' = role ∧ i' = i then b else s.buffers role' i' := by
  unfold State.setBuffer
  by_cases hr : role' = role
  · subst hr
    by_cases hi : i' = i
    · subst hi; simp
    · simp [hi]
  · simp [hr]

theorem segments_setSegment {k k' : Nat} {segment : SegmentManager} :
    (s.setSegment k segment).segments k' = if k' = k then segment else s.segments k' :=
  Function.update_apply ..

theorem unwind_initial : ((State.initial segments : State n).unwind c).segments = segments := by
  have hreset (role : Role) (is : List (Fin n)) :
      is.foldl (State.reset c role) (State.initial segments) = State.initial segments := by
    induction is with
    | nil => rfl
    | cons i is ih => exact ih
  unfold State.unwind
  rw [hreset, hreset]
  rfl

/-! ## The blocks of the buffers -/

/-- The block of a living buffer. -/
def State.block (s : State n) (q : Role × Fin n) : Option (Nat × Nat) :=
  (s.buffers q.1 q.2).map fun b => (b._pointer, b._size)

/-- The target segment's blocks are `blocks` and those of the living buffers. -/
structure Charged (R : MemoryManager.Region) (c : Invocation n) (blocks : List (Nat × Nat)) (s : State n)
    (living : List (Role × Fin n)) : Prop where
  partition : Blocks.Partition R.memory_segment_ptr R.stop (s.segments c.targetSegment)._memoryManager
  nodup : living.Nodup
  mem : ∀ q, q ∈ living ↔ (s.block q).isSome
  live : (Blocks.live (s.segments c.targetSegment)._memoryManager).Perm (living.filterMap s.block ++ blocks)

variable {R : MemoryManager.Region} {blocks : List (Nat × Nat)} {living : List (Role × Fin n)}

theorem block_setBuffer {role : Role} {i : Fin n} {b : Option Buffer} {q : Role × Fin n} :
    (s.setBuffer role i b).block q = if q = (role, i) then b.map (fun b => (b._pointer, b._size)) else s.block q := by
  unfold State.block
  rw [buffers_setBuffer]
  by_cases h : q = (role, i)
  · subst h; simp
  · rw [if_neg h, if_neg fun h' => h (Prod.ext h'.1 h'.2)]

theorem memory_setSegment {k k' : Nat} {segment : SegmentManager}
    (h : segment._memoryManager = (s.segments k)._memoryManager) :
    ((s.setSegment k segment).segments k')._memoryManager = (s.segments k')._memoryManager := by
  rw [segments_setSegment]
  split
  · next he => rw [h, he]
  · rfl

/-- Only the memory of the target segment and the buffers are looked at. -/
theorem Charged.congr (h : Charged R c blocks s living) (hbuffers : s'.buffers = s.buffers)
    (hmemory : (s'.segments c.targetSegment)._memoryManager = (s.segments c.targetSegment)._memoryManager) :
    Charged R c blocks s' living := by
  have hblock : s'.block = s.block := by
    unfold State.block
    rw [hbuffers]
  exact ⟨by rw [hmemory]; exact h.partition, h.nodup, by rw [hblock]; exact h.mem, by rw [hmemory, hblock]; exact h.live⟩

/-- A buffer that goes gives its block back. -/
theorem Charged.reset (h : Charged R c blocks s living) (role : Role) (i : Fin n) :
    ∃ living', Charged R c blocks (s.reset c role i) living' ∧ (s.reset c role i).buffers role i = none := by
  unfold State.reset
  split
  · next hb => exact ⟨living, h, hb⟩
  · next b hb =>
    have hblock : s.block (role, i) = some (b._pointer, b._size) := by
      unfold State.block
      rw [hb]
      rfl
    have hmem : (role, i) ∈ living := (h.mem _).mpr (by rw [hblock]; rfl)
    have hlive := h.live.trans (((List.perm_cons_erase hmem).filterMap s.block).append_right blocks)
    rw [List.filterMap_cons_some hblock, List.cons_append] at hlive
    obtain ⟨bs, hd, hpart, hperm⟩ := MemoryManager.deallocate_live h.partition R.not_null
      (hlive.symm.subset List.mem_cons_self)
    have hsegment : ((s.setSegment c.targetSegment (b.destroy (s.segments c.targetSegment))).segments
        c.targetSegment)._memoryManager = bs := by
      rw [segments_setSegment, if_pos rfl]
      unfold Buffer.destroy
      rw [hd]
    refine ⟨living.erase (role, i), ⟨?_, h.nodup.erase _, fun q => ?_, ?_⟩, by rw [buffers_setBuffer, if_pos ⟨rfl, rfl⟩]⟩
    · exact hsegment.symm ▸ hpart
    · rw [h.nodup.mem_erase_iff, block_setBuffer, h.mem]
      by_cases hq : q = (role, i)
      · simp [hq]
      · simp only [hq, if_false, ne_eq, not_false_eq_true, true_and]
        rfl
    · have hrest : (living.erase (role, i)).filterMap (State.block (State.setBuffer (s.setSegment c.targetSegment
          (b.destroy (s.segments c.targetSegment))) role i none)) = (living.erase (role, i)).filterMap s.block := by
        refine List.filterMap_congr fun q hq => ?_
        rw [block_setBuffer, if_neg (h.nodup.mem_erase_iff.mp hq).1]
        rfl
      rw [hrest]
      exact hsegment.symm ▸ (List.perm_cons _).mp (hperm.trans hlive)

/-- A buffer that is constructed takes over its block. -/
theorem Charged.setBuffer {role : Role} {i : Fin n} {b : Buffer}
    (h : Charged R c ((b._pointer, b._size) :: blocks) s living) (hnone : s.buffers role i = none) :
    Charged R c blocks (s.setBuffer role i (some b)) ((role, i) :: living) where
  partition := h.partition
  nodup := by
    refine List.nodup_cons.mpr ⟨fun hm => ?_, h.nodup⟩
    have hsome := (h.mem _).mp hm
    unfold State.block at hsome
    rw [hnone] at hsome
    cases hsome
  mem q := by
    rw [List.mem_cons, block_setBuffer, h.mem]
    by_cases hq : q = (role, i) <;> simp [hq]
  live := by
    have hblock : (s.setBuffer role i (some b)).block (role, i) = some (b._pointer, b._size) := by
      rw [block_setBuffer, if_pos rfl]
      rfl
    have hrest : living.filterMap (s.setBuffer role i (some b)).block = living.filterMap s.block := by
      refine List.filterMap_congr fun q hq => ?_
      rw [block_setBuffer, if_neg]
      rintro rfl
      have hsome := (h.mem _).mp hq
      unfold State.block at hsome
      rw [hnone] at hsome
      cases hsome
    rw [List.filterMap_cons_some hblock, hrest]
    exact h.live.trans List.perm_middle

/-- No instruction changes what else is allocated. -/
theorem Charged.exec (h : Charged R c blocks s living) (J : Instr n) :
    ∃ living', Charged R c blocks (exec c s J).2 living' := by
  unfold Unwinding.exec
  cases J with
  | acquire_notification side i =>
    simp only
    split
    · exact ⟨living, h.congr rfl (memory_setSegment rfl)⟩
    · exact ⟨living, h.congr rfl (memory_setSegment rfl)⟩
  | newBuffer role i =>
    simp only
    split
    · next e segment hb =>
      obtain ⟨hpart, hperm⟩ := construct_error_live (descriptionsSize_pos c.D) h.partition hb
      exact ⟨living, ⟨by rwa [segments_setSegment, if_pos rfl], h.nodup, h.mem, by
        rw [segments_setSegment, if_pos rfl]
        exact hperm.trans h.live⟩⟩
    · next b segment hb =>
      obtain ⟨ha, -, -, -, hsize⟩ := construct_ok hb
      have hpart : Blocks.Partition R.memory_segment_ptr R.stop
          (MemoryManager.allocate (descriptionsSize c.D) (s.segments c.targetSegment)._memoryManager).2 :=
        MemoryManager.partition_call h.partition (.allocate _)
      rw [ha] at hpart
      have hlive := (MemoryManager.allocated_of_partition h.partition (descriptionsSize_pos c.D) ha).live
      have h' : Charged R c ((b._pointer, b._size) :: blocks) (s.setSegment c.targetSegment segment) living := by
        refine ⟨?_, h.nodup, h.mem, ?_⟩
        · rwa [segments_setSegment, if_pos rfl]
        · rw [segments_setSegment, if_pos rfl, hsize]
          exact hlive.trans ((h.live.cons _).trans List.perm_middle.symm)
      obtain ⟨living', hreset, hnone⟩ := h'.reset role i
      exact ⟨_, hreset.setBuffer hnone⟩
  | deleteBuffer role i =>
    obtain ⟨living', h', -⟩ := h.reset role i
    exact ⟨living', h'⟩
  | waitForNotification role i =>
    cases role
    · exact ⟨living, h⟩
    · exact ⟨living, h.congr rfl rfl⟩
  | release_notification side i => exact ⟨living, h.congr rfl (memory_setSegment rfl)⟩
  | _ => exact ⟨living, h⟩

theorem Charged.run (h : Charged R c blocks s living) (Is : List (Instr n)) :
    ∃ living', Charged R c blocks (run c Is s).2 living' := by
  induction Is generalizing s living with
  | nil => exact ⟨living, h⟩
  | cons J Is ih =>
    obtain ⟨living', hJ⟩ := h.exec J
    unfold Unwinding.run
    split
    · next s₁ hexec =>
      rw [hexec] at hJ
      exact ih hJ
    · next e s₁ hexec =>
      rw [hexec] at hJ
      exact ⟨living', hJ⟩

theorem reset_none {role role' : Role} {i i' : Fin n} (h : s.buffers role i = none) :
    (s.reset c role' i').buffers role i = none := by
  unfold State.reset
  split
  · exact h
  · rw [buffers_setBuffer]
    split
    · rfl
    · exact h

theorem Charged.resets (h : Charged R c blocks s living) (role : Role) (is : List (Fin n)) :
    ∃ living', Charged R c blocks (is.foldl (State.reset c role) s) living' ∧
      (∀ i ∈ is, (is.foldl (State.reset c role) s).buffers role i = none) ∧
      ∀ role' i, s.buffers role' i = none → (is.foldl (State.reset c role) s).buffers role' i = none := by
  induction is generalizing s living with
  | nil => exact ⟨living, h, fun _ hi => absurd hi List.not_mem_nil, fun _ _ h => h⟩
  | cons j is ih =>
    obtain ⟨living', h', hj⟩ := h.reset role j
    obtain ⟨living'', h'', hall, hkeep⟩ := ih h'
    refine ⟨living'', h'', fun i hi => ?_, fun role' i hnone => hkeep role' i (reset_none hnone)⟩
    rcases List.mem_cons.mp hi with rfl | hi
    · exact hkeep role i hj
    · exact hall i hi

theorem Charged.unwind (h : Charged R c blocks s living) :
    (Blocks.live ((s.unwind c).segments c.targetSegment)._memoryManager).Perm blocks := by
  obtain ⟨living₁, h₁, hrcv, -⟩ := h.resets .rcv (List.finRange n)
  obtain ⟨living₂, h₂, hsrc, hkeep⟩ := h₁.resets .src (List.finRange n)
  have hnil : living₂ = [] := by
    refine List.eq_nil_iff_forall_not_mem.mpr fun ⟨role, i⟩ hq => ?_
    have hsome := (h₂.mem _).mp hq
    have hnone : (s.unwind c).buffers role i = none := by
      cases role
      · exact hsrc i (List.mem_finRange i)
      · exact hkeep .rcv i (hrcv i (List.mem_finRange i))
    unfold State.unwind at hnone
    unfold State.block at hsome
    rw [hnone] at hsome
    cases hsome
  have hlive := h₂.live
  rw [hnil] at hlive
  exact hlive

/-- **The memory of a call is given back, however the call ends.** -/
theorem call_gives_back_blocks {ops : List MemoryManager.Op}
    (h : (segments c.targetSegment)._memoryManager = MemoryManager.run R ops) :
    (Blocks.live ((call c segments).2 c.targetSegment)._memoryManager).Perm
      (Blocks.live (segments c.targetSegment)._memoryManager) := by
  have hstart : Charged R c (Blocks.live (segments c.targetSegment)._memoryManager) (.initial segments) [] := by
    refine ⟨?_, List.nodup_nil, fun q => ⟨fun hq => absurd hq List.not_mem_nil, nofun⟩, .refl _⟩
    show Blocks.Partition _ _ (segments c.targetSegment)._memoryManager
    rw [h]
    exact MemoryManager.partition_run R ops
  obtain ⟨living, hrun⟩ := hstart.run (program n)
  exact hrun.unwind

end GaspiCxx.Collectives.Exchange.Unwinding
