import GaspiCxx.Runs.SharedPtr
import GaspiCxx.Runs.Trace
import GaspiCxx.SingleSided.Buffer

/-!
# What the endpoints of a segment own (`Buffer`, `Endpoint`)

An endpoint has a share of the memory it was constructed with, a notification id
of its own, both or neither, after the constructor that was called. The copy
constructor takes a new id and a share of the memory of the original. The
destructor gives the id back, and the memory if no other endpoint has a share.

Others use the segment too: `foreign` and `foreignIds` are the blocks and the
ids that they hold.

**`sharing_sound`**: in every run the destructors throw nothing, the memory of
every endpoint is allocated, and what is out is what the living endpoints and
the others hold, each block and each id once.
-/

namespace GaspiCxx.SingleSided

open Segment Runs
open Segment.NotificationManager (Notification toNotification toSize)

/-- A segment and the `MemoryAllocation`s of its endpoints. -/
structure Storage where
  segment : SegmentManager
  /-- Pointer and size. -/
  allocations : Heap (Nat × Nat)

structure Endpoint where
  _allocMemory : Option Nat
  _allocNotify : Option Notification
  _pointer : Nat
  _size : Nat
  _notification : Notification
  deriving DecidableEq, Repr

namespace Storage

def setMemory (M : Storage) (blocks : List Block) : Storage :=
  { M with segment := { M.segment with _memoryManager := blocks } }

def setNotify (M : Storage) (blocks : List Block) : Storage :=
  { M with segment := { M.segment with _notifyManager := blocks } }

/-- `_allocMemory = other._allocMemory`, from null. -/
def share (M : Storage) : Option Nat → Storage
  | none => M
  | some h => { M with allocations := M.allocations.copy h }

/-- `~unique_ptr<NotifyAllocation>`. -/
def resetNotify (M : Storage) : Option Notification → Except Error Unit × Storage
  | none => (.ok (), M)
  | some notification =>
    let (result, blocks) := NotificationManager.release_notification notification M.segment._notifyManager
    (result, M.setNotify blocks)

/-- `~shared_ptr<MemoryAllocation>`. -/
def resetMemory (M : Storage) : Option Nat → Except Error Unit × Storage
  | none => (.ok (), M)
  | some h =>
    let M' := { M with allocations := M.allocations.release h }
    if M.allocations.use_count h = 1 then
      let (result, blocks) :=
        MemoryManager.deallocate (M.allocations.object h).1 (M.allocations.object h).2 M.segment._memoryManager
      (result, M'.setMemory blocks)
    else (.ok (), M')

end Storage

namespace Endpoint

/-- `Endpoint(segment, size)`. -/
def construct (size : Nat) (M : Storage) : Except Error Endpoint × Storage :=
  match Buffer.construct size M.segment with
  | (.error e, segment) => (.error e, { M with segment })
  | (.ok b, segment) =>
    (.ok ⟨some M.allocations.next, some b._notification, b._pointer, b._size, b._notification⟩,
      { segment, allocations := M.allocations.make (b._pointer, b._size) })

/-- `Endpoint(pointer, segment, size)`. -/
def constructAt (pointer size : Nat) (M : Storage) : Except Error Endpoint × Storage :=
  match NotificationManager.acquire_notification M.segment._notifyManager with
  | (.error e, blocks) => (.error e, M.setNotify blocks)
  | (.ok notification, blocks) => (.ok ⟨none, some notification, pointer, size, notification⟩, M.setNotify blocks)

/-- `Endpoint(segment, size, notification)`. -/
def constructWith (size : Nat) (notification : Notification) (M : Storage) : Except Error Endpoint × Storage :=
  match MemoryManager.allocate size M.segment._memoryManager with
  | (.error e, blocks) => (.error e, M.setMemory blocks)
  | (.ok pointer, blocks) =>
    (.ok ⟨some M.allocations.next, none, pointer, size, notification⟩,
      { M.setMemory blocks with allocations := M.allocations.make (pointer, size) })

/-- `Endpoint(pointer, segment, size, notification)`. -/
def constructAtWith (pointer size : Nat) (notification : Notification) : Endpoint :=
  ⟨none, none, pointer, size, notification⟩

/-- `Endpoint(Endpoint const&)`. -/
def copy (other : Endpoint) (M : Storage) : Except Error Endpoint × Storage :=
  match constructAt other._pointer other._size M with
  | (.error e, M) => (.error e, M)
  | (.ok e, M) => (.ok { e with _allocMemory := other._allocMemory }, M.share other._allocMemory)

/-- `~Endpoint`: the members in the reverse of their order. -/
def destroy (e : Endpoint) (M : Storage) : Except Error Unit × Storage :=
  match M.resetNotify e._allocNotify with
  | (.error x, M) => (.error x, M)
  | (.ok (), M) => M.resetMemory e._allocMemory

end Endpoint

namespace Sharing

structure State where
  storage : Storage
  /-- The living ones. -/
  endpoints : List Endpoint
  foreign : List (Nat × Nat)
  foreignIds : List Nat

/-- A segment at `R` with `N` notifications. -/
def State.initial (R : MemoryManager.Region) (N : Nat) : State where
  storage := ⟨.construct R.memory_segment_ptr R.memory_segment_size N, .empty (0, 0)⟩
  endpoints := []
  foreign := []
  foreignIds := []

inductive Label where
  | constructs (e : Endpoint)
  | copies (e e' : Endpoint)
  | refused
  | destroys (e : Endpoint)
  | others
  /-- A destructor throws. -/
  | terminates
  deriving DecidableEq, Repr

inductive Step : State → Label → State → Prop where
  | construct (S : State) {size : Nat} {e : Endpoint} {M : Storage}
      (h : Endpoint.construct size S.storage = (.ok e, M)) :
      Step S (.constructs e) { S with storage := M, endpoints := e :: S.endpoints }
  | constructAt (S : State) {pointer size : Nat} {e : Endpoint} {M : Storage}
      (h : Endpoint.constructAt pointer size S.storage = (.ok e, M)) :
      Step S (.constructs e) { S with storage := M, endpoints := e :: S.endpoints }
  | constructWith (S : State) {size : Nat} {notification : Notification} {e : Endpoint} {M : Storage}
      (h : Endpoint.constructWith size notification S.storage = (.ok e, M)) :
      Step S (.constructs e) { S with storage := M, endpoints := e :: S.endpoints }
  | constructAtWith (S : State) (pointer size : Nat) (notification : Notification) :
      Step S (.constructs (.constructAtWith pointer size notification))
        { S with endpoints := .constructAtWith pointer size notification :: S.endpoints }
  | copy (S : State) {other e : Endpoint} {M : Storage} (living : other ∈ S.endpoints)
      (h : other.copy S.storage = (.ok e, M)) :
      Step S (.copies other e) { S with storage := M, endpoints := e :: S.endpoints }
  | refuse (S : State) {size : Nat} {x : Error} {M : Storage}
      (h : Endpoint.construct size S.storage = (.error x, M)) :
      Step S .refused { S with storage := M }
  | refuseWith (S : State) {size : Nat} {notification : Notification} {x : Error} {M : Storage}
      (h : Endpoint.constructWith size notification S.storage = (.error x, M)) :
      Step S .refused { S with storage := M }
  | refuseAt (S : State) {pointer size : Nat} {x : Error} {M : Storage}
      (h : Endpoint.constructAt pointer size S.storage = (.error x, M)) :
      Step S .refused { S with storage := M }
  | refuseCopy (S : State) {other : Endpoint} {x : Error} {M : Storage} (living : other ∈ S.endpoints)
      (h : other.copy S.storage = (.error x, M)) :
      Step S .refused { S with storage := M }
  | destroy (S : State) {before after : List Endpoint} {e : Endpoint} {M : Storage}
      (living : S.endpoints = before ++ e :: after) (h : e.destroy S.storage = (.ok (), M)) :
      Step S (.destroys e) { S with storage := M, endpoints := before ++ after }
  | terminate (S : State) {e : Endpoint} {x : Error} {M : Storage} (living : e ∈ S.endpoints)
      (h : e.destroy S.storage = (.error x, M)) : Step S .terminates { S with storage := M }
  | allocate (S : State) {size p : Nat} {blocks : List Block} (pos : 0 < size)
      (h : MemoryManager.allocate size S.storage.segment._memoryManager = (.ok p, blocks)) :
      Step S .others { S with storage := S.storage.setMemory blocks, foreign := (p, size) :: S.foreign }
  | deallocate (S : State) {before after : List (Nat × Nat)} {p size : Nat} {x : Except Error Unit}
      {blocks : List Block} (held : S.foreign = before ++ (p, size) :: after)
      (h : MemoryManager.deallocate p size S.storage.segment._memoryManager = (x, blocks)) :
      Step S .others { S with storage := S.storage.setMemory blocks, foreign := before ++ after }
  | acquire (S : State) {p : Nat} {blocks : List Block}
      (h : NotificationManager.allocate 1 S.storage.segment._notifyManager = (.ok p, blocks)) :
      Step S .others { S with storage := S.storage.setNotify blocks, foreignIds := p :: S.foreignIds }
  | release (S : State) {before after : List Nat} {p : Nat} {x : Except Error Unit} {blocks : List Block}
      (held : S.foreignIds = before ++ p :: after)
      (h : NotificationManager.deallocate p S.storage.segment._notifyManager = (x, blocks)) :
      Step S .others { S with storage := S.storage.setNotify blocks, foreignIds := before ++ after }

/-- The shares in allocations, one for each endpoint that has one. -/
def shares (es : List Endpoint) : List Nat := es.filterMap Endpoint._allocMemory

/-- The endpoints' own ids. -/
def ownIds (es : List Endpoint) : List Nat := (es.filterMap Endpoint._allocNotify).map toSize

/-- An allocation of size zero takes nothing from the segment. -/
def taken (b : Nat × Nat) : Bool := b.2 != 0

namespace State

variable (S : State)

/-- The allocations of the endpoints. -/
def blocks : List (Nat × Nat) := (S.storage.allocations.alive (shares S.endpoints)).filter taken

def ids : List Nat := ownIds S.endpoints

end State

/-- `[a.1, a.1 + a.2)` and `[b.1, b.1 + b.2)` have nothing in common. -/
def Apart (a b : Nat × Nat) : Prop := a.1 + a.2 ≤ b.1 ∨ b.1 + b.2 ≤ a.1

structure Sound (ls : List Label) (S : State) : Prop where
  /-- Every block that is out is somebody's, once. -/
  memory : (Blocks.live S.storage.segment._memoryManager).Perm (S.foreign ++ S.blocks)
  ids : S.storage.segment.ids.Perm (S.foreignIds ++ S.ids)
  distinct : (S.foreignIds ++ S.ids).Nodup
  apart : (S.foreign ++ S.blocks).Pairwise Apart
  /-- An endpoint with a share has its memory, whoever else has been destroyed. -/
  valid : ∀ e ∈ S.endpoints, ∀ h, e._allocMemory = some h → e._size ≠ 0 → (e._pointer, e._size) ∈ S.blocks
  shared : ∀ e ∈ S.endpoints, ∀ e' ∈ S.endpoints, ∀ h h', e._allocMemory = some h → e'._allocMemory = some h' →
    e._size ≠ 0 → e'._size ≠ 0 → h ≠ h' → Apart (e._pointer, e._size) (e'._pointer, e'._size)
  /-- When the endpoints are gone, only the others hold anything. -/
  restored : S.endpoints = [] → (Blocks.live S.storage.segment._memoryManager).Perm S.foreign ∧
    S.storage.segment.ids.Perm S.foreignIds
  throws : .terminates ∉ ls

/-! ## Blocks in order -/

section

variable {lo hi : Nat} {bs : List Block}

/-- What is allocated does not overlap. -/
theorem live_apart (h : Blocks.Tiles lo bs hi) : (Blocks.live bs).Pairwise fun a b => a.1 + a.2 ≤ b.1 := by
  induction bs generalizing lo with
  | nil => exact .nil
  | cons b bs ih =>
    obtain ⟨rfl, -, hrest⟩ := h
    cases hb : b.free with
    | true =>
      rw [Blocks.live_cons_free hb]
      exact ih hrest
    | false =>
      rw [Blocks.live_cons_allocated hb]
      refine .cons (fun c hc => ?_) (ih hrest)
      obtain ⟨d, hd, -, hstart, -⟩ := Blocks.mem_live.mp hc
      exact hstart ▸ (hrest.bounds hd).1

theorem live_starts_nodup (h : Blocks.Tiles lo bs hi) : ((Blocks.live bs).map Prod.fst).Nodup := by
  refine List.pairwise_map.mpr ((live_apart h).imp_of_mem fun {a b} ha hb hab => ?_)
  obtain ⟨c, hc, -, -, hsize⟩ := Blocks.mem_live.mp ha
  have hpos := h.pos hc
  omega

end

/-! ## Ids -/

/-- The ids that are out are those of `es` and of the others. -/
structure Ids (N : Nat) (bs : List Block) (es : List Endpoint) (foreignIds : List Nat) : Prop where
  holds : NotificationManager.Holds N bs
  ids : (NotificationManager.ids bs).Perm (foreignIds ++ ownIds es)

section

variable {N p : Nat} {bs bs' : List Block} {es es' : List Endpoint} {e : Endpoint}
  {foreignIds before after : List Nat} {notification : Notification}

namespace Ids

theorem perm (h : Ids N bs es foreignIds) (hp : es.Perm es') : Ids N bs es' foreignIds where
  holds := h.holds
  ids := h.ids.trans (((hp.filterMap _).map _).append_left _)

theorem cons_none (h : Ids N bs es foreignIds) (he : e._allocNotify = none) : Ids N bs (e :: es) foreignIds where
  holds := h.holds
  ids := by simpa [ownIds, he] using h.ids

theorem cons_acquire (hN : N ≤ 2 ^ 31) (h : Ids N bs es foreignIds)
    (ha : NotificationManager.acquire_notification bs = (.ok notification, bs'))
    (he : e._allocNotify = some notification) : Ids N bs' (e :: es) foreignIds := by
  obtain ⟨p, bs'', hok, hholds, hout⟩ | ⟨⟨x, hx⟩, -⟩ := h.holds.acquire
  · rw [ha] at hok
    obtain ⟨hid, rfl⟩ : notification = toNotification p ∧ bs' = bs'' := by simpa using hok
    have hsize : toSize notification = p := by
      rw [hid]
      exact NotificationManager.toSize_toNotification (Nat.lt_of_lt_of_le hout.below hN)
    refine ⟨hholds, (hout.live.trans (h.ids.cons p)).trans ?_⟩
    simpa [ownIds, he, hsize] using List.perm_middle.symm
  · rw [ha] at hx
    cases hx

theorem refused (h : Ids N bs es foreignIds) {x : Error}
    (ha : NotificationManager.acquire_notification bs = (.error x, bs')) : Ids N bs' es foreignIds := by
  obtain ⟨p, bs'', hok, -, -⟩ | ⟨⟨y, hy⟩, -⟩ := h.holds.acquire
  · rw [ha] at hok
    cases hok
  · rw [ha] at hy
    obtain ⟨-, rfl⟩ := Prod.mk.inj hy
    exact h

theorem drop (h : Ids N bs (e :: es) foreignIds) (he : e._allocNotify = some notification) :
    ∃ bs', NotificationManager.release_notification notification bs = (.ok (), bs') ∧ Ids N bs' es foreignIds := by
  have hids : (NotificationManager.ids bs).Perm (toSize notification :: (foreignIds ++ ownIds es)) := by
    refine h.ids.trans ?_
    simp [ownIds, he]
  obtain ⟨bs', hd, hholds, hperm⟩ := h.holds.deallocate (hids.symm.subset List.mem_cons_self)
  exact ⟨bs', hd, hholds, (List.perm_cons _).mp (hperm.trans hids)⟩

theorem drop_none (h : Ids N bs (e :: es) foreignIds) (he : e._allocNotify = none) : Ids N bs es foreignIds where
  holds := h.holds
  ids := by simpa [ownIds, he] using h.ids

theorem foreign_acquire (h : Ids N bs es foreignIds) (ha : NotificationManager.allocate 1 bs = (.ok p, bs')) :
    Ids N bs' es (p :: foreignIds) where
  holds := by
    have hcall := h.holds.call .allocate
    unfold NotificationManager.call at hcall
    rwa [ha] at hcall
  ids := (h.holds.allocated ha).live.trans (h.ids.cons p)

theorem foreign_release (h : Ids N bs es (before ++ p :: after)) {x : Except Error Unit}
    (hd : NotificationManager.deallocate p bs = (x, bs')) : Ids N bs' es (before ++ after) := by
  have hids : (NotificationManager.ids bs).Perm (p :: ((before ++ after) ++ ownIds es)) := by
    refine h.ids.trans ?_
    simp
  obtain ⟨bs'', hok, hholds, hperm⟩ := h.holds.deallocate (hids.symm.subset List.mem_cons_self)
  rw [hd] at hok
  obtain ⟨-, rfl⟩ := Prod.mk.inj hok
  exact ⟨hholds, (List.perm_cons _).mp (hperm.trans hids)⟩

theorem nodup (h : Ids N bs es foreignIds) : (foreignIds ++ ownIds es).Nodup :=
  h.ids.nodup_iff.mp (live_starts_nodup h.holds.partition.tiles)

end Ids

end

/-! ## Memory -/

/-- The blocks that are out are the allocations `es` have shares in and those of the others. -/
structure Memory (R : MemoryManager.Region) (bs : List Block) (H : Heap (Nat × Nat)) (es : List Endpoint)
    (foreign : List (Nat × Nat)) : Prop where
  partition : Blocks.Partition R.memory_segment_ptr R.stop bs
  counted : H.Counted (shares es)
  live : (Blocks.live bs).Perm (foreign ++ (H.alive (shares es)).filter taken)
  object : ∀ e ∈ es, ∀ h, e._allocMemory = some h → H.object h = (e._pointer, e._size)
  null : ∀ e ∈ es, ∀ h, e._allocMemory = some h → e._size = 0 → e._pointer = 0

section

variable {R : MemoryManager.Region} {bs bs' : List Block} {H : Heap (Nat × Nat)} {es es' : List Endpoint}
  {e other : Endpoint} {foreign before after : List (Nat × Nat)} {size p h : Nat} {M : Storage}

theorem allocate_live (hpart : Blocks.Partition R.memory_segment_ptr R.stop bs)
    (ha : MemoryManager.allocate size bs = (.ok p, bs')) :
    Blocks.Partition R.memory_segment_ptr R.stop bs' ∧
      (Blocks.live bs').Perm ([(p, size)].filter taken ++ Blocks.live bs) ∧ (size = 0 → p = 0) := by
  have hcall : Blocks.Partition R.memory_segment_ptr R.stop (MemoryManager.allocate size bs).2 :=
    MemoryManager.partition_call hpart (.allocate size)
  rw [ha] at hcall
  rcases Nat.eq_zero_or_pos size with rfl | hpos
  · obtain ⟨rfl, rfl⟩ : 0 = p ∧ bs = bs' := by simpa [MemoryManager.allocate] using ha
    exact ⟨hcall, .refl _, fun _ => rfl⟩
  · have htaken : taken (p, size) = true := by simp [taken]; omega
    refine ⟨hcall, ?_, fun h => absurd h (by omega)⟩
    rw [List.filter_cons_of_pos htaken]
    exact (MemoryManager.allocated_of_partition hpart hpos ha).live

theorem mem_shares (he : e ∈ es) (hh : e._allocMemory = some h) : h ∈ shares es :=
  List.mem_filterMap.mpr ⟨e, he, hh⟩

theorem shares_cons_none (es : List Endpoint) (hh : e._allocMemory = none) : shares (e :: es) = shares es :=
  List.filterMap_cons_none hh

theorem shares_cons_some (hh : e._allocMemory = some h) : shares (e :: es) = h :: shares es :=
  List.filterMap_cons_some hh

namespace Memory

theorem perm (hm : Memory R bs H es foreign) (hp : es.Perm es') : Memory R bs H es' foreign where
  partition := hm.partition
  counted := hm.counted.perm (hp.filterMap _)
  live := hm.live.trans (((H.alive_perm (hp.filterMap _)).filter _).append_left _)
  object e he := hm.object e (hp.symm.subset he)
  null e he := hm.null e (hp.symm.subset he)

theorem cons_none (hm : Memory R bs H es foreign) (hh : e._allocMemory = none) : Memory R bs H (e :: es) foreign where
  partition := hm.partition
  counted := shares_cons_none es hh ▸ hm.counted
  live := shares_cons_none es hh ▸ hm.live
  object e' he' h hk := by
    rcases List.mem_cons.mp he' with rfl | he'
    · rw [hh] at hk; cases hk
    · exact hm.object e' he' h hk
  null e' he' h hk := by
    rcases List.mem_cons.mp he' with rfl | he'
    · rw [hh] at hk; cases hk
    · exact hm.null e' he' h hk

/-- A constructor that allocates. -/
theorem cons_make (hm : Memory R bs H es foreign)
    (ha : MemoryManager.allocate e._size bs = (.ok e._pointer, bs')) (hh : e._allocMemory = some H.next) :
    Memory R bs' (H.make (e._pointer, e._size)) (e :: es) foreign := by
  obtain ⟨hpart, hlive, hnull⟩ := allocate_live hm.partition ha
  have hnew : (H.make (e._pointer, e._size)).object H.next = (e._pointer, e._size) := Function.update_self ..
  refine ⟨hpart, ?_, ?_, ?_, ?_⟩
  · rw [shares_cons_some hh]
    exact hm.counted.make _
  · rw [shares_cons_some hh, hm.counted.alive_make, ← List.singleton_append, List.filter_append]
    exact (hlive.trans (hm.live.append_left _)).trans (List.perm_append_comm_assoc ..)
  · intro e' he' h hk
    rcases List.mem_cons.mp he' with rfl | he'
    · rw [hh] at hk
      obtain rfl := Option.some.inj hk
      exact hnew
    · rw [hm.counted.object_make _ (mem_shares he' hk)]
      exact hm.object e' he' h hk
  · intro e' he' h hk
    rcases List.mem_cons.mp he' with rfl | he'
    · exact hnull
    · exact hm.null e' he' h hk

/-- The copy constructor: a share more, if the original has one. -/
theorem cons_share (hm : Memory R M.segment._memoryManager M.allocations es foreign) (hother : other ∈ es)
    (hh : e._allocMemory = other._allocMemory) (hp : e._pointer = other._pointer) (hs : e._size = other._size) :
    Memory R M.segment._memoryManager (M.share other._allocMemory).allocations (e :: es) foreign := by
  cases ho : other._allocMemory with
  | none => exact hm.cons_none (hh.trans ho)
  | some k =>
    have hk := mem_shares hother ho
    have hobject : ∀ e' ∈ e :: es, ∀ h, e'._allocMemory = some h →
        ∃ e'' ∈ es, e''._allocMemory = some h ∧ e''._pointer = e'._pointer ∧ e''._size = e'._size := by
      intro e' he' h hk
      rcases List.mem_cons.mp he' with rfl | he'
      · exact ⟨other, hother, hh ▸ hk, hp.symm, hs.symm⟩
      · exact ⟨e', he', hk, rfl, rfl⟩
    refine ⟨hm.partition, ?_, ?_, fun e' he' h hk => ?_, fun e' he' h hk => ?_⟩
    · rw [shares_cons_some (hh.trans ho)]
      exact hm.counted.copy hk
    · rw [shares_cons_some (hh.trans ho)]
      exact (M.allocations.alive_copy hk).symm ▸ hm.live
    · obtain ⟨e'', he'', hk', hp', hs'⟩ := hobject e' he' h hk
      rw [← hp', ← hs']
      exact hm.object e'' he'' h hk'
    · obtain ⟨e'', he'', hk', hp', hs'⟩ := hobject e' he' h hk
      rw [← hp', ← hs']
      exact hm.null e'' he'' h hk'

/-- Members that are left keep their objects. -/
theorem tail (hm : Memory R bs H (e :: es) foreign) (hpart : Blocks.Partition R.memory_segment_ptr R.stop bs')
    (hcount : (H.release h).Counted (shares es))
    (hlive : (Blocks.live bs').Perm (foreign ++ ((H.release h).alive (shares es)).filter taken)) :
    Memory R bs' (H.release h) es foreign where
  partition := hpart
  counted := hcount
  live := hlive
  object e' he' := hm.object e' (List.mem_cons_of_mem _ he')
  null e' he' := hm.null e' (List.mem_cons_of_mem _ he')

/-- A share is given up, and with the last one the memory. -/
theorem drop (hm : Memory R M.segment._memoryManager M.allocations (e :: es) foreign) :
    ∃ M', M.resetMemory e._allocMemory = (.ok (), M') ∧
      Memory R M'.segment._memoryManager M'.allocations es foreign ∧
      M'.segment._notifyManager = M.segment._notifyManager := by
  unfold Storage.resetMemory
  cases hh : e._allocMemory with
  | none =>
    refine ⟨M, rfl, ⟨hm.partition, ?_, ?_, ?_, ?_⟩, rfl⟩
    · exact shares_cons_none es hh ▸ hm.counted
    · exact shares_cons_none es hh ▸ hm.live
    · exact fun e' he' => hm.object e' (List.mem_cons_of_mem _ he')
    · exact fun e' he' => hm.null e' (List.mem_cons_of_mem _ he')
  | some h =>
    have hcount := hm.counted
    have hlive := hm.live
    have hobject := hm.object e List.mem_cons_self h hh
    rw [shares_cons_some hh] at hcount hlive
    by_cases hone : M.allocations.use_count h = 1
    · rw [hcount.alive_last hone, hobject] at hlive
      simp only [hone, if_true, hobject]
      by_cases hs : e._size = 0
      · have hp := hm.null e List.mem_cons_self h hh hs
        have hfree : MemoryManager.deallocate e._pointer e._size M.segment._memoryManager =
            (.ok (), M.segment._memoryManager) := by rw [MemoryManager.deallocate, if_pos hp]
        rw [List.filter_cons_of_neg (by simp [taken, hs])] at hlive
        rw [hfree]
        exact ⟨_, rfl, hm.tail hm.partition hcount.release hlive, rfl⟩
      · rw [List.filter_cons_of_pos (by simpa [taken] using hs)] at hlive
        have hlive' := hlive.trans List.perm_middle
        obtain ⟨bs', hd, hpart, hperm⟩ := MemoryManager.deallocate_live hm.partition R.not_null
          (hlive'.symm.subset List.mem_cons_self)
        rw [hd]
        exact ⟨_, rfl, hm.tail hpart hcount.release ((List.perm_cons _).mp (hperm.trans hlive')), rfl⟩
    · simp only [hone, if_false]
      refine ⟨_, rfl, hm.tail hm.partition hcount.release ?_, rfl⟩
      rw [hcount.alive_shared hone]
      exact hlive

/-- What leaves the allocated blocks as they are. -/
theorem same (hm : Memory R bs H es foreign) (hpart : Blocks.Partition R.memory_segment_ptr R.stop bs')
    (hlive : (Blocks.live bs').Perm (Blocks.live bs)) : Memory R bs' H es foreign :=
  ⟨hpart, hm.counted, hlive.trans hm.live, hm.object, hm.null⟩

theorem foreign_allocate (hm : Memory R bs H es foreign) (hpos : 0 < size)
    (ha : MemoryManager.allocate size bs = (.ok p, bs')) : Memory R bs' H es ((p, size) :: foreign) := by
  obtain ⟨hpart, hlive, -⟩ := allocate_live hm.partition ha
  rw [List.filter_cons_of_pos (by simp [taken]; omega)] at hlive
  exact ⟨hpart, hm.counted, hlive.trans (hm.live.cons _), hm.object, hm.null⟩

theorem foreign_deallocate (hm : Memory R bs H es (before ++ (p, size) :: after)) {x : Except Error Unit}
    (hd : MemoryManager.deallocate p size bs = (x, bs')) : Memory R bs' H es (before ++ after) := by
  have hlive : (Blocks.live bs).Perm ((p, size) :: ((before ++ after) ++ (H.alive (shares es)).filter taken)) := by
    refine hm.live.trans ?_
    simp
  obtain ⟨bs'', hok, hpart, hperm⟩ := MemoryManager.deallocate_live hm.partition R.not_null
    (hlive.symm.subset List.mem_cons_self)
  rw [hd] at hok
  obtain ⟨-, rfl⟩ := Prod.mk.inj hok
  exact ⟨hpart, hm.counted, (List.perm_cons _).mp (hperm.trans hlive), hm.object, hm.null⟩

end Memory

end

/-! ## Constructors -/

section

variable {R : MemoryManager.Region} {e other : Endpoint} {M M' : Storage} {size pointer : Nat} {x : Error}
  {notification : Notification}

/-- The endpoint has taken an id. -/
structure Acquired (M : Storage) (e : Endpoint) (M' : Storage) : Prop where
  own : e._allocNotify = some e._notification
  acquired : NotificationManager.acquire_notification M.segment._notifyManager =
    (.ok e._notification, M'.segment._notifyManager)

/-- The endpoint has allocated its memory. -/
structure Allocated (M : Storage) (e : Endpoint) (M' : Storage) : Prop where
  first : e._allocMemory = some M.allocations.next
  allocated : MemoryManager.allocate e._size M.segment._memoryManager = (.ok e._pointer, M'.segment._memoryManager)
  made : M'.allocations = M.allocations.make (e._pointer, e._size)

theorem construct_acquired (h : Endpoint.construct size M = (.ok e, M')) : Allocated M e M' ∧ Acquired M e M' := by
  unfold Endpoint.construct at h
  cases hb : Buffer.construct size M.segment with
  | mk result segment =>
    rw [hb] at h
    cases result with
    | error x => cases h
    | ok b =>
      obtain ⟨hmem, p, hp, hid, hsize⟩ := construct_ok hb
      obtain ⟨he, rfl⟩ := Prod.mk.inj h
      obtain rfl := Except.ok.inj he
      refine ⟨⟨rfl, ?_, rfl⟩, ⟨rfl, ?_⟩⟩
      · rw [hsize]
        exact hmem
      · unfold NotificationManager.acquire_notification
        rw [hp]
        exact Prod.ext (congrArg Except.ok hid.symm) rfl

theorem constructAt_acquired (h : Endpoint.constructAt pointer size M = (.ok e, M')) :
    Acquired M e M' ∧ e._allocMemory = none ∧ e._pointer = pointer ∧ e._size = size ∧
      M'.segment._memoryManager = M.segment._memoryManager ∧ M'.allocations = M.allocations := by
  unfold Endpoint.constructAt at h
  cases ha : NotificationManager.acquire_notification M.segment._notifyManager with
  | mk result blocks =>
    rw [ha] at h
    cases result with
    | error x => cases h
    | ok notification =>
      obtain ⟨he, rfl⟩ := Prod.mk.inj h
      obtain rfl := Except.ok.inj he
      exact ⟨⟨rfl, ha⟩, rfl, rfl, rfl, rfl, rfl⟩

theorem constructWith_allocated (h : Endpoint.constructWith size notification M = (.ok e, M')) :
    Allocated M e M' ∧ e._allocNotify = none ∧ M'.segment._notifyManager = M.segment._notifyManager := by
  unfold Endpoint.constructWith at h
  cases ha : MemoryManager.allocate size M.segment._memoryManager with
  | mk result blocks =>
    rw [ha] at h
    cases result with
    | error x => cases h
    | ok pointer =>
      obtain ⟨he, rfl⟩ := Prod.mk.inj h
      obtain rfl := Except.ok.inj he
      exact ⟨⟨rfl, ha, rfl⟩, rfl, rfl⟩

theorem copy_acquired (h : other.copy M = (.ok e, M')) :
    Acquired M e M' ∧ e._allocMemory = other._allocMemory ∧ e._pointer = other._pointer ∧ e._size = other._size ∧
      M'.segment._memoryManager = M.segment._memoryManager ∧
      M'.allocations = (M.share other._allocMemory).allocations := by
  unfold Endpoint.copy at h
  cases hc : Endpoint.constructAt other._pointer other._size M with
  | mk result M₁ =>
    rw [hc] at h
    cases result with
    | error x => cases h
    | ok e₁ =>
      obtain ⟨hacq, -, hp, hs, hmem, halloc⟩ := constructAt_acquired hc
      obtain ⟨he, rfl⟩ := Prod.mk.inj h
      obtain rfl := Except.ok.inj he
      cases hother : other._allocMemory with
      | none => exact ⟨⟨hacq.own, hacq.acquired⟩, rfl, hp, hs, hmem, halloc⟩
      | some k =>
        exact ⟨⟨hacq.own, hacq.acquired⟩, rfl, hp, hs, hmem, congrArg (Heap.copy · k) halloc⟩

/-- A constructor that throws leaves what is out as it was. -/
structure Kept (R : MemoryManager.Region) (M M' : Storage) : Prop where
  partition : Blocks.Partition R.memory_segment_ptr R.stop M'.segment._memoryManager
  live : (Blocks.live M'.segment._memoryManager).Perm (Blocks.live M.segment._memoryManager)
  allocations : M'.allocations = M.allocations

theorem construct_kept (hpart : Blocks.Partition R.memory_segment_ptr R.stop M.segment._memoryManager)
    (h : Endpoint.construct size M = (.error x, M')) :
    Kept R M M' ∧ M'.segment._notifyManager = M.segment._notifyManager := by
  unfold Endpoint.construct at h
  cases hb : Buffer.construct size M.segment with
  | mk result segment =>
    rw [hb] at h
    cases result with
    | ok b => cases h
    | error y =>
      obtain ⟨-, rfl⟩ := Prod.mk.inj h
      refine ⟨?_, construct_error hb⟩
      rcases Nat.eq_zero_or_pos size with rfl | hpos
      -- nothing has been allocated, and nothing is released
      · have hsame : segment._memoryManager = M.segment._memoryManager := by
          have hmem := congrArg (fun r => r.2._memoryManager) hb
          unfold Buffer.construct at hmem
          simp only [MemoryManager.allocate, if_true] at hmem
          split at hmem
          · simpa [MemoryManager.deallocate] using hmem.symm
          · exact hmem.symm
        exact ⟨hsame ▸ hpart, hsame ▸ .refl _, rfl⟩
      · obtain ⟨hp, hl⟩ := construct_error_live hpos hpart hb
        exact ⟨hp, hl, rfl⟩

theorem constructAt_kept (hpart : Blocks.Partition R.memory_segment_ptr R.stop M.segment._memoryManager)
    (h : Endpoint.constructAt pointer size M = (.error x, M')) :
    Kept R M M' ∧
      NotificationManager.acquire_notification M.segment._notifyManager = (.error x, M'.segment._notifyManager) := by
  unfold Endpoint.constructAt at h
  cases ha : NotificationManager.acquire_notification M.segment._notifyManager with
  | mk result blocks =>
    rw [ha] at h
    cases result with
    | ok notification => cases h
    | error y =>
      obtain ⟨he, rfl⟩ := Prod.mk.inj h
      obtain rfl := Except.error.inj he
      exact ⟨⟨hpart, .refl _, rfl⟩, rfl⟩

theorem copy_kept (hpart : Blocks.Partition R.memory_segment_ptr R.stop M.segment._memoryManager)
    (h : other.copy M = (.error x, M')) :
    Kept R M M' ∧
      NotificationManager.acquire_notification M.segment._notifyManager = (.error x, M'.segment._notifyManager) := by
  unfold Endpoint.copy at h
  cases hc : Endpoint.constructAt other._pointer other._size M with
  | mk result M₁ =>
    rw [hc] at h
    cases result with
    | ok e => cases h
    | error y =>
      obtain ⟨he, rfl⟩ := Prod.mk.inj h
      obtain rfl := Except.error.inj he
      exact constructAt_kept hpart hc

theorem constructWith_kept (hpart : Blocks.Partition R.memory_segment_ptr R.stop M.segment._memoryManager)
    (h : Endpoint.constructWith size notification M = (.error x, M')) :
    Kept R M M' ∧ M'.segment._notifyManager = M.segment._notifyManager := by
  unfold Endpoint.constructWith at h
  cases ha : MemoryManager.allocate size M.segment._memoryManager with
  | mk result blocks =>
    rw [ha] at h
    cases result with
    | ok pointer => cases h
    | error y =>
      obtain ⟨-, rfl⟩ := Prod.mk.inj h
      have hsame : blocks = M.segment._memoryManager :=
        @MemoryManager.call_throws _ _ (.allocate size) y (by simp only [MemoryManager.call, ha, Except.map])
      exact ⟨⟨hsame ▸ hpart, hsame ▸ .refl _, rfl⟩, rfl⟩

end

/-! ## Steps -/

structure Inv (R : MemoryManager.Region) (N : Nat) (S : State) : Prop where
  memory : Memory R S.storage.segment._memoryManager S.storage.allocations S.endpoints S.foreign
  ids : Ids N S.storage.segment._notifyManager S.endpoints S.foreignIds

section

variable {R : MemoryManager.Region} {N : Nat} {S S' : State} {e : Endpoint} {ls : List Label} {l : Label}
  {M : Storage}

namespace Inv

theorem initial (R : MemoryManager.Region) (hN : 0 < N) : Inv R N (.initial R N) where
  memory := {
    partition := MemoryManager.partition_construct R
    counted := Heap.counted_empty _
    live := .refl _
    object := fun _ he => by cases he
    null := fun _ he => by cases he }
  ids := ⟨NotificationManager.holds_construct hN, .refl _⟩

/-- Destroying one of the endpoints. -/
theorem drop {es : List Endpoint} {notified : List Nat} {foreign : List (Nat × Nat)}
    (hm : Memory R M.segment._memoryManager M.allocations (e :: es) foreign)
    (hi : Ids N M.segment._notifyManager (e :: es) notified) :
    ∃ M', e.destroy M = (.ok (), M') ∧ Memory R M'.segment._memoryManager M'.allocations es foreign ∧
      Ids N M'.segment._notifyManager es notified := by
  unfold Endpoint.destroy Storage.resetNotify
  cases hn : e._allocNotify with
  | none =>
    obtain ⟨M', hM', hm', hnotify⟩ := hm.drop
    exact ⟨M', hM', hm', hnotify ▸ hi.drop_none hn⟩
  | some notification =>
    obtain ⟨bs', hb, hi'⟩ := hi.drop hn
    obtain ⟨M', hM', hm', hnotify⟩ := Memory.drop (M := M.setNotify bs') hm
    refine ⟨M', ?_, hm', hnotify ▸ hi'⟩
    simp only [hb]
    exact hM'

theorem refused (h : Inv R N S) (hk : Kept R S.storage M)
    (hi : Ids N M.segment._notifyManager S.endpoints S.foreignIds) : Inv R N { S with storage := M } where
  memory := hk.allocations ▸ h.memory.same hk.partition hk.live
  ids := hi

theorem step (hN : N ≤ 2 ^ 31) (h : Inv R N S) (hstep : Step S l S') : Inv R N S' ∧ l ≠ .terminates := by
  cases hstep with
  | construct hc =>
    obtain ⟨hal, hacq⟩ := construct_acquired hc
    exact ⟨⟨hal.made ▸ h.memory.cons_make hal.allocated hal.first, h.ids.cons_acquire hN hacq.acquired hacq.own⟩,
      by simp⟩
  | constructAt hc =>
    obtain ⟨hacq, hnone, -, -, hmem, halloc⟩ := constructAt_acquired hc
    exact ⟨⟨halloc ▸ hmem ▸ h.memory.cons_none hnone, h.ids.cons_acquire hN hacq.acquired hacq.own⟩, by simp⟩
  | constructWith hc =>
    obtain ⟨hal, hnone, hnotify⟩ := constructWith_allocated hc
    exact ⟨⟨hal.made ▸ h.memory.cons_make hal.allocated hal.first, hnotify ▸ h.ids.cons_none hnone⟩, by simp⟩
  | constructAtWith pointer size notification => exact ⟨⟨h.memory.cons_none rfl, h.ids.cons_none rfl⟩, by simp⟩
  | copy living hc =>
    obtain ⟨hacq, hshare, hp, hs, hmem, halloc⟩ := copy_acquired hc
    exact ⟨⟨halloc ▸ hmem ▸ h.memory.cons_share living hshare hp hs, h.ids.cons_acquire hN hacq.acquired hacq.own⟩,
      by simp⟩
  | refuse hc =>
    obtain ⟨hk, hnotify⟩ := construct_kept h.memory.partition hc
    exact ⟨h.refused hk (hnotify ▸ h.ids), by simp⟩
  | refuseWith hc =>
    obtain ⟨hk, hnotify⟩ := constructWith_kept h.memory.partition hc
    exact ⟨h.refused hk (hnotify ▸ h.ids), by simp⟩
  | refuseAt hc =>
    obtain ⟨hk, ha⟩ := constructAt_kept h.memory.partition hc
    exact ⟨h.refused hk (h.ids.refused ha), by simp⟩
  | refuseCopy living hc =>
    obtain ⟨hk, ha⟩ := copy_kept h.memory.partition hc
    exact ⟨h.refused hk (h.ids.refused ha), by simp⟩
  | destroy living hd =>
    have hfirst : S.endpoints.Perm _ := living ▸ List.perm_middle
    obtain ⟨M', hM', hm, hi⟩ := drop (h.memory.perm hfirst) (h.ids.perm hfirst)
    rw [hd] at hM'
    obtain ⟨-, rfl⟩ := Prod.mk.inj hM'
    exact ⟨⟨hm, hi⟩, by simp⟩
  -- no destructor throws
  | terminate living hd =>
    obtain ⟨before, after, hes⟩ := List.append_of_mem living
    have hfirst : S.endpoints.Perm _ := hes ▸ List.perm_middle
    obtain ⟨M', hM', -, -⟩ := drop (h.memory.perm hfirst) (h.ids.perm hfirst)
    rw [hd] at hM'
    cases hM'
  | allocate pos ha => exact ⟨⟨h.memory.foreign_allocate pos ha, h.ids⟩, by simp⟩
  | deallocate held hd => exact ⟨⟨Memory.foreign_deallocate (held ▸ h.memory) hd, h.ids⟩, by simp⟩
  | acquire ha => exact ⟨⟨h.memory, h.ids.foreign_acquire ha⟩, by simp⟩
  | release held hd => exact ⟨⟨h.memory, Ids.foreign_release (held ▸ h.ids) hd⟩, by simp⟩

theorem sound (h : Inv R N S) (hthrows : .terminates ∉ ls) : Sound ls S := by
  have hapart : (S.foreign ++ S.blocks).Pairwise Apart :=
    (h.memory.live.pairwise_iff Or.symm).mp ((live_apart h.memory.partition.tiles).imp Or.inl)
  have hmine := (List.pairwise_append.mp hapart).2.1
  unfold State.blocks Heap.alive at hmine
  rw [List.filter_map, List.pairwise_map] at hmine
  have htaken : ∀ e ∈ S.endpoints, ∀ h', e._allocMemory = some h' → e._size ≠ 0 →
      h' ∈ (shares S.endpoints).dedup.filter (taken ∘ S.storage.allocations.object) := by
    intro e he h' hh hs
    refine List.mem_filter.mpr ⟨List.mem_dedup.mpr (mem_shares he hh), ?_⟩
    simpa [taken, h.memory.object e he h' hh] using hs
  refine ⟨h.memory.live, h.ids.ids, h.ids.nodup, hapart, ?_, ?_, ?_, hthrows⟩
  · intro e he h' hh hs
    rw [← h.memory.object e he h' hh]
    exact List.mem_filter.mpr ⟨Heap.mem_alive (mem_shares he hh), (List.mem_filter.mp (htaken e he h' hh hs)).2⟩
  · intro e he e' he' h₁ h₂ hh hh' hs hs' hne
    rw [← h.memory.object e he h₁ hh, ← h.memory.object e' he' h₂ hh']
    have : Std.Symm fun a b => Apart (S.storage.allocations.object a) (S.storage.allocations.object b) :=
      ⟨fun _ _ => Or.symm⟩
    exact hmine.forall (htaken e he h₁ hh hs) (htaken e' he' h₂ hh' hs') hne
  · intro hnone
    have hm := h.memory.live
    have hi := h.ids.ids
    rw [hnone] at hm hi
    rw [show ownIds [] = [] from rfl, List.append_nil] at hi
    exact ⟨by simpa [shares, Heap.alive] using hm, hi⟩

end Inv

/-- **Memory and ids of a segment are given back once, by the last endpoint that owns them.** -/
theorem sharing_sound (hpos : 0 < N) (hN : N ≤ 2 ^ 31) (h : Trace Step (.initial R N) ls S) : Sound ls S := by
  obtain ⟨hI, hthrows⟩ : Inv R N S ∧ .terminates ∉ ls := by
    refine h.history (P := fun ls S => Inv R N S ∧ .terminates ∉ ls) ⟨.initial R hpos, by simp⟩ ?_
    rintro ls S l S' ⟨hI, hno⟩ hl
    obtain ⟨hI', hne⟩ := hI.step hN hl
    exact ⟨hI', by simpa [hno] using hne.symm⟩
  exact hI.sound hthrows

/-- Two endpoints share eight bytes, and the first is destroyed before the other. -/
theorem sharing_sound_two : ∃ R S, ∃ e e' : Endpoint,
    Trace Step (.initial R 4) [.constructs e, .copies e e', .destroys e, .refused, .destroys e'] S ∧
      Sound [.constructs e, .copies e e', .destroys e, .refused, .destroys e'] S := by
  have made : Trace Step (.initial ⟨100, 8, by decide, by decide⟩ 4) _ _ :=
    Trace.single (@Step.construct _ 8 _ _ rfl)
  have whole := (((made.snoc (@Step.copy _ _ _ _ List.mem_cons_self rfl)).snoc
    (@Step.destroy _ [_] [] _ _ rfl rfl)).snoc (@Step.refuse _ 1 _ _ rfl)).snoc (@Step.destroy _ [] [] _ _ rfl rfl)
  exact ⟨_, _, _, _, whole, sharing_sound (by decide) (by decide) whole⟩

end

end Sharing

end GaspiCxx.SingleSided
