import GaspiCxx.Collectives.Exchange.Correct
import GaspiCxx.Collectives.Exchange.Strips

/-!
# Blocking alltoall and alltoallv

Both exchange the parts of the members' source regions with the parts of their
target regions; they differ in how the parts are cut. Any sequence of calls of the
two is correct, at every interleaving.
-/

namespace GaspiCxx.Collectives.Alltoall

open OneSided Passive Exchange AllgathervCommon

/-- A call of `alltoall`. No member's source region has a byte of its target region. -/
structure AlltoallCall (n : Nat) extends Pointers n where
  size : Nat
  apart : ∀ m, (⟨sourceSegment m, gSource m, n * size⟩ : Part).Apart ⟨targetSegment m, gTarget m, n * size⟩

/-- A call of `alltoallv`. -/
structure AlltoallvCall (n : Nat) extends Pointers n where
  sourceSizes : Fin n → Fin n → Nat
  targetSizes : Fin n → Fin n → Nat
  agree : ∀ p q, sourceSizes p q = targetSizes q p
  apart : ∀ m, (⟨sourceSegment m, gSource m, before (sourceSizes m) n⟩ : Part).Apart
    ⟨targetSegment m, gTarget m, before (targetSizes m) n⟩

variable {n : Nat}

/-- The parts of the descriptions of `alltoall`. -/
def AlltoallCall.call (c : AlltoallCall n) : Exchange.Call n where
  source m i := ⟨c.sourceSegment m, c.gSource m + i * c.size, c.size⟩
  target m i := ⟨c.targetSegment m, c.gTarget m + i * c.size, c.size⟩
  agree _ _ := rfl
  targets m i j h := by
    have := (⟨c.targetSegment m, c.gTarget m, fun _ => c.size⟩ : Strip n).part_apart h
    simpa only [Strip.part, before_const c.size i.isLt.le, before_const c.size j.isLt.le] using this
  sources m i j := by
    have hs := (⟨c.sourceSegment m, c.gSource m, fun _ => c.size⟩ : Strip n).part_within i
    have ht := (⟨c.targetSegment m, c.gTarget m, fun _ => c.size⟩ : Strip n).part_within j
    simp only [Strip.part, Strip.region, before_const c.size (Nat.le_refl n), before_const c.size i.isLt.le,
      before_const c.size j.isLt.le] at hs ht
    exact (c.apart m).mono hs ht

/-- The parts of the descriptions of `alltoallv`: `sourceOffset` and `targetOffset`
add up the sizes. -/
def AlltoallvCall.call (c : AlltoallvCall n) : Exchange.Call n where
  source m i := ⟨c.sourceSegment m, c.gSource m + before (c.sourceSizes m) i, c.sourceSizes m i⟩
  target m i := ⟨c.targetSegment m, c.gTarget m + before (c.targetSizes m) i, c.targetSizes m i⟩
  agree := c.agree
  targets m _ _ h := (⟨c.targetSegment m, c.gTarget m, c.targetSizes m⟩ : Strip n).part_apart h
  sources m i j := (c.apart m).mono
    ((⟨c.sourceSegment m, c.gSource m, c.sourceSizes m⟩ : Strip n).part_within i)
    ((⟨c.targetSegment m, c.gTarget m, c.targetSizes m⟩ : Strip n).part_within j)

/-- A call of either. -/
inductive AnyCall (n : Nat) where
  | alltoall (c : AlltoallCall n)
  | alltoallv (c : AlltoallvCall n)

namespace AnyCall

def call : AnyCall n → Exchange.Call n
  | .alltoall c => c.call
  | .alltoallv c => c.call

/-- The target region of a member. -/
def targetRegion : AnyCall n → Fin n → Part
  | .alltoall c, m => ⟨c.targetSegment m, c.gTarget m, n * c.size⟩
  | .alltoallv c, m => ⟨c.targetSegment m, c.gTarget m, before (c.targetSizes m) n⟩

/-- A target region is read part by part. -/
theorem read_targetRegion (c : AnyCall n) (M : Memory) (m : Fin n) :
    M.read (c.targetRegion m) = (List.finRange n).flatMap fun i => M.read (c.call.target m i) := by
  cases c with
  | alltoall c =>
    have := (⟨c.targetSegment m, c.gTarget m, fun _ => c.size⟩ : Strip n).read_region M
    simp only [Strip.region, before_const c.size (Nat.le_refl n)] at this
    refine this.trans (List.flatMap_congr fun i _ => ?_)
    simp only [Strip.part, before_const c.size i.isLt.le]
    rfl
  | alltoallv c => exact (⟨c.targetSegment m, c.gTarget m, c.targetSizes m⟩ : Strip n).read_region M

end AnyCall

variable {D : Serialization.Typedefs} {group : Group n} {calls : Nat → AnyCall n} {s : Exchange.State n}

/-- **Alltoall and alltoallv are correct.** When a member has returned from its `k`-th
call, with memory and segments as in `r`, its target region holds what every member
supplied for it to the `k`-th call, in the order of the members, and its segments are as
they were when it entered. Outside the calls no write reads a member's memory. With
all members inside and nothing on its way, some member goes on. -/
theorem alltoall_correct (hs : Exchange.Reachable D group (fun k => (calls k).call) s) :
    s.net.errors = [] ∧
    (∀ m, (s.returned m).length = (s.progress m).run) ∧
    (∀ m (k : Nat) r, (s.returned m)[k]? = some r → ∃ e : Fin n → Snapshot,
      (∀ i, (s.supplied i)[k]? = some (e i)) ∧ r.live = (e m).live ∧ r.allocated = (e m).allocated ∧
      r.memory.read ((calls k).targetRegion m) =
        (List.finRange n).flatMap fun i => (e i).memory.read ((calls k).call.source i m)) ∧
    (∀ m, (s.progress m).steps = 0 → Flushed s (group.toGlobalRank m)) ∧
    (s.net.Delivered → 0 < n → (∀ m, 0 < (s.progress m).steps) →
      ∃ m s', Exchange.Step D group (fun k => (calls k).call) s s' ∧
        s'.progress = Progress.tick (Exchange.length n) s.progress m) := by
  obtain ⟨packet, posted, hinv⟩ := hs.inv
  refine ⟨hinv.consistent.errors, hinv.left, fun m k r hr => ?_, fun m hm => hinv.flushed fun i h => ?_,
    fun hN hn _ => ?_⟩
  · obtain ⟨e, he, hlive, hblocks, hread⟩ := (hinv.complete m k r hr).entries
    refine ⟨e, he, hlive, hblocks, ?_⟩
    rw [(calls k).read_targetRegion]
    exact List.flatMap_congr fun i _ => hread i
  · rw [hm] at h
    exact absurd h (Nat.not_lt_zero _)
  · have : Nonempty (Fin n) := ⟨⟨0, hn⟩⟩
    obtain ⟨m, hm⟩ := Progress.exists_behind s.progress
    obtain ⟨s', hstep, hprog⟩ := goes_on hinv hN hm
    exact ⟨m, s', hstep, hprog⟩

/-- First an `alltoall` of two bytes, then an `alltoallv`. -/
def pairCalls (k : Nat) : AnyCall 2 :=
  if k = 0 then
    .alltoall {
      sourceSegment := fun _ => 0
      gSource := fun _ => 0
      targetSegment := fun _ => 0
      gTarget := fun _ => 8
      size := 2
      apart := by
        rintro m ⟨a, b⟩ ⟨-, h1, h2⟩ ⟨-, h3, h4⟩
        simp only at h1 h2 h3 h4
        omega }
  else
    .alltoallv {
      sourceSegment := fun _ => 0
      gSource := fun _ => 0
      targetSegment := fun _ => 0
      gTarget := fun _ => 8
      sourceSizes := fun p q => p + 2 * q
      targetSizes := fun p q => q + 2 * p
      agree := fun _ _ => rfl
      apart := by
        have hle : ∀ p : Fin 2, before (fun q : Fin 2 => p.val + 2 * q.val) 2 ≤ 8 := by decide
        rintro m ⟨a, b⟩ ⟨-, h1, h2⟩ ⟨-, h3, h4⟩
        have := hle m
        simp only at h1 h2 h3 h4
        omega }

theorem alltoall_correct_pair : ∃ s : Exchange.State 2, (∀ m, (s.returned m).length = 2) ∧
    (s.net.errors = [] ∧
    (∀ m, (s.returned m).length = (s.progress m).run) ∧
    (∀ m (k : Nat) r, (s.returned m)[k]? = some r → ∃ e : Fin 2 → Snapshot,
      (∀ i, (s.supplied i)[k]? = some (e i)) ∧ r.live = (e m).live ∧ r.allocated = (e m).allocated ∧
      r.memory.read ((pairCalls k).targetRegion m) =
        (List.finRange 2).flatMap fun i => (e i).memory.read ((pairCalls k).call.source i m)) ∧
    (∀ m, (s.progress m).steps = 0 → Flushed s (pair.toGlobalRank m)) ∧
    (s.net.Delivered → 0 < 2 → (∀ m, 0 < (s.progress m).steps) →
      ∃ m s', Exchange.Step Serialization.gaspi pair (fun k => (pairCalls k).call) s s' ∧
        s'.progress = Progress.tick (Exchange.length 2) s.progress m)) := by
  obtain ⟨s, hs, hlen⟩ := pair_returns fun k => (pairCalls k).call
  exact ⟨s, hlen, alltoall_correct hs⟩

end GaspiCxx.Collectives.Alltoall
