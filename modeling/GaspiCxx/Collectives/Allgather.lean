import GaspiCxx.Collectives.Exchange.Correct
import GaspiCxx.Collectives.Exchange.Strips

/-!
# Blocking allgather and allgatherv

Every member sends its whole source region to all members, which put it at its
place in their target regions. Any sequence of calls of the two is correct, at every
interleaving.
-/

namespace GaspiCxx.Collectives.Allgather

open OneSided Passive Exchange AllgathervCommon

/-- A call of `allgather`. No member's source region has a byte of its target region. -/
structure AllgatherCall (n : Nat) extends Pointers n where
  size : Nat
  apart : ∀ m, (⟨sourceSegment m, gSource m, size⟩ : Part).Apart ⟨targetSegment m, gTarget m, n * size⟩

/-- A call of `allgatherv`. -/
structure AllgathervCall (n : Nat) extends Pointers n where
  sizes : Fin n → Nat
  apart : ∀ m, (⟨sourceSegment m, gSource m, sizes m⟩ : Part).Apart ⟨targetSegment m, gTarget m, before sizes n⟩

variable {n : Nat}

/-- The parts of the descriptions of `allgather`. -/
def AllgatherCall.call (c : AllgatherCall n) : Exchange.Call n where
  source m _ := ⟨c.sourceSegment m, c.gSource m, c.size⟩
  target m i := ⟨c.targetSegment m, c.gTarget m + i * c.size, c.size⟩
  agree _ _ := rfl
  targets m i j h := by
    have := (⟨c.targetSegment m, c.gTarget m, fun _ => c.size⟩ : Strip n).part_apart h
    simpa only [Strip.part, before_const c.size i.isLt.le, before_const c.size j.isLt.le] using this
  sources m _ j := by
    have ht := (⟨c.targetSegment m, c.gTarget m, fun _ => c.size⟩ : Strip n).part_within j
    simp only [Strip.part, Strip.region, before_const c.size (Nat.le_refl n), before_const c.size j.isLt.le] at ht
    exact (c.apart m).mono (Part.Within.refl _) ht

/-- The parts of the descriptions of `allgatherv`: `offset` adds up the sizes. -/
def AllgathervCall.call (c : AllgathervCall n) : Exchange.Call n where
  source m _ := ⟨c.sourceSegment m, c.gSource m, c.sizes m⟩
  target m i := ⟨c.targetSegment m, c.gTarget m + before c.sizes i, c.sizes i⟩
  agree _ _ := rfl
  targets m _ _ h := (⟨c.targetSegment m, c.gTarget m, c.sizes⟩ : Strip n).part_apart h
  sources m _ j := (c.apart m).mono (Part.Within.refl _)
    ((⟨c.targetSegment m, c.gTarget m, c.sizes⟩ : Strip n).part_within j)

/-- A call of either. -/
inductive AnyCall (n : Nat) where
  | allgather (c : AllgatherCall n)
  | allgatherv (c : AllgathervCall n)

namespace AnyCall

def call : AnyCall n → Exchange.Call n
  | .allgather c => c.call
  | .allgatherv c => c.call

/-- The source region of a member. -/
def sourceRegion : AnyCall n → Fin n → Part
  | .allgather c, m => ⟨c.sourceSegment m, c.gSource m, c.size⟩
  | .allgatherv c, m => ⟨c.sourceSegment m, c.gSource m, c.sizes m⟩

/-- The target region of a member. -/
def targetRegion : AnyCall n → Fin n → Part
  | .allgather c, m => ⟨c.targetSegment m, c.gTarget m, n * c.size⟩
  | .allgatherv c, m => ⟨c.targetSegment m, c.gTarget m, before c.sizes n⟩

theorem source_eq (c : AnyCall n) (m i : Fin n) : c.call.source m i = c.sourceRegion m := by
  cases c <;> rfl

/-- A target region is read part by part. -/
theorem read_targetRegion (c : AnyCall n) (M : Memory) (m : Fin n) :
    M.read (c.targetRegion m) = (List.finRange n).flatMap fun i => M.read (c.call.target m i) := by
  cases c with
  | allgather c =>
    have := (⟨c.targetSegment m, c.gTarget m, fun _ => c.size⟩ : Strip n).read_region M
    simp only [Strip.region, before_const c.size (Nat.le_refl n)] at this
    refine this.trans (List.flatMap_congr fun i _ => ?_)
    simp only [Strip.part, before_const c.size i.isLt.le]
    rfl
  | allgatherv c => exact (⟨c.targetSegment m, c.gTarget m, c.sizes⟩ : Strip n).read_region M

end AnyCall

variable {D : Serialization.Typedefs} {group : Group n} {calls : Nat → AnyCall n} {s : Exchange.State n}

/-- **Allgather and allgatherv are correct.** When a member has returned from its `k`-th
call, with memory and segments as in `r`, its target region holds the source regions
all members supplied to the `k`-th call, in the order of the members and each at its
place, and its segments are as they were when it entered. Outside the calls no write
reads a member's memory, so the source may be overwritten at once. -/
theorem allgather_correct (hs : Exchange.Reachable D group (fun k => (calls k).call) s) :
    s.net.errors = [] ∧
    (∀ m, (s.returned m).length = (s.progress m).run) ∧
    (∀ m k r, (s.returned m)[k]? = some r → ∃ e : Fin n → Snapshot,
      (∀ i, (s.supplied i)[k]? = some (e i)) ∧ r.live = (e m).live ∧ r.allocated = (e m).allocated ∧
      r.memory.read ((calls k).targetRegion m) =
        (List.finRange n).flatMap (fun i => (e i).memory.read ((calls k).sourceRegion i)) ∧
      ∀ i, r.memory.read ((calls k).call.target m i) = (e i).memory.read ((calls k).sourceRegion i)) ∧
    (∀ m, (s.progress m).steps = 0 → Flushed s (group.toGlobalRank m)) := by
  obtain ⟨packet, posted, hinv⟩ := hs.inv
  refine ⟨hinv.consistent.errors, hinv.left, fun m k r hr => ?_, fun m hm => hinv.flushed fun i h => ?_⟩
  · obtain ⟨e, he, hlive, hblocks, hread⟩ := (hinv.complete m k r hr).entries
    simp only [AnyCall.source_eq] at hread
    refine ⟨e, he, hlive, hblocks, ?_, hread⟩
    rw [(calls k).read_targetRegion]
    exact List.flatMap_congr fun i _ => hread i
  · rw [hm] at h
    exact absurd h (Nat.not_lt_zero _)

/-- First an `allgather` of two bytes, then an `allgatherv`. -/
def pairCalls (k : Nat) : AnyCall 2 :=
  if k = 0 then
    .allgather {
      sourceSegment := fun _ => 0
      gSource := fun _ => 0
      targetSegment := fun _ => 0
      gTarget := fun _ => 8
      size := 2
      apart := by
        rintro m ⟨a, b⟩ ⟨-, h1, h2⟩ ⟨-, h3, h4⟩
        simp only at h1 h2 h3 h4
        omega }
  else
    .allgatherv {
      sourceSegment := fun _ => 0
      gSource := fun _ => 0
      targetSegment := fun _ => 0
      gTarget := fun _ => 8
      sizes := fun p => 3 * p
      apart := by
        rintro m ⟨a, b⟩ ⟨-, h1, h2⟩ ⟨-, h3, h4⟩
        have := m.isLt
        simp only at h1 h2 h3 h4
        omega }

theorem allgather_correct_pair : ∃ s : Exchange.State 2, (∀ m, (s.returned m).length = 2) ∧
    (s.net.errors = [] ∧
    (∀ m, (s.returned m).length = (s.progress m).run) ∧
    (∀ m (k : Nat) r, (s.returned m)[k]? = some r → ∃ e : Fin 2 → Snapshot,
      (∀ i, (s.supplied i)[k]? = some (e i)) ∧ r.live = (e m).live ∧ r.allocated = (e m).allocated ∧
      r.memory.read ((pairCalls k).targetRegion m) =
        (List.finRange 2).flatMap (fun i => (e i).memory.read ((pairCalls k).sourceRegion i)) ∧
      ∀ i, r.memory.read ((pairCalls k).call.target m i) = (e i).memory.read ((pairCalls k).sourceRegion i)) ∧
    (∀ m, (s.progress m).steps = 0 → Flushed s (pair.toGlobalRank m))) := by
  obtain ⟨s, hs, hlen⟩ := pair_returns fun k => (pairCalls k).call
  exact ⟨s, hlen, allgather_correct hs⟩

end GaspiCxx.Collectives.Allgather
