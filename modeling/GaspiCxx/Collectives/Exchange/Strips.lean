import GaspiCxx.Collectives.AllgathervCommon
import GaspiCxx.Collectives.Exchange.Regions

/-!
# Regions cut into consecutive parts

`alltoallv` and `allgatherv` advance an offset by the size of each part; `alltoall`
and `allgather` multiply the index with the one size there is. Either way the parts
tile the region, and reading the region is reading the parts one after the other.
-/

namespace GaspiCxx.Collectives.Exchange

open AllgathervCommon

variable {n : Nat}

theorem before_const (size : Nat) {i : Nat} (hi : i ≤ n) : before (fun _ : Fin n => size) i = i * size := by
  induction i with
  | zero => rw [before_zero, Nat.zero_mul]
  | succ i ih =>
    have := before_succ (fun _ : Fin n => size) ⟨i, hi⟩
    simp only at this
    rw [this, ih (by omega), Nat.succ_mul]

theorem Memory.read_append (M : Memory) (segmentId offset a b : Nat) :
    M.read ⟨segmentId, offset, a + b⟩ = M.read ⟨segmentId, offset, a⟩ ++ M.read ⟨segmentId, offset + a, b⟩ := by
  unfold Memory.read
  rw [List.range_add, List.map_append, List.map_map]
  congr 1
  refine List.map_congr_left fun j _ => ?_
  simp only [Function.comp_apply, Nat.add_assoc]

/-- Parts of the given sizes, one after the other. -/
structure Strip (n : Nat) where
  segmentId : Nat
  offset : Nat
  sizes : Fin n → Nat

namespace Strip

variable (t : Strip n)

def part (i : Fin n) : Part := ⟨t.segmentId, t.offset + before t.sizes i, t.sizes i⟩

def region : Part := ⟨t.segmentId, t.offset, before t.sizes n⟩

theorem part_within (i : Fin n) : (t.part i).Within t.region := by
  have h1 := before_succ t.sizes i
  have h2 := before_mono t.sizes (show i.val + 1 ≤ n from i.isLt)
  refine ⟨rfl, ?_, ?_⟩
  · simp only [part, region]; omega
  · simp only [part, region]; omega

theorem part_apart {i j : Fin n} (h : i ≠ j) : (t.part i).Apart (t.part j) := by
  have key : ∀ i j : Fin n, i < j → (t.part i).Apart (t.part j) := by
    intro i j hlt
    have h1 := before_succ t.sizes i
    have h2 := before_mono t.sizes (show i.val + 1 ≤ j.val from hlt)
    apply Part.apart_of_le
    simp only [part]
    omega
  rcases Nat.lt_or_gt_of_ne (fun he => h (Fin.ext he)) with hlt | hlt
  · exact key i j hlt
  · exact (key j i hlt).symm

theorem read_before (M : Memory) {k : Nat} (hk : k ≤ n) :
    M.read ⟨t.segmentId, t.offset, before t.sizes k⟩ =
      ((List.finRange n).take k).flatMap fun i => M.read (t.part i) := by
  induction k with
  | zero => rw [before_zero, List.take_zero]; rfl
  | succ k ih =>
    have hsucc := before_succ t.sizes ⟨k, hk⟩
    simp only at hsucc
    rw [hsucc, Memory.read_append, ih (by omega), List.take_add_one, List.flatMap_append]
    have hget : (List.finRange n)[k]? = some ⟨k, hk⟩ := by
      rw [List.getElem?_eq_getElem (by rw [List.length_finRange]; exact hk), List.getElem_finRange]
      rfl
    rw [hget]
    simp [part]

/-- The region holds its parts, one after the other. -/
theorem read_region (M : Memory) : M.read t.region = (List.finRange n).flatMap fun i => M.read (t.part i) := by
  unfold region
  rw [t.read_before M (Nat.le_refl n), List.take_of_length_le (by simp)]

end Strip

/-- The segments the members pass, and `pointerToOffset` of their pointers. -/
structure Pointers (n : Nat) where
  sourceSegment : Fin n → Nat
  gSource : Fin n → Nat
  targetSegment : Fin n → Nat
  gTarget : Fin n → Nat

end GaspiCxx.Collectives.Exchange
