import Mathlib

/-!
# Ranks and indices on a ring (`group/Utilities`)

`size_t` arithmetic is modelled on `Nat`. `dist j r` is the number of steps
to the right from index `j` to rank `r`; every other fact about the ring
arithmetic of the collectives is a statement about `dist`.
-/

namespace GaspiCxx.GroupUtilities

def incrementIndexOnRing (index ring_size : Nat) : Nat := (index + 1) % ring_size

/-- In `size_t`, `index - 1 + ring_size` wraps around for `index = 0`; the sum
is the same as here. -/
def decrementIndexOnRing (index ring_size : Nat) : Nat := (index + ring_size - 1) % ring_size

variable {n : Nat}

/-- `incrementRankOnRing(rank, number_ranks)`. -/
def right (r : Fin n) : Fin n :=
  ⟨incrementIndexOnRing r n, Nat.mod_lt _ (by have := r.isLt; omega)⟩

/-- `decrementRankOnRing(rank, number_ranks)`. -/
def left (r : Fin n) : Fin n :=
  ⟨decrementIndexOnRing r n, Nat.mod_lt _ (by have := r.isLt; omega)⟩

/-- `RingIndex(index, number_ranks)`; its `operator--` is `left`. -/
def ringIndex (index : Nat) (r : Fin n) : Fin n :=
  ⟨index % n, Nat.mod_lt _ (by have := r.isLt; omega)⟩

/-- Steps to the right from `j` to `r`. -/
def dist (j r : Fin n) : Nat := if j.val ≤ r.val then r - j else r + n - j

theorem right_val (r : Fin n) : (right r).val = if r.val + 1 = n then 0 else r.val + 1 := by
  have := r.isLt
  simp only [right, incrementIndexOnRing]
  split
  · next h => rw [h, Nat.mod_self]
  · exact Nat.mod_eq_of_lt (by omega)

theorem left_val (r : Fin n) : (left r).val = if r.val = 0 then n - 1 else r.val - 1 := by
  have := r.isLt
  simp only [left, decrementIndexOnRing]
  split
  · next h => rw [h, Nat.mod_eq_of_lt (by omega)]; omega
  · rw [show r.val + n - 1 = (r.val - 1) + n by omega, Nat.add_mod_right]
    exact Nat.mod_eq_of_lt (by omega)

@[simp] theorem right_left (r : Fin n) : right (left r) = r := by
  have := r.isLt
  apply Fin.ext
  rw [right_val, left_val]
  split <;> split <;> omega

@[simp] theorem left_right (r : Fin n) : left (right r) = r := by
  have := r.isLt
  apply Fin.ext
  rw [left_val, right_val]
  split <;> split <;> omega

theorem right_inj {r q : Fin n} (h : right r = right q) : r = q := by
  rw [← left_right r, h, left_right]

theorem left_inj {r q : Fin n} (h : left r = left q) : r = q := by
  rw [← right_left r, h, right_left]

theorem right_ne (hn : 2 ≤ n) (r : Fin n) : right r ≠ r := by
  intro h
  have h1 := congrArg Fin.val h
  rw [right_val] at h1
  split at h1 <;> omega

theorem dist_lt (j r : Fin n) : dist j r < n := by
  have := j.isLt; have := r.isLt
  unfold dist; split <;> omega

theorem dist_self (r : Fin n) : dist r r = 0 := by simp [dist]

theorem dist_eq_zero {j r : Fin n} (h : dist j r = 0) : j = r := by
  have := j.isLt; have := r.isLt
  unfold dist at h
  split at h <;> omega

theorem dist_right (j r : Fin n) :
    dist j (right r) = if dist j r + 1 = n then 0 else dist j r + 1 := by
  have := j.isLt; have := r.isLt
  have hr := right_val r
  unfold dist
  split at hr <;> split <;> split <;> split <;> omega

theorem dist_left (j r : Fin n) :
    dist (left j) r = if dist j r + 1 = n then 0 else dist j r + 1 := by
  have := j.isLt; have := r.isLt
  have hj := left_val j
  unfold dist
  split at hj <;> split <;> split <;> split <;> omega

/-- The index is determined by its distance to a rank. -/
theorem dist_inj {j k r : Fin n} (h : dist j r = dist k r) : j = k := by
  have := j.isLt; have := k.isLt; have := r.isLt
  unfold dist at h
  apply Fin.ext
  split at h <;> split at h <;> omega

/-- The ring position `d` steps to the right of `j`. -/
theorem ringIndex_eq {j r : Fin n} {d : Nat} (h : dist j r = d) (q : Fin n) :
    ringIndex (j + d) q = r := by
  have := j.isLt; have := r.isLt
  apply Fin.ext
  simp only [ringIndex]
  unfold dist at h
  split at h
  · rw [Nat.mod_eq_of_lt (by omega)]; omega
  · rw [show j.val + d = r.val + n by omega, Nat.add_mod_right, Nat.mod_eq_of_lt r.isLt]

theorem exists_dist (r : Fin n) {d : Nat} (hd : d < n) : ∃ j, dist j r = d := by
  induction d with
  | zero => exact ⟨r, dist_self r⟩
  | succ d ih =>
    obtain ⟨j, hj⟩ := ih (by omega)
    exact ⟨left j, by rw [dist_left, hj, if_neg (by omega)]⟩

theorem dist_to_left {j r : Fin n} {m : Nat} (h : dist j r = m + 1) : dist j (left r) = m := by
  have h1 := dist_right j (left r)
  rw [right_left, h] at h1
  split at h1 <;> omega

/-- All the way around but one step. -/
theorem dist_left_self (r : Fin n) : dist r (left r) = n - 1 := by
  have h1 := dist_right r (left r)
  rw [right_left, dist_self] at h1
  split at h1 <;> omega

theorem dist_from_right {j r : Fin n} {m : Nat} (h : dist j r = m + 1) : dist (right j) r = m := by
  have h1 := dist_left (right j) r
  rw [left_right, h] at h1
  split at h1 <;> omega

end GaspiCxx.GroupUtilities
