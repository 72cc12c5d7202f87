import GaspiCxx.Collectives.Barrier.Correct

/-!
# The partners of large groups

In groups of more than `2^15` ranks a sum of ranks may leave the 16 bits of a
`Rank` before it is reduced to the group, and the barrier connects the wrong
ranks. It connects the right ones exactly where the sums fit.
-/

namespace GaspiCxx.Collectives.Barrier

variable {n i : Nat} {r : Fin n}

/-- The partners of step `i` are the ranks `2^i` to the right and to the left. -/
structure Exact (r : Fin n) (i : Nat) : Prop where
  target : (target r i).val = (r.val + 2 ^ i) % n
  source : ((source r i).val : Int) = ((r.val : Int) - (2 ^ i : Nat)) % n

/-- Rank `r` is its target's source and its source's target. -/
structure Matched (r : Fin n) (i : Nat) : Prop where
  source_target : source (target r i) i = r
  target_source : target (source r i) i = r

/-- The sums of step `i` fit into a `Rank`. -/
structure Fits (r : Fin n) (i : Nat) : Prop where
  target : r.val + 2 ^ i < 2 ^ 16
  source : r.val + n - 2 ^ i < 2 ^ 16

section

variable (hn : n < 2 ^ 16)
include hn

theorem target_exact_iff (hi : 2 ^ i < n) :
    (target r i).val = (r.val + 2 ^ i) % n ↔ r.val + 2 ^ i < 2 ^ 16 :=
  Rank.truncated_mod_iff hn (by have := r.isLt; omega)

theorem source_exact_iff (hi : 2 ^ i < n) :
    ((source r i).val : Int) = ((r.val : Int) - (2 ^ i : Nat)) % n ↔ r.val + n - 2 ^ i < 2 ^ 16 := by
  have hr := r.isLt
  have hsub : (source r i).val = (r.val + n - 2 ^ i) % 2 ^ 16 % n := by
    show Rank.sub (Rank.add r n) (2 ^ i) % n = _
    simp only [Rank.sub, Rank.add]
    generalize 2 ^ i = b at *
    congr 1
    omega
  rw [hsub]
  generalize 2 ^ i = b at *
  have hexact : ((r.val : Int) - b) % n = ((r.val + n - b : Nat) : Int) % n := by
    rw [show ((r.val + n - b : Nat) : Int) = (r.val - b : Int) + n by omega, Int.add_emod_right]
  rw [hexact, ← Int.natCast_mod, Int.natCast_inj]
  exact Rank.truncated_mod_iff hn (by omega)

theorem exact_iff (hi : i < number_steps n) : Exact r i ↔ Fits r i := by
  have hb := Nat.pow_lt_of_lt_clog hi
  exact ⟨fun h => ⟨(target_exact_iff hn hb).mp h.target, (source_exact_iff hn hb).mp h.source⟩,
    fun h => ⟨(target_exact_iff hn hb).mpr h.target, (source_exact_iff hn hb).mpr h.source⟩⟩

end

/-- In groups of at most `2^15` ranks the sums fit. -/
theorem fits_of_le (hn : n ≤ 2 ^ 15) (hi : i < number_steps n) : Fits r i := by
  have hb := Nat.pow_lt_of_lt_clog hi
  have hr := r.isLt
  have hpos : 0 < 2 ^ i := Nat.two_pow_pos i
  exact ⟨by omega, by omega⟩

/-- Rank `2^15` of a larger group has no target in step 15. -/
theorem not_fits (hn : 2 ^ 15 < n) : ¬ Fits (⟨2 ^ 15, hn⟩ : Fin n) 15 := by
  intro h
  have : 2 ^ 15 + 2 ^ 15 < 2 ^ 16 := h.target
  exact absurd this (by decide)

theorem barrier_partners_truncated :
    ¬ ∀ n, n < 2 ^ 16 → ∀ (r : Fin n) i, i < number_steps n → Exact r i ∧ Matched r i := by
  intro h
  have h15 : 15 < number_steps 40000 := (Nat.lt_clog_iff_pow_lt (by decide)).mpr (by decide)
  have ht := (h 40000 (by decide) ⟨32768, by decide⟩ 15 h15).1.target
  exact absurd ht (by decide)

/-- **Each rank and step gets its exact partners if and only if the sums fit**,
and all of a group do, and match, if and only if it has at most `2^15` ranks. -/
theorem barrier_partners_exact_iff (hn : n < 2 ^ 16) :
    (∀ (r : Fin n) i, i < number_steps n → (Exact r i ↔ Fits r i)) ∧
    ((∀ (r : Fin n) i, i < number_steps n → Exact r i ∧ Matched r i) ↔ n ≤ 2 ^ 15) := by
  refine ⟨fun r i hi => exact_iff hn hi, fun h => ?_, fun hle r i hi => ⟨?_, ?_, ?_⟩⟩
  · by_contra hlt
    have hlt : 2 ^ 15 < n := Nat.lt_of_not_le hlt
    have h15 : 15 < number_steps n := (Nat.lt_clog_iff_pow_lt (by decide)).mpr hlt
    exact not_fits hlt ((exact_iff hn h15).mp (h ⟨2 ^ 15, hlt⟩ 15 h15).1)
  · exact (exact_iff hn hi).mpr (fits_of_le hle hi)
  · exact source_target hle hi r
  · exact target_source hle hi r

theorem barrier_partners_exact_iff_large :
    (∀ (r : Fin 40000) i, i < number_steps 40000 → (Exact r i ↔ Fits r i)) ∧
    ((∀ (r : Fin 40000) i, i < number_steps 40000 → Exact r i ∧ Matched r i) ↔ 40000 ≤ 2 ^ 15) :=
  barrier_partners_exact_iff (by decide)

end GaspiCxx.Collectives.Barrier
