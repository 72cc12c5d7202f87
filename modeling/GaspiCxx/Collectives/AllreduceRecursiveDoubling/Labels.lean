import GaspiCxx.Collectives.AllreduceRecursiveDoubling.Model
import GaspiCxx.Reduction.Butterfly

/-!
# The relabelling of the ranks

The active ranks carry the labels below `2 ^ number_iterations`, each exactly
one of them. In iteration `i` the partner is the rank whose label differs in
bit `i`; the odd ranks that are not active share the label of their partner.
-/

namespace GaspiCxx.Collectives.AllreduceRecursiveDoubling

open Reduction

variable {n : Nat} {r q : Fin n}

/-! ## Powers of two -/

theorem number_ranks_used_eq (n : Nat) : number_ranks_used n = 2 ^ number_iterations n := by
  simp [number_iterations, number_ranks_used, nearest_power_of_two_less_equal]

theorem rest_bounds (hn : 1 ≤ n) :
    number_ranks_rest n + 2 ^ number_iterations n = n ∧ number_ranks_rest n < 2 ^ number_iterations n := by
  have hL : number_iterations n = Nat.log2 n := by
    simp [number_iterations, number_ranks_used, nearest_power_of_two_less_equal]
  have hle := Nat.log2_self_le (n := n) (by omega)
  have hlt := Nat.lt_log2_self (n := n)
  have hrest : number_ranks_rest n = n - 2 ^ number_iterations n := by
    rw [number_ranks_rest, number_ranks_used_eq]
  rw [Nat.pow_succ] at hlt
  rw [hrest, hL]
  omega

theorem iterations_pos (hn : 2 ≤ n) : 1 ≤ number_iterations n := by
  by_contra h0
  have := rest_bounds (n := n) (by omega)
  rw [show number_iterations n = 0 by omega] at this
  omega

/-! ## Labels -/

theorem not_active_iff : ¬ is_active_rank r ↔ is_odd_non_extra_rank r := by
  simp only [is_active_rank, is_even_non_extra_rank, is_odd_non_extra_rank]
  omega

theorem not_odd_of_active (h : is_active_rank r) : ¬ is_odd_non_extra_rank r :=
  fun ho => not_active_iff.mpr ho h

theorem relabeled_rank_lt (r : Fin n) : relabeled_rank r < 2 ^ number_iterations n := by
  have := r.isLt
  have := rest_bounds (n := n) (by omega)
  unfold relabeled_rank
  split <;> omega

theorem original_relabeled (hr : is_active_rank r) : original_rank n (relabeled_rank r) = r := by
  simp only [is_active_rank, is_even_non_extra_rank] at hr
  unfold original_rank relabeled_rank
  split <;> split <;> omega

theorem original_rank_lt {a : Nat} (hn : 1 ≤ n) (ha : a < 2 ^ number_iterations n) : original_rank n a < n := by
  have := rest_bounds hn
  unfold original_rank
  split <;> omega

theorem toRank_val {d : Fin n} {a : Nat} (h : a < n) : (toRank d a).val = a := by
  rw [toRank, dif_pos h]

theorem active_of_val {a : Nat} (h : r.val = original_rank n a) : is_active_rank r := by
  simp only [is_active_rank, is_even_non_extra_rank, is_extra_rank, is_non_extra_rank, h]
  unfold original_rank
  split <;> omega

theorem relabeled_of_val {a : Nat} (h : r.val = original_rank n a) : relabeled_rank r = a := by
  unfold original_rank at h
  unfold relabeled_rank
  split at h <;> split <;> omega

/-! ## Partners -/

theorem neighbor_val {i : Nat} (hi : i < number_iterations n) (r : Fin n) :
    (neighbor r i).val = original_rank n (relabeled_rank r ^^^ 2 ^ i) :=
  toRank_val (original_rank_lt (by have := r.isLt; omega)
    (Nat.xor_lt_two_pow (relabeled_rank_lt r) (Nat.pow_lt_pow_right (by omega) hi)))

theorem active_neighbor {i : Nat} (hi : i < number_iterations n) (r : Fin n) : is_active_rank (neighbor r i) :=
  active_of_val (neighbor_val hi r)

theorem relabeled_neighbor {i : Nat} (hi : i < number_iterations n) (r : Fin n) :
    relabeled_rank (neighbor r i) = relabeled_rank r ^^^ 2 ^ i :=
  relabeled_of_val (neighbor_val hi r)

theorem relabeled_inj (hr : is_active_rank r) (hq : is_active_rank q)
    (h : relabeled_rank r = relabeled_rank q) : r = q :=
  Fin.ext (by rw [← original_relabeled hr, h, original_relabeled hq])

theorem neighbor_neighbor {i : Nat} (hi : i < number_iterations n) (hr : is_active_rank r) :
    neighbor (neighbor r i) i = r := by
  apply relabeled_inj (active_neighbor hi _) hr
  rw [relabeled_neighbor hi, relabeled_neighbor hi, Nat.xor_assoc, Nat.xor_self, Nat.xor_zero]

theorem neighbor_ne {i : Nat} (hi : i < number_iterations n) : neighbor r i ≠ r := by
  intro h
  have h1 := relabeled_neighbor hi r
  rw [h] at h1
  have h2 := congrArg (relabeled_rank r ^^^ ·) h1
  simp only [Nat.xor_self, ← Nat.xor_assoc, Nat.zero_xor] at h2
  exact absurd h2 (Nat.ne_of_lt (Nat.two_pow_pos i))

theorem doubling (n : Nat) : Doubling (neighbor (n := n)) relabeled_rank is_active_rank (number_iterations n) where
  stays _ hi := active_neighbor hi _
  flips _ hi := relabeled_neighbor hi _
  inj := relabeled_inj

theorem neighbor_non_power_two_val (hr : is_non_extra_rank r) :
    (neighbor_non_power_two r).val = if r.val % 2 = 0 then r.val + 1 else r.val - 1 := by
  have hlt := r.isLt
  have := rest_bounds (n := n) (by omega)
  have hx : r.val ^^^ 1 = if r.val % 2 = 0 then r.val + 1 else r.val - 1 := by
    split
    · next h => exact Nat.xor_one_of_even (Nat.even_iff.mpr h)
    · next h => exact Nat.xor_one_of_odd (Nat.odd_iff.mpr (by omega))
  simp only [is_non_extra_rank, is_extra_rank] at hr
  rw [neighbor_non_power_two, toRank_val (by rw [hx]; split <;> omega), hx]

theorem non_extra_neighbor (hr : is_non_extra_rank r) : is_non_extra_rank (neighbor_non_power_two r) := by
  have hv := neighbor_non_power_two_val hr
  simp only [is_non_extra_rank, is_extra_rank] at hr ⊢
  split at hv <;> omega

theorem odd_neighbor (hr : is_even_non_extra_rank r) : is_odd_non_extra_rank (neighbor_non_power_two r) := by
  have hv := neighbor_non_power_two_val hr.2
  rw [if_pos hr.1] at hv
  exact ⟨by omega, non_extra_neighbor hr.2⟩

theorem even_neighbor (hr : is_odd_non_extra_rank r) : is_even_non_extra_rank (neighbor_non_power_two r) := by
  have hv := neighbor_non_power_two_val hr.2
  rw [if_neg (by omega)] at hv
  exact ⟨by omega, non_extra_neighbor hr.2⟩

theorem neighbor_neighbor_non_power_two (hr : is_non_extra_rank r) :
    neighbor_non_power_two (neighbor_non_power_two r) = r := by
  have h1 := neighbor_non_power_two_val hr
  have h2 := neighbor_non_power_two_val (non_extra_neighbor hr)
  apply Fin.ext
  split at h1 <;> split at h2 <;> omega

theorem neighbor_non_power_two_ne (hr : is_non_extra_rank r) : neighbor_non_power_two r ≠ r := by
  intro h
  have hv := neighbor_non_power_two_val hr
  rw [h] at hv
  split at hv <;> omega

end GaspiCxx.Collectives.AllreduceRecursiveDoubling
