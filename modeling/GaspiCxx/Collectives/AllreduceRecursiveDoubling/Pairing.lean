import GaspiCxx.Collectives.AllreduceRecursiveDoubling.Schedule
import GaspiCxx.SingleSided.Connect.Model

/-!
# Who is connected with whom

The constructor's calls of `connectToRemoteTarget` and `connectToRemoteSource`:
one of each for every iteration on an active rank, and one of each with the tag
`number_iterations` on a rank that is not extra. Every call finds its
counterpart at the rank it names, and only one.
-/

namespace GaspiCxx.Collectives.AllreduceRecursiveDoubling

open SingleSided.Connect

variable {n : Nat}

/-- A call of `connectToRemoteTarget` (of a source buffer) or of
`connectToRemoteSource` (of a target buffer). -/
structure ConnectCall (n : Nat) where
  neighbor : Fin n
  type : EndpointType
  tag : Nat
  deriving DecidableEq

/-- `connectToRemoteTarget` and `connectToRemoteSource` with the same neighbour and tag. -/
def connectBoth (neighbor : Fin n) (tag : Nat) : List (ConnectCall n) :=
  [⟨neighbor, .SOURCE, tag⟩, ⟨neighbor, .TARGET, tag⟩]

/-- The calls of rank `r`'s constructor, in order. -/
def handles (number_elements : Nat) (r : Fin n) : List (ConnectCall n) :=
  if number_elements > 0 ∧ n > 1 then
    (if is_active_rank r then
      (List.range (number_iterations n)).flatMap fun iteration => connectBoth (neighbor r iteration) iteration
    else []) ++
    (if is_non_extra_rank r then connectBoth (neighbor_non_power_two r) (number_iterations n) else [])
  else []

/-- The call at the other end. -/
def ConnectCall.counterpart (r : Fin n) (c : ConnectCall n) : ConnectCall n := ⟨r, c.type.dual, c.tag⟩

/-- The endpoint of rank `r` that a call connects. -/
def ConnectCall.port (r : Fin n) (c : ConnectCall n) : Port n :=
  match c.type with
  | .SOURCE => if c.tag < number_iterations n then .source r c.tag else .source_non_power_two r
  | _ => if c.tag < number_iterations n then .target r c.tag else .target_non_power_two r

/-- `group::Rank(..)` of an iteration's neighbour: an `unsigned short`. -/
def neighbor16 (r : Fin n) (iteration : Nat) : Nat :=
  original_rank n (relabeled_rank r ^^^ 2 ^ iteration) % 2 ^ 16

def neighbor_non_power_two16 (r : Fin n) : Nat := (r.val ^^^ 1) % 2 ^ 16

/-! ## Labels -/

theorem number_ranks_used_isGreatest (hn : 1 ≤ n) :
    IsGreatest {p | (∃ k, p = 2 ^ k) ∧ p ≤ n} (number_ranks_used n) := by
  have hb := rest_bounds hn
  rw [number_ranks_used_eq]
  refine ⟨⟨⟨_, rfl⟩, by omega⟩, ?_⟩
  rintro p ⟨⟨k, rfl⟩, hk⟩
  have hlt : 2 ^ k < 2 ^ (number_iterations n + 1) := by rw [Nat.pow_succ]; omega
  exact Nat.pow_le_pow_right (by omega) (Nat.lt_succ_iff.mp ((Nat.pow_lt_pow_iff_right (by omega)).mp hlt))

/-- Every label is that of an active rank. -/
theorem exists_label (hn : 1 ≤ n) {a : Nat} (ha : a < number_ranks_used n) :
    ∃ r : Fin n, is_active_rank r ∧ r.val = original_rank n a ∧ relabeled_rank r = a := by
  rw [number_ranks_used_eq] at ha
  have hlt := original_rank_lt hn ha
  exact ⟨⟨_, hlt⟩, active_of_val rfl, rfl, relabeled_of_val rfl⟩

theorem relabeled_bijOn (hn : 1 ≤ n) :
    Set.BijOn relabeled_rank {r : Fin n | is_active_rank r} (Set.Iio (number_ranks_used n)) := by
  refine ⟨fun r _ => ?_, fun r hr q hq h => relabeled_inj hr hq h, fun a ha => ?_⟩
  · rw [Set.mem_Iio, number_ranks_used_eq]
    exact relabeled_rank_lt r
  · obtain ⟨r, hr, -, hra⟩ := exists_label hn ha
    exact ⟨r, hr, hra⟩

theorem neighbor_distinct {r : Fin n} {i j : Nat} (hi : i < number_iterations n) (hj : j < number_iterations n)
    (hij : i ≠ j) : neighbor r i ≠ neighbor r j := by
  intro h
  have hlabels : relabeled_rank r ^^^ 2 ^ i = relabeled_rank r ^^^ 2 ^ j := by
    rw [← relabeled_neighbor hi, h, relabeled_neighbor hj]
  have hpow : 2 ^ i = 2 ^ j := Nat.xor_right_injective hlabels
  exact hij (Nat.pow_right_injective (Nat.le_refl 2) hpow)

/-- An even rank that is not extra and the odd rank behind it. -/
theorem neighbor_non_power_two_bijOn :
    Set.BijOn neighbor_non_power_two {r : Fin n | is_even_non_extra_rank r} {r : Fin n | is_odd_non_extra_rank r} := by
  refine ⟨fun r hr => odd_neighbor hr, fun r hr q hq h => neighbor_non_power_two_inj hr.2 hq.2 h, fun q hq => ?_⟩
  exact ⟨_, even_neighbor hq, neighbor_neighbor_non_power_two hq.2⟩

theorem neighbor_non_power_two_xor {r : Fin n} (hr : is_non_extra_rank r) :
    (neighbor_non_power_two r).val = r.val ^^^ 1 := by
  rw [neighbor_non_power_two_val hr]
  split
  · next h => exact (Nat.xor_one_of_even (Nat.even_iff.mpr h)).symm
  · next h => exact (Nat.xor_one_of_odd (Nat.odd_iff.mpr (by omega))).symm

/-! ## The calls -/

theorem mem_connectBoth {q : Fin n} {tag : Nat} {c : ConnectCall n} :
    c ∈ connectBoth q tag ↔ (c.type = .SOURCE ∨ c.type = .TARGET) ∧ c.tag = tag ∧ c.neighbor = q := by
  obtain ⟨q', type, tag'⟩ := c
  simp only [connectBoth, List.mem_cons, ConnectCall.mk.injEq, List.not_mem_nil, or_false]
  grind

theorem nodup_connectBoth (q : Fin n) (tag : Nat) : (connectBoth q tag).Nodup := by
  simp [connectBoth]

variable {number_elements : Nat} {r : Fin n} {c : ConnectCall n}

theorem mem_handles :
    c ∈ handles number_elements r ↔ (number_elements > 0 ∧ n > 1) ∧ (c.type = .SOURCE ∨ c.type = .TARGET) ∧
      (is_active_rank r ∧ c.tag < number_iterations n ∧ c.neighbor = neighbor r c.tag ∨
        is_non_extra_rank r ∧ c.tag = number_iterations n ∧ c.neighbor = neighbor_non_power_two r) := by
  have hactive : c ∈ (if is_active_rank r then
      (List.range (number_iterations n)).flatMap fun iteration => connectBoth (neighbor r iteration) iteration
      else []) ↔ is_active_rank r ∧ (c.type = .SOURCE ∨ c.type = .TARGET) ∧ c.tag < number_iterations n ∧
        c.neighbor = neighbor r c.tag := by
    by_cases hr : is_active_rank r
    · rw [if_pos hr, List.mem_flatMap]
      constructor
      · rintro ⟨i, hi, hc⟩
        obtain ⟨htype, rfl, hq⟩ := mem_connectBoth.mp hc
        exact ⟨hr, htype, List.mem_range.mp hi, hq⟩
      · rintro ⟨-, htype, hi, hq⟩
        exact ⟨c.tag, List.mem_range.mpr hi, mem_connectBoth.mpr ⟨htype, rfl, hq⟩⟩
    · rw [if_neg hr]
      exact ⟨fun hc => absurd hc List.not_mem_nil, fun hc => absurd hc.1 hr⟩
  have hrest : c ∈ (if is_non_extra_rank r then connectBoth (neighbor_non_power_two r) (number_iterations n)
      else []) ↔ is_non_extra_rank r ∧ (c.type = .SOURCE ∨ c.type = .TARGET) ∧ c.tag = number_iterations n ∧
        c.neighbor = neighbor_non_power_two r := by
    by_cases hr : is_non_extra_rank r
    · rw [if_pos hr, mem_connectBoth]
      exact ⟨fun hc => ⟨hr, hc⟩, fun hc => hc.2⟩
    · rw [if_neg hr]
      exact ⟨fun hc => absurd hc List.not_mem_nil, fun hc => absurd hc.1 hr⟩
  unfold handles
  by_cases h : number_elements > 0 ∧ n > 1
  · rw [if_pos h, List.mem_append, hactive, hrest]
    constructor
    · rintro (⟨hr, htype, hc⟩ | ⟨hr, htype, hc⟩)
      · exact ⟨h, htype, .inl ⟨hr, hc⟩⟩
      · exact ⟨h, htype, .inr ⟨hr, hc⟩⟩
    · rintro ⟨-, htype, ⟨hr, hc⟩ | ⟨hr, hc⟩⟩
      · exact .inl ⟨hr, htype, hc⟩
      · exact .inr ⟨hr, htype, hc⟩
  · rw [if_neg h]
    exact ⟨fun hc => absurd hc List.not_mem_nil, fun hc => absurd hc.1 h⟩

theorem nodup_handles (number_elements : Nat) (r : Fin n) : (handles number_elements r).Nodup := by
  have hall : ((List.range (number_iterations n)).flatMap fun i => connectBoth (neighbor r i) i).Nodup := by
    refine List.nodup_flatMap.mpr ⟨fun i _ => nodup_connectBoth _ i, ?_⟩
    refine List.nodup_range.imp fun {i j} hij c hi hj => ?_
    exact hij ((mem_connectBoth.mp hi).2.1.symm.trans (mem_connectBoth.mp hj).2.1)
  unfold handles
  split
  · refine List.nodup_append.mpr ⟨?_, ?_, ?_⟩
    · split
      · exact hall
      · exact List.nodup_nil
    · split
      · exact nodup_connectBoth _ _
      · exact List.nodup_nil
    · -- the tags of the iterations are smaller
      rintro c hc d hd rfl
      split at hc
      · split at hd
        · obtain ⟨i, hi, hci⟩ := List.mem_flatMap.mp hc
          have h1 := (mem_connectBoth.mp hci).2.1
          have h2 := (mem_connectBoth.mp hd).2.1
          have h3 := List.mem_range.mp hi
          omega
        · cases hd
      · cases hc
  · exact List.nodup_nil

/-- The rank a call names makes the counterpart. -/
theorem counterpart_mem (hc : c ∈ handles number_elements r) :
    c.counterpart r ∈ handles number_elements c.neighbor := by
  obtain ⟨hguard, htype, hcase⟩ := mem_handles.mp hc
  have hdual : c.type.dual = .SOURCE ∨ c.type.dual = .TARGET := by
    rcases htype with h | h <;> rw [h]
    · exact .inr rfl
    · exact .inl rfl
  refine mem_handles.mpr ⟨hguard, hdual, ?_⟩
  rcases hcase with ⟨hr, hi, hq⟩ | ⟨hr, hi, hq⟩
  · left
    rw [hq]
    exact ⟨active_neighbor hi r, hi, (neighbor_neighbor hi hr).symm⟩
  · right
    rw [hq]
    exact ⟨non_extra_neighbor hr, hi, (neighbor_neighbor_non_power_two hr).symm⟩

theorem count_counterpart (hc : c ∈ handles number_elements r) :
    (handles number_elements c.neighbor).count (c.counterpart r) = 1 :=
  List.count_eq_one_of_mem (nodup_handles _ _) (counterpart_mem hc)

theorem neighbor_ne_self (hc : c ∈ handles number_elements r) : c.neighbor ≠ r := by
  obtain ⟨-, -, hcase⟩ := mem_handles.mp hc
  rcases hcase with ⟨hr, hi, hq⟩ | ⟨hr, hi, hq⟩
  · rw [hq]; exact neighbor_ne hi
  · rw [hq]; exact neighbor_non_power_two_ne hr

/-- The network connects the endpoints that the constructors connect. -/
theorem wiring_peer (hc : c ∈ handles number_elements r) :
    (wiring n).peer (c.port r) = (c.counterpart r).port c.neighbor := by
  obtain ⟨q, type, tag⟩ := c
  obtain ⟨-, htype, hcase⟩ := mem_handles.mp hc
  simp only at htype hcase
  rcases hcase with ⟨hr, hi, rfl⟩ | ⟨hr, rfl, rfl⟩
  · rcases htype with rfl | rfl
    · simp only [ConnectCall.port, ConnectCall.counterpart, EndpointType.dual, wiring, hi, if_true]
    · simp only [ConnectCall.port, ConnectCall.counterpart, EndpointType.dual, wiring, hi, if_true]
  · rcases htype with rfl | rfl
    · simp only [ConnectCall.port, ConnectCall.counterpart, EndpointType.dual, wiring, lt_irrefl, if_false]
    · simp only [ConnectCall.port, ConnectCall.counterpart, EndpointType.dual, wiring, lt_irrefl, if_false]

/-! ## Result -/

/-- The pairing of the ranks, iteration by iteration. -/
structure Paired (n number_elements : Nat) : Prop where
  largest : IsGreatest {p | (∃ k, p = 2 ^ k) ∧ p ≤ n} (number_ranks_used n)
  iterations : number_ranks_used n = 2 ^ number_iterations n
  labels : Set.BijOn relabeled_rank {r : Fin n | is_active_rank r} (Set.Iio (number_ranks_used n))
  original : ∀ r : Fin n, is_active_rank r → original_rank n (relabeled_rank r) = r
  relabeled : ∀ a < number_ranks_used n,
    ∃ r : Fin n, is_active_rank r ∧ r.val = original_rank n a ∧ relabeled_rank r = a
  in_group : ∀ k < number_iterations n, ∀ r : Fin n,
    original_rank n (relabeled_rank r ^^^ 2 ^ k) < n ∧
      (neighbor r k).val = original_rank n (relabeled_rank r ^^^ 2 ^ k)
  active : ∀ k < number_iterations n, ∀ r : Fin n, is_active_rank r →
    is_active_rank (neighbor r k) ∧ neighbor r k ≠ r ∧ neighbor (neighbor r k) k = r
  distinct : ∀ k < number_iterations n, ∀ l < number_iterations n, k ≠ l →
    ∀ r : Fin n, neighbor r k ≠ neighbor r l
  even_odd : Set.BijOn neighbor_non_power_two {r : Fin n | is_even_non_extra_rank r}
    {r : Fin n | is_odd_non_extra_rank r}
  next_rank : ∀ r : Fin n, is_non_extra_rank r → r.val ^^^ 1 < n ∧ (neighbor_non_power_two r).val = r.val ^^^ 1 ∧
    neighbor_non_power_two (neighbor_non_power_two r) = r
  /-- Every call has one counterpart at the rank it names, and the calls of a rank differ. -/
  connected : ∀ (r : Fin n), ∀ c ∈ handles number_elements r,
    c.neighbor ≠ r ∧ (handles number_elements c.neighbor).count (c.counterpart r) = 1 ∧
      (handles number_elements r).count c = 1
  wired : ∀ (r : Fin n), ∀ c ∈ handles number_elements r,
    (wiring n).peer (c.port r) = (c.counterpart r).port c.neighbor
  /-- As ranks of the type `unsigned short`, in groups that it can number. -/
  unsigned_short : n ≤ 2 ^ 16 → ∀ r : Fin n,
    (∀ k < number_iterations n, neighbor16 r k = neighbor r k) ∧
      (is_non_extra_rank r → neighbor_non_power_two16 r = neighbor_non_power_two r)

/-- **Every rank is paired with the right ranks**, for every size of the group. -/
theorem recursive_doubling_paired (hn : 2 ≤ n) (number_elements : Nat) : Paired n number_elements := by
  refine ⟨number_ranks_used_isGreatest (by omega), number_ranks_used_eq n, relabeled_bijOn (by omega),
    fun r => original_relabeled, fun a => exists_label (by omega), fun k hk r => ?_,
    fun k hk r hr => ⟨active_neighbor hk r, neighbor_ne hk, neighbor_neighbor hk hr⟩,
    fun k hk l hl hkl r => neighbor_distinct hk hl hkl, neighbor_non_power_two_bijOn, fun r hr => ?_,
    fun r c hc => ?_, fun r c hc => wiring_peer hc, fun hshort r => ⟨fun k hk => ?_, fun hr => ?_⟩⟩
  · have hv := neighbor_val hk r
    exact ⟨hv ▸ (neighbor r k).isLt, hv⟩
  · have hv := neighbor_non_power_two_xor hr
    exact ⟨hv ▸ (neighbor_non_power_two r).isLt, hv, neighbor_neighbor_non_power_two hr⟩
  · exact ⟨neighbor_ne_self hc, count_counterpart hc, List.count_eq_one_of_mem (nodup_handles _ _) hc⟩
  · rw [neighbor16, ← neighbor_val hk r]
    exact Nat.mod_eq_of_lt (by have := (neighbor r k).isLt; omega)
  · rw [neighbor_non_power_two16, ← neighbor_non_power_two_xor hr]
    exact Nat.mod_eq_of_lt (by have := (neighbor_non_power_two r).isLt; omega)

/-- Seven ranks, as in the comment of the class. -/
theorem recursive_doubling_paired_seven : 2 ≤ 7 ∧ Paired 7 1 := ⟨by decide, recursive_doubling_paired (by decide) 1⟩

end GaspiCxx.Collectives.AllreduceRecursiveDoubling
