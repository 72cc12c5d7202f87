import Mathlib

/-!
# Counts, offsets and output size of an allgatherv (`AllgathervCommon`)

`offsets` is computed by `std::partial_sum` and `number_elements` by
`std::accumulate` with an `int` accumulator. The blocks
`[offsets q, offsets q + counts q)` tile the output (`exists_block`,
`block_unique`).

The two sums agree as long as the `int` comes back to the total when it is
converted (`totals_agree_iff`).
-/

namespace GaspiCxx.Collectives.AllgathervCommon

/-- `std::partial_sum`, continued from `acc`. -/
def partialSum (acc : Nat) : List Nat → List Nat
  | [] => []
  | c :: cs => (acc + c) :: partialSum (acc + c) cs

/-- The member `offsets`: zeros, overwritten from index 1 on. -/
def offsetsOf (counts : List Nat) : List Nat :=
  if counts.length > 1 then 0 :: partialSum 0 counts.dropLast
  else List.replicate counts.length 0

/-- The member `number_elements`: an `int` sum, converted to `size_t`. -/
def numberElementsOf (counts : List Nat) : Nat :=
  (counts.foldl (fun (acc : Int) (c : Nat) => (acc + c).bmod (2 ^ 32)) 0 % 2 ^ 64).toNat

variable {n : Nat} (counts : Fin n → Nat)

def offsets (q : Fin n) : Nat := (offsetsOf (List.ofFn counts)).getD q 0

def number_elements : Nat := numberElementsOf (List.ofFn counts)

/-- The sum of the counts of the ranks before `i`. -/
def before (i : Nat) : Nat := ((List.ofFn counts).take i).sum

theorem partialSum_getElem? (cs : List Nat) (acc i : Nat) (h : i < cs.length) :
    (partialSum acc cs)[i]? = some (acc + (cs.take (i + 1)).sum) := by
  induction cs generalizing acc i with
  | nil => simp at h
  | cons c cs ih =>
    cases i with
    | zero => simp [partialSum]
    | succ i => simp [partialSum, ih (acc + c) i (by simpa using h), Nat.add_assoc]

theorem offsetsOf_getElem? (cs : List Nat) (i : Nat) (h : i < cs.length) :
    (offsetsOf cs)[i]? = some (cs.take i).sum := by
  unfold offsetsOf
  split
  · cases i with
    | zero => simp
    | succ i =>
      rw [List.getElem?_cons_succ, partialSum_getElem? _ _ _ (by simp; omega), Nat.zero_add,
        List.dropLast_eq_take, List.take_take, Nat.min_eq_left (by omega)]
  · obtain rfl : i = 0 := by omega
    simp [h]

theorem offsets_eq (q : Fin n) : offsets counts q = before counts q := by
  have h := offsetsOf_getElem? (List.ofFn counts) q (by simp)
  rw [offsets, List.getD_eq_getElem?_getD, h]
  rfl

theorem before_zero : before counts 0 = 0 := by simp [before]

theorem before_succ (q : Fin n) : before counts (q + 1) = before counts q + counts q := by
  rw [before, List.take_add_one, List.sum_append, before]
  simp

theorem before_mono {i j : Nat} (h : i ≤ j) : before counts i ≤ before counts j := by
  obtain ⟨k, rfl⟩ := Nat.exists_eq_add_of_le h
  rw [before, before, List.take_add, List.sum_append]
  omega

/-- Every output index below `before i` lies in the block of a rank below `i`. -/
theorem exists_block_below {i j : Nat} (hi : i ≤ n) (hj : j < before counts i) :
    ∃ q : Fin n, offsets counts q ≤ j ∧ j < offsets counts q + counts q := by
  induction i with
  | zero => rw [before_zero] at hj; omega
  | succ i ih =>
    by_cases hlt : j < before counts i
    · exact ih (by omega) hlt
    · refine ⟨⟨i, by omega⟩, ?_⟩
      have := before_succ counts ⟨i, by omega⟩
      rw [offsets_eq]
      simp only at this ⊢
      omega

theorem exists_block {j : Nat} (hj : j < before counts n) :
    ∃ q : Fin n, offsets counts q ≤ j ∧ j < offsets counts q + counts q :=
  exists_block_below counts (Nat.le_refl n) hj

theorem block_unique {j : Nat} {p q : Fin n} (hp : offsets counts p ≤ j ∧ j < offsets counts p + counts p)
    (hq : offsets counts q ≤ j ∧ j < offsets counts q + counts q) : p = q := by
  rw [offsets_eq, ← before_succ] at hp hq
  apply Fin.ext
  by_contra hne
  rcases Nat.lt_or_gt_of_ne hne with h | h
  · have := before_mono counts (show p.val + 1 ≤ q.val from h)
    omega
  · have := before_mono counts (show q.val + 1 ≤ p.val from h)
    omega

theorem block_end_le (q : Fin n) : offsets counts q + counts q ≤ before counts n := by
  rw [offsets_eq, ← before_succ]
  exact before_mono counts q.isLt

/-! ## The total and the offsets -/

/-- `std::partial_sum` in `size_t`. -/
def partialSum64 (acc : Nat) : List Nat → List Nat
  | [] => []
  | c :: cs => ((acc + c) % 2 ^ 64) :: partialSum64 ((acc + c) % 2 ^ 64) cs

/-- `offsets` as it is stored. -/
def offsets64 (q : Fin n) : Nat :=
  let cs := List.ofFn counts
  (if cs.length > 1 then 0 :: partialSum64 0 cs.dropLast else List.replicate cs.length 0).getD q 0

def getOutputCount : Nat := number_elements counts

/-- An output of `getOutputCount` elements is tiled by the blocks. -/
structure TotalsAgree : Prop where
  total : getOutputCount counts = before counts n
  offset : ∀ q, offsets64 counts q = before counts q
  inside : ∀ q, offsets64 counts q + counts q ≤ getOutputCount counts
  tiled : ∀ j < getOutputCount counts, ∃! q, offsets64 counts q ≤ j ∧ j < offsets64 counts q + counts q

theorem partialSum64_eq (cs : List Nat) (acc : Nat) (h : acc + cs.sum < 2 ^ 64) :
    partialSum64 acc cs = partialSum acc cs := by
  induction cs generalizing acc with
  | nil => rfl
  | cons c cs ih =>
    rw [List.sum_cons] at h
    have hc : (acc + c) % 2 ^ 64 = acc + c := Nat.mod_eq_of_lt (by omega)
    rw [partialSum64, partialSum, hc, ih (acc + c) (by omega)]

/-- A total that fits `size_t` leaves no offset cut off. -/
theorem offsets64_eq (h : before counts n < 2 ^ 64) (q : Fin n) : offsets64 counts q = offsets counts q := by
  have hle : (List.ofFn counts).dropLast.sum ≤ before counts n := by
    have hlen : (List.ofFn counts).dropLast = (List.ofFn counts).take (n - 1) := by
      rw [List.dropLast_eq_take, List.length_ofFn]
    rw [hlen]
    exact before_mono counts (Nat.sub_le n 1)
  have hfit : 0 + (List.ofFn counts).dropLast.sum < 2 ^ 64 := by omega
  simp only [offsets64, offsets, offsetsOf, partialSum64_eq _ 0 hfit]

/-- The `int` accumulator is the sum modulo `2^32`. -/
theorem foldl_bmod (cs : List Nat) (acc : Int) :
    cs.foldl (fun (acc : Int) (c : Nat) => (acc + c).bmod (2 ^ 32)) (acc.bmod (2 ^ 32)) =
      (acc + (cs.sum : Nat)).bmod (2 ^ 32) := by
  induction cs generalizing acc with
  | nil => simp
  | cons c cs ih =>
    rw [List.foldl_cons, Int.bmod_add_bmod, ih, List.sum_cons, Int.natCast_add, Int.add_assoc]

theorem number_elements_eq :
    number_elements counts = (((before counts n : Nat) : Int).bmod (2 ^ 32) % 2 ^ 64).toNat := by
  have hsum : before counts n = (List.ofFn counts).sum := by
    rw [before, List.take_of_length_le (by simp)]
  have h := foldl_bmod (List.ofFn counts) 0
  rw [Int.zero_add] at h
  rw [number_elements, numberElementsOf, hsum, ← h]
  rfl

/-- Converted back to `size_t`, the low half of the `int` range is the start of
the range of `size_t` and the negative half its end. -/
theorem number_elements_eq_iff (h : before counts n < 2 ^ 64) :
    number_elements counts = before counts n ↔ before counts n < 2 ^ 31 ∨ 2 ^ 64 - 2 ^ 31 ≤ before counts n := by
  rw [number_elements_eq, Int.bmod]
  generalize before counts n = total at h
  split <;> omega

/-- **The output that callers allocate is the one that the blocks tile** exactly
for totals below `2^31` and for the last `2^31` totals below `2^64`. -/
theorem totals_agree_iff (h : before counts n < 2 ^ 64) :
    TotalsAgree counts ↔ before counts n < 2 ^ 31 ∨ 2 ^ 64 - 2 ^ 31 ≤ before counts n := by
  rw [← number_elements_eq_iff counts h]
  constructor
  · intro ht
    exact ht.total
  · intro ht
    have hoff : offsets64 counts = offsets counts := funext (offsets64_eq counts h)
    have hcount : getOutputCount counts = before counts n := ht
    refine ⟨ht, fun q => ?_, fun q => ?_, fun j hj => ?_⟩
    · rw [hoff, offsets_eq]
    · rw [hoff, hcount]
      exact block_end_le counts q
    · rw [hcount] at hj
      obtain ⟨q, hq⟩ := exists_block counts hj
      rw [hoff]
      exact ⟨q, hq, fun p hp => block_unique counts hp hq⟩

theorem totals_agree_iff_two :
    before (fun _ : Fin 2 => 3) 2 < 2 ^ 64 ∧
      (TotalsAgree (fun _ : Fin 2 => 3) ↔
        before (fun _ : Fin 2 => 3) 2 < 2 ^ 31 ∨ 2 ^ 64 - 2 ^ 31 ≤ before (fun _ : Fin 2 => 3) 2) :=
  ⟨by decide, totals_agree_iff _ (by decide)⟩

/-- Two ranks with `2^30` elements each: the total becomes `-2^31`, and that `2^64 - 2^31`. -/
theorem totals_overflow :
    before (fun _ : Fin 2 => 2 ^ 30) 2 < 2 ^ 64 ∧
      getOutputCount (fun _ : Fin 2 => 2 ^ 30) = 2 ^ 64 - 2 ^ 31 ∧ ¬ TotalsAgree (fun _ : Fin 2 => 2 ^ 30) := by
  have hcount : getOutputCount (fun _ : Fin 2 => 2 ^ 30) = 2 ^ 64 - 2 ^ 31 := by decide
  refine ⟨by decide, hcount, fun h => ?_⟩
  have ht := h.total
  rw [hcount] at ht
  exact absurd ht (by decide)

end GaspiCxx.Collectives.AllgathervCommon
