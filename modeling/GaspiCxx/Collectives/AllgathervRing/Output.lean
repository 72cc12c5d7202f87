import GaspiCxx.Collectives.AllgathervRing.Schedule

/-!
# What `copyOut` assembles

`copyOutImpl` is a sequence of `std::copy` calls, one for each rank's block
(`order`). Once every buffer holds its rank's block the copies tile the output
(`countP_copies`) and the output is `Gathered`.
-/

namespace GaspiCxx.Collectives.AllgathervRing

open OneSided SingleSided GroupUtilities AllgathervCommon

variable {n : Nat} {T : Type} (counts : Fin n → Nat)

/-- The output holds every rank's elements at its offset, and nothing else. -/
structure Gathered (inputs : Fin n → Nat → T) (out : Nat → Option T) : Prop where
  block : ∀ q i, i < counts q → out (offsets counts q + i) = some (inputs q i)
  rest : ∀ j, before counts n ≤ j → out j = none

/-- The ranks whose blocks rank `r` copies out, in this order. -/
def order (r : Fin n) : List (Fin n) := r :: (List.range (n - 1)).map (receive_index r)

/-- The copy writes output index `j`. -/
def Covers (j : Nat) (c : Nat × List T) : Prop := c.1 ≤ j ∧ j < c.1 + c.2.length

instance (j : Nat) (c : Nat × List T) : Decidable (Covers j c) := inferInstanceAs (Decidable (_ ∧ _))

theorem mem_order (q r : Fin n) : q ∈ order r := by
  by_cases h : q = r
  · exact h ▸ List.mem_cons_self
  · obtain ⟨i, hi, he⟩ := exists_receive_index h
    exact List.mem_cons_of_mem _ (List.mem_map.mpr ⟨i, List.mem_range.mpr (by omega), he⟩)

theorem nodup_order (r : Fin n) : (order r).Nodup := by
  refine List.nodup_cons.mpr ⟨fun hr => ?_, List.Nodup.map_on ?_ List.nodup_range⟩
  · obtain ⟨i, hi, he⟩ := List.mem_map.mp hr
    have := dist_receive_index r i (by have := List.mem_range.mp hi; omega)
    rw [he, dist_self] at this
    omega
  · intro i hi j hj he
    have h1 := dist_receive_index r i (by have := List.mem_range.mp hi; omega)
    have h2 := dist_receive_index r j (by have := List.mem_range.mp hj; omega)
    rw [he] at h1
    omega

/-- If all copies that write index `j` agree on it, the order does not matter. -/
theorem foldl_copyTo {j : Nat} {v : Option T} {cs : List (Nat × List T)} {out : Nat → Option T}
    (hv : ∀ c ∈ cs, Covers j c → c.2[j - c.1]? = v) (hj : (∃ c ∈ cs, Covers j c) ∨ out j = v) :
    cs.foldl (fun out c => copyTo out c.1 c.2) out j = v := by
  induction cs generalizing out with
  | nil => simpa using hj
  | cons c cs ih =>
    refine ih (fun d hd => hv d (List.mem_cons_of_mem _ hd)) ?_
    by_cases hc : Covers j c
    · exact .inr ((if_pos hc).trans (hv c List.mem_cons_self hc))
    · rcases hj with ⟨d, hd, hdj⟩ | hout
      · rcases List.mem_cons.mp hd with rfl | hd
        · exact absurd hdj hc
        · exact .inl ⟨d, hd, hdj⟩
      · exact .inr ((if_neg hc).trans hout)

section

variable {counts} {inputs : Fin n → Nat → T}

theorem covers_block {q : Fin n} {j : Nat} :
    Covers j (offsets counts q, readFrom (inputs q) (counts q)) ↔
      offsets counts q ≤ j ∧ j < offsets counts q + counts q := by
  simp [Covers]

variable {r : Fin n} {F : Net n T}
  (h : copies counts r F = (order r).map fun q => (offsets counts q, readFrom (inputs q) (counts q)))
include h

theorem gathered_of_copies (hn : n ≠ 1) (f : Fields T) :
    Gathered counts inputs (copyOutImpl counts r f F) := by
  rw [copyOutImpl, if_neg hn, h]
  constructor
  · intro q i hi
    have hq : Covers (offsets counts q + i) (offsets counts q, readFrom (inputs q) (counts q)) :=
      covers_block.mpr ⟨by omega, by omega⟩
    refine foldl_copyTo (fun c hc hcj => ?_)
      (.inl ⟨_, List.mem_map.mpr ⟨q, mem_order q r, rfl⟩, hq⟩)
    obtain ⟨p, -, rfl⟩ := List.mem_map.mp hc
    obtain rfl := block_unique counts (covers_block.mp hcj) (covers_block.mp hq)
    simp only [Nat.add_sub_cancel_left]
    exact getElem?_readFrom _ hi
  · intro j hj
    refine foldl_copyTo (fun c hc hcj => ?_) (.inr rfl)
    obtain ⟨p, -, rfl⟩ := List.mem_map.mp hc
    have := (covers_block.mp hcj).2
    have := block_end_le counts p
    omega

/-- **Every output index is written by exactly one copy.** -/
theorem countP_copies {j : Nat} (hj : j < before counts n) :
    (copies counts r F).countP (fun c => decide (Covers j c)) = 1 := by
  obtain ⟨q, hq⟩ := exists_block counts hj
  rw [h, List.countP_map, ← List.count_eq_one_of_mem (nodup_order r) (mem_order q r), List.count]
  refine List.countP_congr fun p _ => ?_
  simp only [Function.comp_apply, decide_eq_true_eq, beq_iff_eq, covers_block]
  exact ⟨fun hp => block_unique counts hp hq, fun hp => hp ▸ hq⟩

end

end GaspiCxx.Collectives.AllgathervRing
