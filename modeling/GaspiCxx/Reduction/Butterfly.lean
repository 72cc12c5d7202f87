import Mathlib

/-!
# Reduction by recursive doubling

A value per node is combined, step by step, with the value of a partner:
`butterfly op leaf partner i a` is node `a`'s value after `i` steps. If step
`i` pairs the labels that differ in bit `i` (`Doubling`), two nodes whose
labels agree from bit `i` on have the same value, for any commutative
operation (`butterfly_agree`), and it collects every contribution of its block
of labels exactly once (`butterfly_gather`).
-/

namespace GaspiCxx.Reduction

variable {ι α β : Type}

/-! ## Folds of nonempty multisets -/

/-- `v` combines the values in `m`, each taken once. -/
def IsFold (op : α → α → α) [Std.Commutative op] [Std.Associative op] (m : Multiset α) (v : α) : Prop :=
  ∃ b s, m = b ::ₘ s ∧ v = s.fold op b

section

variable {op : α → α → α} [Std.Commutative op] [Std.Associative op] {m m' : Multiset α} {v w : α}

theorem IsFold.singleton (v : α) : IsFold op {v} v := ⟨v, 0, rfl, by simp⟩

theorem IsFold.add (hv : IsFold op m v) (hw : IsFold op m' w) : IsFold op (m + m') (op v w) := by
  obtain ⟨b, s, rfl, rfl⟩ := hv
  obtain ⟨c, t, rfl, rfl⟩ := hw
  refine ⟨b, c ::ₘ (s + t), ?_, ?_⟩
  · rw [Multiset.cons_add, Multiset.add_cons]
  · rw [Multiset.fold_cons'_right, Multiset.fold_add]

/-- It does not matter which value the fold starts from. -/
theorem IsFold.eq_fold {b : α} {s : Multiset α} (h : IsFold op (b ::ₘ s) v) : v = s.fold op b := by
  obtain ⟨c, t, heq, rfl⟩ := h
  rcases Multiset.cons_eq_cons.mp heq with ⟨rfl, rfl⟩ | ⟨-, u, rfl, rfl⟩
  · rfl
  · rw [Multiset.fold_cons'_right, Multiset.fold_cons'_left]

end

/-! ## Combining with a partner in every step -/

/-- Node `a`'s value after `i` steps. -/
def butterfly (op : α → α → α) (leaf : ι → α) (partner : ι → Nat → ι) : Nat → ι → α
  | 0, a => leaf a
  | i + 1, a => op (butterfly op leaf partner i a) (butterfly op leaf partner i (partner a i))

/-- For `k` steps the active nodes are paired along the bits of their labels. -/
structure Doubling (partner : ι → Nat → ι) (label : ι → Nat) (active : ι → Prop) (k : Nat) : Prop where
  stays : ∀ {a i}, active a → i < k → active (partner a i)
  flips : ∀ {a i}, active a → i < k → label (partner a i) = label a ^^^ 2 ^ i
  inj : ∀ {a b}, active a → active b → label a = label b → a = b

/-- The two labels of a block that is doubled. -/
theorem div_two_eq_iff (x y : Nat) : x / 2 = y / 2 ↔ x = y ∨ x = y ^^^ 1 := by
  rcases Nat.even_or_odd y with hy | hy
  · rw [Nat.xor_one_of_even hy]
    obtain ⟨z, rfl⟩ := hy
    omega
  · rw [Nat.xor_one_of_odd hy]
    obtain ⟨z, rfl⟩ := hy
    omega

variable {op : α → α → α} {leaf : ι → α} {partner : ι → Nat → ι} {label : ι → Nat} {active : ι → Prop}
  {i k : Nat} {a b : ι}

theorem Doubling.label_div (h : Doubling partner label active k) (ha : active a) (hi : i < k) :
    label (partner a i) / 2 ^ i = label a / 2 ^ i ^^^ 1 := by
  rw [h.flips ha hi, Nat.xor_div_two_pow, Nat.div_self (Nat.two_pow_pos i)]

/-- **Nodes of one block agree, for any commutative operation.** -/
theorem butterfly_agree [Std.Commutative op] (h : Doubling partner label active k) (hi : i ≤ k)
    (ha : active a) (hb : active b) (hab : label a / 2 ^ i = label b / 2 ^ i) :
    butterfly op leaf partner i a = butterfly op leaf partner i b := by
  induction i generalizing a b with
  | zero => rw [h.inj ha hb (by simpa using hab)]
  | succ i ih =>
    have hpa := h.stays ha hi
    have hpb := h.stays hb hi
    have hla := h.label_div ha hi
    have hlb := h.label_div hb hi
    rw [Nat.pow_succ, ← Nat.div_div_eq_div_mul, ← Nat.div_div_eq_div_mul, div_two_eq_iff] at hab
    simp only [butterfly]
    rcases hab with hab | hab
    · rw [ih (by omega) ha hb hab, ih (by omega) hpa hpb (by rw [hla, hlb, hab])]
    · -- the partners have swapped operands
      rw [ih (by omega) ha hpb (by rw [hlb, hab]),
        ih (by omega) hpa hb (by rw [hla, hab, Nat.xor_assoc, Nat.xor_self, Nat.xor_zero])]
      exact Std.Commutative.comm _ _

variable (partner) in
/-- The values are folds of the contributions collected on the way. -/
theorem butterfly_fold [Std.Commutative op] [Std.Associative op] {gather : ι → Multiset α}
    (hleaf : ∀ a, IsFold op (gather a) (leaf a)) (i : Nat) (a : ι) :
    IsFold op (butterfly (· + ·) gather partner i a) (butterfly op leaf partner i a) := by
  induction i generalizing a with
  | zero => exact hleaf a
  | succ i ih => exact (ih a).add (ih (partner a i))

/-- **A block's contributions are collected exactly once.** `place q` is the
label under which contributor `q` enters. -/
theorem butterfly_gather [Fintype β] {place : β → Nat} {x : β → α} {gather : ι → Multiset α}
    (h : Doubling partner label active k) (hi : i ≤ k) (ha : active a)
    (hleaf : ∀ a, active a → gather a = (Finset.univ.val.filter fun q => place q = label a).map x) :
    butterfly (· + ·) gather partner i a =
      (Finset.univ.val.filter fun q => place q / 2 ^ i = label a / 2 ^ i).map x := by
  induction i generalizing a with
  | zero => simpa [butterfly] using hleaf a ha
  | succ i ih =>
    rw [butterfly, ih (by omega) ha, ih (by omega) (h.stays ha hi), h.label_div ha hi, ← Multiset.map_add,
      Multiset.filter_add_filter]
    have hboth : (Finset.univ.val.filter fun q : β =>
        place q / 2 ^ i = label a / 2 ^ i ∧ place q / 2 ^ i = label a / 2 ^ i ^^^ 1) = 0 := by
      refine Multiset.filter_eq_nil.mpr fun q _ ⟨h1, h2⟩ => ?_
      have := Nat.xor_mod_two_eq (m := label a / 2 ^ i) (n := 1)
      omega
    rw [hboth, add_zero]
    refine congrArg (Multiset.map x) (Multiset.filter_congr fun q _ => ?_)
    rw [Nat.pow_succ, ← Nat.div_div_eq_div_mul, ← Nat.div_div_eq_div_mul, div_two_eq_iff]

end GaspiCxx.Reduction
