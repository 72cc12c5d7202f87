import GaspiCxx.Collectives.AllreduceRecursiveDoubling.Labels

/-!
# What the ranks compute

`value f x i r` is the vector of the active rank `r` after the initial step and
`i` iterations on the inputs `x`, and `result f x r` what rank `r` copies out.
For a commutative operation all ranks get the same result, and for a
commutative and associative one it is the fold of all inputs.
-/

namespace GaspiCxx.Collectives.AllreduceRecursiveDoubling

open Reduction

variable {n number_elements : Nat} {T : Type} (f : T → T → T)

/-- The operation, element by element. -/
def combine (v w : Vec number_elements T) : Vec number_elements T := fun e => f (v e) (w e)

instance [Std.Commutative f] : Std.Commutative (combine f : Vec number_elements T → Vec number_elements T → Vec number_elements T) :=
  ⟨fun _ _ => funext fun _ => Std.Commutative.comm _ _⟩

instance [Std.Associative f] : Std.Associative (combine f : Vec number_elements T → Vec number_elements T → Vec number_elements T) :=
  ⟨fun _ _ _ => funext fun _ => Std.Associative.assoc _ _ _⟩

variable (x : Fin n → Vec number_elements T)

/-- After the initial step. -/
def leaf (r : Fin n) : Vec number_elements T :=
  if is_even_non_extra_rank r then combine f (x r) (x (neighbor_non_power_two r)) else x r

def value (i : Nat) (r : Fin n) : Vec number_elements T := butterfly (combine f) (leaf f x) neighbor i r

def result (r : Fin n) : Vec number_elements T :=
  if is_active_rank r then value f x (number_iterations n) r
  else value f x (number_iterations n) (neighbor_non_power_two r)

variable {f x} {r q : Fin n}

theorem value_zero_even (hr : is_even_non_extra_rank r) :
    value f x 0 r = combine f (x r) (x (neighbor_non_power_two r)) := if_pos hr

theorem value_zero_extra (hr : is_extra_rank r) : value f x 0 r = x r := if_neg fun h => h.2 hr

/-- Every result is an active rank's value after the last iteration. -/
theorem exists_active (r : Fin n) : ∃ q, is_active_rank q ∧ result f x r = value f x (number_iterations n) q := by
  by_cases hr : is_active_rank r
  · exact ⟨r, hr, if_pos hr⟩
  · exact ⟨_, .inl (even_neighbor (not_active_iff.mp hr)), if_neg hr⟩

/-- **All ranks get the same result under commutativity alone.** -/
theorem result_agree [Std.Commutative f] (r q : Fin n) : result f x r = result f x q := by
  obtain ⟨r', hr, hr'⟩ := exists_active (f := f) (x := x) r
  obtain ⟨q', hq, hq'⟩ := exists_active (f := f) (x := x) q
  rw [hr', hq']
  apply butterfly_agree (doubling n) (Nat.le_refl _) hr hq
  rw [Nat.div_eq_of_lt (relabeled_rank_lt r'), Nat.div_eq_of_lt (relabeled_rank_lt q')]

/-! ## Which inputs are taken -/

variable (x) in
/-- The inputs an active rank holds after the initial step. -/
def inputs (r : Fin n) : Multiset (Vec number_elements T) :=
  if is_even_non_extra_rank r then {x r} + {x (neighbor_non_power_two r)} else {x r}

theorem isFold_leaf [Std.Commutative f] [Std.Associative f] (r : Fin n) :
    IsFold (combine f) (inputs x r) (leaf f x r) := by
  unfold inputs leaf
  split
  · exact (IsFold.singleton _).add (IsFold.singleton _)
  · exact IsFold.singleton _

/-- An even rank holds the inputs of the two ranks with its label, an extra rank its own. -/
theorem inputs_eq (hr : is_active_rank r) :
    inputs x r = (Finset.univ.val.filter fun q => relabeled_rank q = relabeled_rank r).map x := by
  have hcount : ∀ s : Finset (Fin n), (∀ q, relabeled_rank q = relabeled_rank r ↔ q ∈ s) →
      (Finset.univ.val.filter fun q => relabeled_rank q = relabeled_rank r) = s.val := by
    intro s hs
    rw [← Finset.filter_val, Finset.val_inj]
    ext q
    simp [hs q]
  by_cases heven : is_even_non_extra_rank r
  · have hval := neighbor_non_power_two_val heven.2
    rw [if_pos heven.1] at hval
    have hne := neighbor_non_power_two_ne heven.2
    rw [inputs, if_pos heven, hcount {r, neighbor_non_power_two r} fun q => ?_]
    · rw [Finset.insert_val_of_notMem (by simpa using hne.symm)]
      rfl
    · simp only [Finset.mem_insert, Finset.mem_singleton, Fin.ext_iff, hval, relabeled_rank]
      have := heven.2
      simp only [is_non_extra_rank, is_extra_rank] at this
      split <;> split <;> omega
  · have hextra : is_extra_rank r := hr.resolve_left heven
    rw [inputs, if_neg heven, hcount {r} fun q => ?_]
    · rfl
    · simp only [Finset.mem_singleton, Fin.ext_iff, relabeled_rank]
      simp only [is_extra_rank] at hextra
      split <;> split <;> omega

/-- **The result is the fold of all inputs, each taken exactly once**, whichever
of them the fold starts from. -/
theorem result_fold [Std.Commutative f] [Std.Associative f] (r q : Fin n) :
    result f x r = (Finset.univ.erase q).fold (combine f) (x q) x := by
  obtain ⟨r', hr, hr'⟩ := exists_active (f := f) (x := x) r
  have hfold := butterfly_fold neighbor (isFold_leaf (f := f) (x := x)) (number_iterations n) r'
  rw [butterfly_gather (doubling n) (Nat.le_refl _) hr fun a ha => inputs_eq ha] at hfold
  have hall : (Finset.univ.val.filter fun q : Fin n => relabeled_rank q / 2 ^ number_iterations n =
      relabeled_rank r' / 2 ^ number_iterations n) = q ::ₘ (Finset.univ.erase q).val := by
    rw [Multiset.filter_eq_self.mpr fun a _ => by
      rw [Nat.div_eq_of_lt (relabeled_rank_lt a), Nat.div_eq_of_lt (relabeled_rank_lt r')], Finset.erase_val,
      Multiset.cons_erase (Finset.mem_univ q)]
  rw [hall, Multiset.map_cons] at hfold
  exact hr'.trans hfold.eq_fold

end GaspiCxx.Collectives.AllreduceRecursiveDoubling
