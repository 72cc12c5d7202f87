import Mathlib

/-!
# Owners of blocks

Several owners have taken blocks from one allocator, at most one each. `Owns`
says that every owner's block is allocated and that no block has two owners; it
is kept when an owner takes a block that was free and when it gives its block
back, so that what one owner does to its block no other owner sees.
-/

namespace GaspiCxx.Runs

variable {Owner Block : Type} [DecidableEq Owner] [DecidableEq Block] {allocated : Finset Block}
  {block : Owner → Option Block} {o o' : Owner} {b b' : Block}

structure Owns (allocated : Finset Block) (block : Owner → Option Block) : Prop where
  allocated : ∀ o b, block o = some b → b ∈ allocated
  apart : ∀ o o' b, block o = some b → block o' = some b → o = o'

namespace Owns

omit [DecidableEq Owner] [DecidableEq Block] in
theorem ne (h : Owns allocated block) (ho : block o = some b) (ho' : block o' = some b') (hne : o ≠ o') :
    b ≠ b' := by
  rintro rfl
  exact hne (h.apart o o' b ho ho')

theorem take (h : Owns allocated block) (o : Owner) (hfree : b ∉ allocated) :
    Owns (insert b allocated) (Function.update block o (some b)) where
  allocated p c hc := by
    by_cases hp : p = o
    · subst hp
      rw [Function.update_self] at hc
      cases hc
      exact Finset.mem_insert_self b allocated
    · rw [Function.update_of_ne hp] at hc
      exact Finset.mem_insert_of_mem (h.allocated p c hc)
  apart p p' c hc hc' := by
    by_cases hp : p = o <;> by_cases hp' : p' = o
    · rw [hp, hp']
    · subst hp
      rw [Function.update_self] at hc
      rw [Function.update_of_ne hp'] at hc'
      cases hc
      exact absurd (h.allocated p' b hc') hfree
    · subst hp'
      rw [Function.update_of_ne hp] at hc
      rw [Function.update_self] at hc'
      cases hc'
      exact absurd (h.allocated p b hc) hfree
    · rw [Function.update_of_ne hp] at hc
      rw [Function.update_of_ne hp'] at hc'
      exact h.apart p p' c hc hc'

/-- The owner need not have had a block. -/
theorem give (h : Owns allocated block) (o : Owner) :
    Owns (allocated \ (block o).toFinset) (Function.update block o none) where
  allocated p c hc := by
    by_cases hp : p = o
    · rw [hp, Function.update_self] at hc; cases hc
    · rw [Function.update_of_ne hp] at hc
      refine Finset.mem_sdiff.mpr ⟨h.allocated p c hc, fun hmem => hp ?_⟩
      exact h.apart p o c hc (Option.mem_toFinset.mp hmem)
  apart p p' c hc hc' := by
    by_cases hp : p = o
    · rw [hp, Function.update_self] at hc; cases hc
    by_cases hp' : p' = o
    · rw [hp', Function.update_self] at hc'; cases hc'
    rw [Function.update_of_ne hp] at hc
    rw [Function.update_of_ne hp'] at hc'
    exact h.apart p p' c hc hc'

end Owns

end GaspiCxx.Runs
