import GaspiCxx.Collectives.LowLevel
import GaspiCxx.OneSided.Schedule

/-!
# Collectives as straight-line programs

How far each rank of a group has got, when `steps` counts the positions a rank
has passed in its current run, and how a call moves it on.
-/

namespace GaspiCxx.Collectives

open OneSided

variable {Rank Port Loc Val Fields Out : Type}

/-- The ranks' progress, where `steps` reads a rank's position off its object. -/
def progressOf (steps : Rank → Node Fields Out → Nat) (s : Sys Rank Port Loc Val Fields Out)
    (r : Rank) : Progress where
  run := (s.node r).run
  steps := steps r (s.node r)

variable {steps : Rank → Node Fields Out → Nat} {s : Sys Rank Port Loc Val Fields Out} {r : Rank}
  {N : Node Fields Out} {F : Fabric Port Loc Val}

@[simp] theorem progressOf_run : (progressOf steps s r).run = (s.node r).run := rfl

@[simp] theorem progressOf_steps : (progressOf steps s r).steps = steps r (s.node r) := rfl

variable (steps) in
/-- If some rank has not completed run `k`, then so has not a rank that is behind
all others: a finished rank has passed all of its positions. -/
theorem exists_behind_in_run [Finite Rank] {k top : Nat} (hk : ∀ q, k ≤ (s.node q).run)
    (hfin : ∀ r, (s.node r).state = .finished → steps r (s.node r) = top)
    (htop : ∀ r, (s.node r).state ≠ .finished → steps r (s.node r) < top)
    (hu : ∃ r, (s.node r).run = k ∧ (s.node r).state ≠ .finished) :
    ∃ r, (s.node r).run = k ∧ (s.node r).state ≠ .finished ∧
      ∀ q, (progressOf steps s r).Behind (progressOf steps s q) := by
  obtain ⟨u, hu, hus⟩ := hu
  have : Nonempty Rank := ⟨u⟩
  obtain ⟨r, hr⟩ := Progress.exists_behind (progressOf steps s)
  have hb := hr u
  have hkr := hk r
  have htu := htop u hus
  simp only [Progress.Behind, progressOf_run, progressOf_steps] at hb
  refine ⟨r, by omega, fun hs => ?_, hr⟩
  have := hfin r hs
  omega

variable (steps) in
/-- If all ranks have started run `k` and some has not completed it, a rank that
is behind all others is running. -/
theorem exists_behind_running [Finite Rank] {k top : Nat} (hstart : ∀ r, Started k (s.node r))
    (hno : ∃ r, ¬ Completed k (s.node r))
    (hfin : ∀ r, (s.node r).state = .finished → steps r (s.node r) = top)
    (htop : ∀ r, (s.node r).state ≠ .finished → steps r (s.node r) < top) :
    ∃ r, (s.node r).state = .running ∧ ∀ q, (progressOf steps s r).Behind (progressOf steps s q) := by
  obtain ⟨u, hu⟩ := hno
  obtain ⟨r, hk, hne, hr⟩ := exists_behind_in_run steps (s := s) (k := k)
    (fun q => by rcases hstart q with h | ⟨h, -⟩ <;> omega) hfin htop
    ⟨u, by simp only [Completed] at hu; rcases hstart u with h1 | ⟨h1, h2⟩ <;> simp_all⟩
  refine ⟨r, ?_, hr⟩
  rcases hstart r with h | ⟨-, h | h⟩
  · omega
  · exact h
  · exact absurd h hne

variable [DecidableEq Rank]

theorem progressOf_of_ne {q : Rank} (h : q ≠ r) :
    progressOf steps (Collective.setNode s r N F) q = progressOf steps s q := by
  simp [progressOf, h]

theorem progressOf_self :
    progressOf steps (Collective.setNode s r N F) r = ⟨N.run, steps r N⟩ := by
  simp [progressOf]

theorem progressOf_same (hrun : N.run = (s.node r).run) (hsteps : steps r N = steps r (s.node r)) :
    progressOf steps (Collective.setNode s r N F) = progressOf steps s := by
  funext q
  by_cases hq : q = r
  · subst hq; rw [progressOf_self, hrun, hsteps]; rfl
  · exact progressOf_of_ne hq

/-- A call takes rank `r` from position `x` to position `y`. -/
theorem moves {x y : Nat} (hrun : N.run = (s.node r).run) (hx : steps r (s.node r) = x)
    (hy : steps r N = y) (hle : x ≤ y) :
    Schedule.Moves (progressOf steps s) (progressOf steps (Collective.setNode s r N F)) r x y where
  other _ h := progressOf_of_ne h
  run := by rw [progressOf_self]; exact hrun
  before := hx
  after := by rw [progressOf_self]; exact hy
  le := hle

/-- A call completes rank `r`'s run. -/
theorem wraps {x : Nat} (hrun : N.run = (s.node r).run + 1) (hx : steps r (s.node r) = x)
    (hy : steps r N = 0) :
    Schedule.Wraps (progressOf steps s) (progressOf steps (Collective.setNode s r N F)) r x where
  other _ h := progressOf_of_ne h
  run := by rw [progressOf_self]; exact hrun
  before := hx
  after := by rw [progressOf_self]; exact hy

end GaspiCxx.Collectives
