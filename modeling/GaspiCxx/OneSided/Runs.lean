import Mathlib

/-!
# Runs of a system under an arbitrary interleaving

A system is a partial step function on states and actions. `Reaches step guard`
is reachability by steps that all meet `guard` (`fun _ _ => True` for every
interleaving); `exec` runs a given list of actions.
-/

namespace GaspiCxx.OneSided

variable {State Act : Type} {step : State → Act → Option State} {guard guard' : State → Act → Prop}
  {s t : State}

def Reaches (step : State → Act → Option State) (guard : State → Act → Prop) : State → State → Prop :=
  Relation.ReflTransGen fun s t => ∃ a, guard s a ∧ step s a = some t

theorem Reaches.mono (h : Reaches step guard s t) (hg : ∀ s a, guard s a → guard' s a) :
    Reaches step guard' s t := by
  induction h with
  | refl => exact .refl
  | tail _ hab ih =>
    obtain ⟨a, ha, hs⟩ := hab
    exact ih.tail ⟨a, hg _ a ha, hs⟩

/-- What holds at the start and is kept by every guarded step holds at the end. -/
theorem Reaches.invariant {P : State → Prop} (h : Reaches step guard s t) (hs : P s)
    (hstep : ∀ s a t, P s → guard s a → step s a = some t → P t) : P t := by
  induction h with
  | refl => exact hs
  | tail _ hab ih =>
    obtain ⟨a, hg, ha⟩ := hab
    exact hstep _ a _ ih hg ha

theorem Reaches.next {a : Act} {u : State} (h : Reaches step guard s t) (hg : guard t a)
    (ha : step t a = some u) : Reaches step guard s u := h.tail ⟨a, hg, ha⟩

/-- If from every state short of the goal some run leads to a state of a smaller
measure, some run leads to the goal. -/
theorem exists_reaching {R : State → State → Prop} {P goal : State → Prop} (measure : State → Nat)
    (closer : ∀ s, P s → ¬ goal s → ∃ u, Relation.ReflTransGen R s u ∧ P u ∧ measure u < measure s)
    (hs : P s) : ∃ t, Relation.ReflTransGen R s t ∧ P t ∧ goal t := by
  induction hn : measure s using Nat.strong_induction_on generalizing s with
  | _ n ih =>
    by_cases hgoal : goal s
    · exact ⟨s, .refl, hs, hgoal⟩
    · obtain ⟨u, hsu, hu, hlt⟩ := closer s hs hgoal
      obtain ⟨t, hut, ht, hgoal⟩ := ih _ (hn ▸ hlt) hu rfl
      exact ⟨t, hsu.trans hut, ht, hgoal⟩

/-- The system with a counter of the steps that are `event`s. -/
def counting (step : State → Act → Option State) (event : State → State → Bool) :
    State × Nat → Act → Option (State × Nat) :=
  fun x a => (step x.1 a).map fun t => (t, x.2 + if event x.1 t then 1 else 0)

/-- `ReachesCounting step guard event s k t`: a run from `s` to `t` in which `k`
steps are `event`s. -/
def ReachesCounting (step : State → Act → Option State) (guard : State → Act → Prop)
    (event : State → State → Bool) (s : State) (k : Nat) (t : State) : Prop :=
  Reaches (counting step event) (fun x a => guard x.1 a) (s, 0) (t, k)

/-- What holds of the state and the count at the start and is kept by every
guarded step holds at the end. -/
theorem ReachesCounting.invariant {event : State → State → Bool} {k : Nat} {P : State → Nat → Prop}
    (h : ReachesCounting step guard event s k t) (hs : P s 0)
    (hstep : ∀ s a t k, P s k → guard s a → step s a = some t →
      P t (k + if event s t then 1 else 0)) : P t k := by
  refine Reaches.invariant (P := fun x => P x.1 x.2) h hs ?_
  rintro ⟨s, k⟩ a ⟨t, k'⟩ hs hg ha
  obtain ⟨u, hu, he⟩ := Option.map_eq_some_iff.mp ha
  cases he
  exact hstep s a _ k hs hg hu

theorem ReachesCounting.reaches {event : State → State → Bool} {k : Nat}
    (h : ReachesCounting step guard event s k t) : Reaches step guard s t := by
  refine ReachesCounting.invariant (P := fun t _ => Reaches step guard s t) h Relation.ReflTransGen.refl ?_
  intro t a u k ht hg ha
  exact ht.next hg ha

/-- The system with a counter for each of a family of events. -/
def countingEach {ι : Type} (step : State → Act → Option State) (event : ι → State → State → Bool) :
    State × (ι → Nat) → Act → Option (State × (ι → Nat)) :=
  fun x a => (step x.1 a).map fun t => (t, fun i => x.2 i + if event i x.1 t then 1 else 0)

/-- `ReachesCountingEach step guard event s k t`: a run from `s` to `t` in which
`k i` steps are `event i`s. -/
def ReachesCountingEach {ι : Type} (step : State → Act → Option State) (guard : State → Act → Prop)
    (event : ι → State → State → Bool) (s : State) (k : ι → Nat) (t : State) : Prop :=
  Reaches (countingEach step event) (fun x a => guard x.1 a) (s, fun _ => 0) (t, k)

section

variable {ι : Type} {event : ι → State → State → Bool} {k : ι → Nat}

theorem ReachesCountingEach.invariant {P : State → (ι → Nat) → Prop}
    (h : ReachesCountingEach step guard event s k t) (hs : P s fun _ => 0)
    (hstep : ∀ s a t k, P s k → guard s a → step s a = some t →
      P t fun i => k i + if event i s t then 1 else 0) : P t k := by
  refine Reaches.invariant (P := fun x => P x.1 x.2) h hs ?_
  rintro ⟨s, k⟩ a ⟨t, k'⟩ hs hg ha
  obtain ⟨u, hu, he⟩ := Option.map_eq_some_iff.mp ha
  cases he
  exact hstep s a _ k hs hg hu

theorem ReachesCountingEach.reaches (h : ReachesCountingEach step guard event s k t) : Reaches step guard s t := by
  refine ReachesCountingEach.invariant (P := fun t _ => Reaches step guard s t) h Relation.ReflTransGen.refl ?_
  intro t a u k ht hg ha
  exact ht.next hg ha

end

/-- Run the actions `as`, each of which must meet the guard. -/
def exec (step : State → Act → Option State) (guard : State → Act → Prop)
    [∀ s a, Decidable (guard s a)] : State → List Act → Option State
  | s, [] => some s
  | s, a :: as => if guard s a then (step s a).bind fun t => exec step guard t as else none

theorem Reaches.of_exec [∀ s a, Decidable (guard s a)] {as : List Act}
    (h : exec step guard s as = some t) : Reaches step guard s t := by
  induction as generalizing s with
  | nil => cases h; exact .refl
  | cons a as ih =>
    simp only [exec] at h
    split at h
    · next hg =>
      obtain ⟨u, hu, h⟩ := Option.bind_eq_some_iff.mp h
      exact .head ⟨a, hg, hu⟩ (ih h)
    · cases h

/-- A run of actions that ends in a state with property `P`. -/
theorem exists_reaches_of_exec [∀ s a, Decidable (guard s a)] {P : State → Prop} [DecidablePred P]
    (as : List Act) (h : (exec step guard s as).any (fun t => decide (P t)) = true) :
    ∃ t, Reaches step guard s t ∧ P t := by
  cases he : exec step guard s as with
  | none => rw [he] at h; cases h
  | some t =>
    rw [he] at h
    exact ⟨t, Reaches.of_exec he, of_decide_eq_true h⟩

end GaspiCxx.OneSided
