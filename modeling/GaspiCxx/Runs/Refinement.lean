import GaspiCxx.Runs.Trace

/-!
# Refinement between labelled systems

`abs` reads a state of a detailed system as a state of an abstract one, and
`obs` lists the abstract steps a detailed label stands for: none (the step is
invisible from above), one, or several. If every step is matched in this way,
so is every run, over the observed labels in order.

A component of a system is refined by forgetting the others.
-/

namespace GaspiCxx.Runs

variable {State Label State' Label' : Type}

namespace Trace

variable {step : State → Label → State → Prop} {s t u : State} {ls ks : List Label}

theorem append (h : Trace step s ls t) (hk : Trace step t ks u) : Trace step s (ls ++ ks) u := by
  induction hk with
  | refl => rwa [List.append_nil]
  | snoc _ hl ih => rw [← List.append_assoc]; exact ih.snoc hl

theorem cons {l : Label} (hl : step s l t) (h : Trace step t ls u) : Trace step s (l :: ls) u :=
  (single hl).append h

/-- Steps that are also steps of another system. -/
theorem mono {step' : State → Label → State → Prop} (h : Trace step s ls t)
    (hstep : ∀ s l t, step s l t → step' s l t) : Trace step' s ls t := by
  induction h with
  | refl => exact .refl _
  | snoc _ hl ih => exact ih.snoc (hstep _ _ _ hl)

end Trace

/-- Every step of `step` is, seen through `abs`, the steps `obs` of `step'`. -/
def Refines (step : State → Label → State → Prop) (step' : State' → Label' → State' → Prop)
    (abs : State → State') (obs : Label → List Label') : Prop :=
  ∀ s l t, step s l t → Trace step' (abs s) (obs l) (abs t)

section

variable {step : State → Label → State → Prop} {step' : State' → Label' → State' → Prop}
  {abs : State → State'} {obs : Label → List Label'} {s t : State} {ls : List Label}

theorem Refines.trace (h : Refines step step' abs obs) (ht : Trace step s ls t) :
    Trace step' (abs s) (ls.flatMap obs) (abs t) := by
  induction ht with
  | refl => exact .refl _
  | snoc _ hl ih =>
    rw [List.flatMap_append, List.flatMap_singleton]
    exact ih.append (h _ _ _ hl)

end

end GaspiCxx.Runs
