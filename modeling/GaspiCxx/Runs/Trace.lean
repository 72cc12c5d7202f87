import Mathlib

/-!
# Labelled runs

`Trace step s ls t`: the system goes from `s` to `t` by steps whose labels are
`ls`, in order. A property of a whole run is either an invariant of the state
(`Trace.invariant`), a relation between the state and the labels so far
(`Trace.history`), or a balance: what the labels bring in is what the state
holds (`Trace.balance`).
-/

namespace GaspiCxx.Runs

variable {State Label : Type}

inductive Trace (step : State → Label → State → Prop) : State → List Label → State → Prop where
  | refl (s : State) : Trace step s [] s
  | snoc {s t u : State} {ls : List Label} {l : Label} :
      Trace step s ls t → step t l u → Trace step s (ls ++ [l]) u

namespace Trace

variable {step : State → Label → State → Prop} {s t u : State} {ls ks : List Label} {l : Label}

theorem single (h : step s l t) : Trace step s [l] t := .snoc (.refl s) h

theorem nil_eq (h : Trace step s [] t) : t = s := by
  generalize hn : ([] : List Label) = ls at h
  cases h with
  | refl => rfl
  | snoc _ _ => simp at hn

theorem last (h : Trace step s (ls ++ [l]) u) : ∃ t, Trace step s ls t ∧ step t l u := by
  generalize hn : ls ++ [l] = ks at h
  cases h with
  | refl => simp at hn
  | snoc ht hs =>
    obtain ⟨rfl, hl⟩ := List.append_inj' hn rfl
    injection hl with hl
    subst hl
    exact ⟨_, ht, hs⟩

theorem split (h : Trace step s (ls ++ ks) u) : ∃ t, Trace step s ls t ∧ Trace step t ks u := by
  induction ks using List.reverseRecOn generalizing u with
  | nil => exact ⟨u, by simpa using h, .refl u⟩
  | append_singleton ks l ih =>
    rw [← List.append_assoc] at h
    obtain ⟨v, hv, hs⟩ := h.last
    obtain ⟨t, ht, hk⟩ := ih hv
    exact ⟨t, ht, .snoc hk hs⟩

theorem split_cons (h : Trace step s (ls ++ l :: ks) u) :
    ∃ t v, Trace step s ls t ∧ step t l v ∧ Trace step v ks u := by
  obtain ⟨t, ht, hk⟩ := h.split
  have hcons : Trace step t ([l] ++ ks) u := hk
  obtain ⟨v, hl, hk⟩ := hcons.split
  have hone : Trace step t ([] ++ [l]) v := hl
  obtain ⟨w, hw, hs⟩ := hone.last
  rw [hw.nil_eq] at hs
  exact ⟨t, v, ht, hs, hk⟩

theorem first (h : Trace step s (l :: ks) u) : ∃ v, step s l v ∧ Trace step v ks u := by
  have hcons : Trace step s ([] ++ l :: ks) u := h
  obtain ⟨t, v, ht, hl, hk⟩ := hcons.split_cons
  rw [ht.nil_eq] at hl
  exact ⟨v, hl, hk⟩

/-- What holds at the start and is kept by every step holds at the end. -/
theorem invariant {P : State → Prop} (h : Trace step s ls t) (hs : P s)
    (hstep : ∀ s l t, P s → step s l t → P t) : P t := by
  induction h with
  | refl => exact hs
  | snoc _ hl ih => exact hstep _ _ _ ih hl

/-- The same for a relation between the labels so far and the state. -/
theorem history {P : List Label → State → Prop} (h : Trace step s ls t) (hs : P [] s)
    (hstep : ∀ ls s l t, P ls s → step s l t → P (ls ++ [l]) t) : P ls t := by
  induction h with
  | refl => exact hs
  | snoc _ hl ih => exact hstep _ _ _ _ ih hl

/-- If every step adds to the state's holding exactly what its label brings in,
a run from an empty holding holds all that came in. -/
theorem balance {Item : Type} {H : State → List Item} {B : Label → List Item}
    (h : Trace step s ls t) (hs : H s = [])
    (hstep : ∀ s l t, step s l t → (H t).Perm (B l ++ H s)) : (H t).Perm (ls.flatMap B) := by
  induction h with
  | refl => simp [hs]
  | @snoc t u ls l _ hl ih =>
    have hlast : (H u).Perm (B l ++ ls.flatMap B) := (hstep t l u hl).trans (ih.append_left _)
    rw [List.flatMap_append, List.flatMap_singleton]
    exact hlast.trans List.perm_append_comm

end Trace

end GaspiCxx.Runs
