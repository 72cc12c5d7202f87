import Mathlib

/-!
# Two parties meet at a flag

A rendezvous of two threads made of one flag and one condition variable, under
one mutex: the party that finds the flag clear sets it and waits, the party that
finds it set clears it, signals and goes on. The flag is all they share, so the
next rendezvous may begin before the waiting party has run again.

`Balanced` counts what each party has entered. As long as a wait ends only by a
signal, a party that does not wait has not entered more often than the other.
-/

namespace GaspiCxx.Runs

/-- Two parties, each with its counterpart. -/
structure Pair (P : Type) where
  other : P → P
  other_ne : ∀ p, other p ≠ p
  eq_or_other : ∀ p q, q = p ∨ q = other p

theorem Pair.other_other {P : Type} (B : Pair P) (p : P) : B.other (B.other p) = p :=
  ((B.eq_or_other (B.other p) p).resolve_left (B.other_ne p).symm).symm

/-- Outside of the wait, in it, or woken and not yet on its way. -/
inductive Place where
  | out
  | waiting
  | signalled
  deriving DecidableEq, Repr

/-- A signal wakes who waits and is lost on anyone else. -/
def Place.signal : Place → Place
  | .waiting => .signalled
  | place => place

theorem Place.signal_ne_waiting (place : Place) : place.signal ≠ .waiting := by
  cases place <;> decide

structure Rendezvous (P : Type) where
  flag : Bool
  place : P → Place

namespace Rendezvous

variable {P : Type} [DecidableEq P] {B : Pair P} {R : Rendezvous P} {entered : P → Nat} {p : P}

def enter (B : Pair P) (R : Rendezvous P) (p : P) : Rendezvous P :=
  if !R.flag then ⟨true, Function.update R.place p .waiting⟩
  else ⟨false, Function.update R.place (B.other p) (R.place (B.other p)).signal⟩

/-- The wait returns, signalled or not. -/
def leave (R : Rendezvous P) (p : P) : Rendezvous P := ⟨R.flag, Function.update R.place p .out⟩

theorem enter_clear (h : R.flag = false) : R.enter B p = ⟨true, Function.update R.place p .waiting⟩ := by
  unfold enter
  rw [h]; rfl

theorem enter_set (h : R.flag = true) :
    R.enter B p = ⟨false, Function.update R.place (B.other p) (R.place (B.other p)).signal⟩ := by
  unfold enter
  rw [h]; rfl

/-- `entered` says how often each party came: one that waits is one ahead. -/
structure Balanced (B : Pair P) (entered : P → Nat) (R : Rendezvous P) : Prop where
  waiting : ∀ p, R.place p = .waiting → R.flag = true ∧ entered p = entered (B.other p) + 1
  through : ∀ p, R.place p ≠ .waiting → entered p ≤ entered (B.other p)
  flagged : R.flag = true → ∃ p, R.place p = .waiting

omit [DecidableEq P] in
/-- Nobody has come, nobody waits. -/
theorem Balanced.initial (h : ∀ p, R.place p = .out) (hflag : R.flag = false) (hzero : ∀ p, entered p = 0) :
    R.Balanced B entered := by
  refine ⟨fun p hp => ?_, fun p _ => ?_, fun hf => ?_⟩
  · rw [h p] at hp; cases hp
  · rw [hzero p]; exact Nat.zero_le _
  · rw [hflag] at hf; cases hf

theorem Balanced.enter (h : R.Balanced B entered) (hout : R.place p = .out) :
    (R.enter B p).Balanced B (Function.update entered p (entered p + 1)) := by
  have hself : Function.update entered p (entered p + 1) p = entered p + 1 := Function.update_self ..
  have hother : Function.update entered p (entered p + 1) (B.other p) = entered (B.other p) :=
    Function.update_of_ne (B.other_ne p) ..
  cases hflag : R.flag with
  | true =>
    -- the other one waits and is woken
    obtain ⟨q, hq⟩ := h.flagged hflag
    have hwaits : R.place (B.other p) = .waiting := by
      obtain rfl | rfl := B.eq_or_other p q
      · rw [hout] at hq; cases hq
      · exact hq
    have hahead : entered (B.other p) = entered p + 1 := by
      rw [(h.waiting _ hwaits).2, B.other_other]
    rw [enter_set hflag]
    have hnone : ∀ q, Function.update R.place (B.other p) (R.place (B.other p)).signal q ≠ .waiting := by
      intro q
      obtain rfl | rfl := B.eq_or_other p q
      · rw [Function.update_of_ne (B.other_ne _).symm, hout]; decide
      · rw [Function.update_self]; exact Place.signal_ne_waiting _
    have hsame : Function.update entered p (entered p + 1) p =
        Function.update entered p (entered p + 1) (B.other p) := by
      rw [hself, hother, hahead]
    refine ⟨fun q hq => absurd hq (hnone q), fun q _ => ?_, fun hf => by cases hf⟩
    obtain rfl | rfl := B.eq_or_other p q
    · exact Nat.le_of_eq hsame
    · rw [B.other_other]; exact Nat.le_of_eq hsame.symm
  | false =>
    -- nobody waited: both came equally often
    have hnone : ∀ q, R.place q ≠ .waiting := by
      intro q hq
      rw [(h.waiting q hq).1] at hflag; cases hflag
    have hle : entered p ≤ entered (B.other p) := h.through p (hnone p)
    have hge : entered (B.other p) ≤ entered p := by
      have := h.through (B.other p) (hnone _)
      rwa [B.other_other] at this
    rw [enter_clear hflag]
    refine ⟨fun q hq => ⟨rfl, ?_⟩, fun q hq => ?_, fun _ => ⟨p, Function.update_self ..⟩⟩
    · obtain rfl | rfl := B.eq_or_other p q
      · rw [hself, hother, Nat.le_antisymm hle hge]
      · dsimp only at hq
        rw [Function.update_of_ne (B.other_ne _)] at hq
        exact absurd hq (hnone _)
    · obtain rfl | rfl := B.eq_or_other p q
      · exact absurd (Function.update_self ..) hq
      · rw [B.other_other, hself, hother]
        exact Nat.le_succ_of_le hge

/-- A signalled party goes on; nothing else changes. -/
theorem Balanced.leave (h : R.Balanced B entered) (hs : R.place p = .signalled) :
    (R.leave p).Balanced B entered := by
  have hkept : ∀ q, Function.update R.place p .out q = .waiting ↔ R.place q = .waiting := by
    intro q
    by_cases hq : q = p
    · subst hq
      rw [Function.update_self, hs]
      decide
    · rw [Function.update_of_ne hq]
  refine ⟨fun q hq => h.waiting q ((hkept q).mp hq), fun q hq => h.through q fun hw => hq ((hkept q).mpr hw), ?_⟩
  intro hf
  obtain ⟨q, hq⟩ := h.flagged hf
  exact ⟨q, (hkept q).mpr hq⟩

end Rendezvous

end GaspiCxx.Runs
