import Mathlib

/-!
# One-sided communication: ports, memory, operations in flight

A `Port` is one end of a connection and owns a one-bit notification slot.
`Wiring` names the port at the other end (`peer`), the memory a port stands
for (`loc`; several ports may share one location) and whether an operation
addressed to a port carries data (`carries`) or is a bare notification.

An operation is `posted` from one port to its peer. The network then moves it
on by `Fabric.advance`, one phase at a time and in any order among all
operations: it reads its source, stores the data at its target, sets the
target's slot. Whatever the ranks do meanwhile to the memory it reads or
writes takes effect. A rank sees an operation only through its own slot
(`slot`, `reset`).
-/

namespace GaspiCxx.OneSided

/-- How far an operation in flight has got. -/
inductive Phase (Val : Type) where
  | posted
  | read (v : Val)
  | stored
  deriving DecidableEq, Repr

structure Wiring (Port Loc : Type) where
  /-- The other end of the connection. -/
  peer : Port → Port
  /-- The memory the port stands for. -/
  loc : Port → Loc
  /-- Operations addressed to the port carry data. -/
  carries : Port → Bool

/-- The state of the network and of the memory it reaches. -/
structure Fabric (Port Loc Val : Type) where
  mem : Loc → Val
  slot : Port → Bool
  /-- The operations in flight towards each port. -/
  flight : Port → List (Phase Val)

variable {Port Loc Val : Type} [DecidableEq Port] [DecidableEq Loc]

namespace Fabric

/-- Memory `m`, every slot clear, nothing in flight. -/
def quiet (m : Loc → Val) : Fabric Port Loc Val where
  mem := m
  slot _ := false
  flight _ := []

/-- Post an operation towards port `p`. -/
def post (F : Fabric Port Loc Val) (p : Port) : Fabric Port Loc Val :=
  { F with flight := Function.update F.flight p (F.flight p ++ [.posted]) }

/-- Clear the slot of `p`. -/
def reset (F : Fabric Port Loc Val) (p : Port) : Fabric Port Loc Val :=
  { F with slot := Function.update F.slot p false }

/-- A rank writes its own memory. -/
def write (F : Fabric Port Loc Val) (l : Loc) (v : Val) : Fabric Port Loc Val :=
  { F with mem := Function.update F.mem l v }

/-- The `i`-th operation towards `p` enters phase `ph`. -/
def setPhase (F : Fabric Port Loc Val) (p : Port) (i : Nat) (ph : Phase Val) :
    Fabric Port Loc Val :=
  { F with flight := Function.update F.flight p ((F.flight p).set i ph) }

/-- The `i`-th operation towards `p` sets the slot and is over. -/
def notify (F : Fabric Port Loc Val) (p : Port) (i : Nat) : Fabric Port Loc Val :=
  { F with
    flight := Function.update F.flight p ((F.flight p).eraseIdx i)
    slot := Function.update F.slot p true }

/-- The network moves the `i`-th operation towards `p` on by one phase. -/
def advance (W : Wiring Port Loc) (F : Fabric Port Loc Val) (p : Port) (i : Nat) :
    Option (Fabric Port Loc Val) :=
  match (F.flight p)[i]? with
  | none => none
  | some .posted =>
    if W.carries p then some (F.setPhase p i (.read (F.mem (W.loc (W.peer p)))))
    else some (F.notify p i)
  | some (.read v) => some ((F.write (W.loc p) v).setPhase p i .stored)
  | some .stored => some (F.notify p i)

/-- No operation is in flight. -/
def Delivered (F : Fabric Port Loc Val) : Prop := ∀ p, F.flight p = []

/-- An already set slot is about to be set again. -/
def Overrun (F : Fabric Port Loc Val) (p : Port) : Prop := F.slot p = true ∧ F.flight p ≠ []

end Fabric

section Ports

variable {Port Loc Val : Type} [DecidableEq Port] (F : Fabric Port Loc Val) (p q : Port)

namespace Fabric

@[simp] theorem post_mem : (F.post p).mem = F.mem := rfl
@[simp] theorem post_slot : (F.post p).slot = F.slot := rfl
@[simp] theorem reset_mem : (F.reset p).mem = F.mem := rfl
@[simp] theorem reset_flight : (F.reset p).flight = F.flight := rfl

theorem post_flight : (F.post p).flight q = if q = p then F.flight p ++ [.posted] else F.flight q := by
  simp only [post, Function.update_apply]

theorem reset_slot : (F.reset p).slot q = if q = p then false else F.slot q := by
  simp only [reset, Function.update_apply]

/-- Clearing a clear slot changes nothing. -/
theorem reset_of_clear {F : Fabric Port Loc Val} {p : Port} (h : F.slot p = false) :
    F.reset p = F := by
  have : Function.update F.slot p false = F.slot := by rw [← h, Function.update_eq_self]
  simp only [reset, this]

end Fabric

end Ports

section Memory

variable {Port Loc Val : Type} [DecidableEq Loc] (F : Fabric Port Loc Val) (l : Loc) (v : Val)

namespace Fabric

@[simp] theorem write_slot : (F.write l v).slot = F.slot := rfl
@[simp] theorem write_flight : (F.write l v).flight = F.flight := rfl

theorem write_mem (l' : Loc) : (F.write l v).mem l' = if l' = l then v else F.mem l' := by
  simp only [write, Function.update_apply]

end Fabric

end Memory

namespace Fabric

variable {Port Loc Val : Type} [DecidableEq Port] [DecidableEq Loc]

/-- What one network step can be. -/
theorem advance_cases {W : Wiring Port Loc} {F F' : Fabric Port Loc Val} {p : Port} {i : Nat}
    (h : F.advance W p i = some F') :
    ((F.flight p)[i]? = some .posted ∧ W.carries p = true ∧
      F' = F.setPhase p i (.read (F.mem (W.loc (W.peer p))))) ∨
    ((F.flight p)[i]? = some .posted ∧ W.carries p = false ∧ F' = F.notify p i) ∨
    (∃ v, (F.flight p)[i]? = some (.read v) ∧
      F' = (F.write (W.loc p) v).setPhase p i .stored) ∨
    ((F.flight p)[i]? = some .stored ∧ F' = F.notify p i) := by
  unfold advance at h
  split at h
  · cases h
  · next hp =>
    split at h
    · next hc => exact .inl ⟨hp, hc, (Option.some.inj h).symm⟩
    · next hc => exact .inr (.inl ⟨hp, by simpa using hc, (Option.some.inj h).symm⟩)
  · next v hp => exact .inr (.inr (.inl ⟨v, hp, (Option.some.inj h).symm⟩))
  · next hp => exact .inr (.inr (.inr ⟨hp, (Option.some.inj h).symm⟩))

/-- The network puts nothing in flight. -/
theorem flight_of_advance {W : Wiring Port Loc} {F F' : Fabric Port Loc Val} {p q : Port} {i : Nat}
    (h : F.advance W p i = some F') (hq : F'.flight q ≠ []) : F.flight q ≠ [] := by
  intro he
  by_cases hqp : q = p
  · subst hqp
    rcases advance_cases h with ⟨hi, -, -⟩ | ⟨hi, -, -⟩ | ⟨v, hi, -⟩ | ⟨hi, -⟩ <;> rw [he] at hi <;> cases hi
  · rcases advance_cases h with ⟨-, -, rfl⟩ | ⟨-, -, rfl⟩ | ⟨v, -, rfl⟩ | ⟨-, rfl⟩ <;>
      exact hq (by simpa [setPhase, notify, write, hqp] using he)

/-- As long as an operation is in flight, the network can move it. -/
theorem advance_of_flight (W : Wiring Port Loc) {F : Fabric Port Loc Val} {p : Port}
    (h : F.flight p ≠ []) : ∃ F', F.advance W p 0 = some F' := by
  obtain ⟨ph, rest, hp⟩ := List.exists_cons_of_ne_nil h
  have h0 : (F.flight p)[0]? = some ph := by rw [hp]; rfl
  unfold advance
  rw [h0]
  cases ph with
  | posted => by_cases hc : W.carries p <;> simp [hc]
  | read v => exact ⟨_, rfl⟩
  | stored => exact ⟨_, rfl⟩

end Fabric

end GaspiCxx.OneSided
