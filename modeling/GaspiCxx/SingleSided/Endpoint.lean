import GaspiCxx.OneSided.Fabric

/-!
# Source and target buffers

The operations of connected endpoints (`SourceBuffer`, `TargetBuffer`,
`Buffer::checkForNotification`). An endpoint is a port; the description it got
from its partner when they connected is `peer`. `initTransfer` writes the
buffer to the partner and sets the partner's slot (for a buffer of size zero
the communication context only notifies: `carries` is false), `ackTransfer`
only notifies.
-/

namespace GaspiCxx.SingleSided

open OneSided

variable {Port Loc Val : Type} [DecidableEq Port]

def initTransfer (W : Wiring Port Loc) (F : Fabric Port Loc Val) (p : Port) : Fabric Port Loc Val :=
  F.post (W.peer p)

def ackTransfer (W : Wiring Port Loc) (F : Fabric Port Loc Val) (p : Port) : Fabric Port Loc Val :=
  F.post (W.peer p)

/-- `gaspi_notify_waitsome(GASPI_TEST)` and, on success, `gaspi_notify_reset`. -/
def checkForNotification (F : Fabric Port Loc Val) (p : Port) : Bool × Fabric Port Loc Val :=
  if F.slot p then (true, F.reset p) else (false, F)

def checkForCompletion (F : Fabric Port Loc Val) (p : Port) : Bool × Fabric Port Loc Val :=
  checkForNotification F p

def checkForTransferAck (F : Fabric Port Loc Val) (p : Port) : Bool × Fabric Port Loc Val :=
  checkForNotification F p

/-- `gaspi_notify_waitsome(GASPI_BLOCK)` and `gaspi_notify_reset`: no step until
the slot is set. -/
def waitForNotification (F : Fabric Port Loc Val) (p : Port) : Option (Fabric Port Loc Val) :=
  if F.slot p then some (F.reset p) else none

def waitForCompletion (F : Fabric Port Loc Val) (p : Port) : Option (Fabric Port Loc Val) :=
  waitForNotification F p

def waitForTransferAck (F : Fabric Port Loc Val) (p : Port) : Option (Fabric Port Loc Val) :=
  waitForNotification F p

section

variable {W : Wiring Port Loc} {F : Fabric Port Loc Val} {p : Port}

@[simp] theorem initTransfer_mem : (initTransfer W F p).mem = F.mem := rfl

@[simp] theorem ackTransfer_mem : (ackTransfer W F p).mem = F.mem := rfl

@[simp] theorem checkForCompletion_mem : (checkForCompletion F p).2.mem = F.mem := by
  simp only [checkForCompletion, checkForNotification]; split <;> rfl

@[simp] theorem checkForTransferAck_mem : (checkForTransferAck F p).2.mem = F.mem :=
  checkForCompletion_mem

theorem checkForCompletion_set (h : F.slot p = true) : checkForCompletion F p = (true, F.reset p) := by
  simp [checkForCompletion, checkForNotification, h]

theorem checkForCompletion_clear (h : F.slot p = false) : checkForCompletion F p = (false, F) := by
  simp [checkForCompletion, checkForNotification, h]

theorem checkForTransferAck_set (h : F.slot p = true) : checkForTransferAck F p = (true, F.reset p) := by
  simp [checkForTransferAck, checkForNotification, h]

theorem checkForTransferAck_clear (h : F.slot p = false) : checkForTransferAck F p = (false, F) := by
  simp [checkForTransferAck, checkForNotification, h]

theorem waitForCompletion_some {F' : Fabric Port Loc Val} (h : waitForCompletion F p = some F') :
    F.slot p = true ∧ F' = F.reset p := by
  simp only [waitForCompletion, waitForNotification] at h
  split at h
  · exact ⟨‹_›, (Option.some.inj h).symm⟩
  · cases h

theorem waitForTransferAck_some {F' : Fabric Port Loc Val} (h : waitForTransferAck F p = some F') :
    F.slot p = true ∧ F' = F.reset p :=
  waitForCompletion_some h

end

end GaspiCxx.SingleSided
