import GaspiCxx.Group.Rank
import GaspiCxx.OneSided.Runs
import GaspiCxx.SingleSided.Endpoint

/-!
# The dissemination barrier (`blocking::Barrier`)

In step `i` a rank signals the rank `2^i` to its right and waits for the signal
of the rank `2^i` to its left, which it acknowledges. The buffers have size
zero: nothing but notifications is sent. A rank inside `execute()` stands
before one of the four operations of some iteration; the blocking operations
make no step until their slot is set.
-/

namespace GaspiCxx.Collectives.Barrier

open OneSided SingleSided

inductive Port (n : Nat) where
  | source (r : Fin n) (i : Nat)
  | target (r : Fin n) (i : Nat)
  deriving DecidableEq, Repr

variable {n : Nat}

/-- `std::ceil(std::log2(group.size()))`. -/
def number_steps (n : Nat) : Nat := Nat.clog 2 n

/-- The rank `source_buffers[i]` is connected to. -/
def target (r : Fin n) (i : Nat) : Fin n :=
  ⟨Rank.add r (2 ^ i) % n, Nat.mod_lt _ r.pos⟩

/-- The rank `target_buffers[i]` is connected to. -/
def source (r : Fin n) (i : Nat) : Fin n :=
  ⟨Rank.sub (Rank.add r n) (2 ^ i) % n, Nat.mod_lt _ r.pos⟩

/-- Buffers of size zero: there is no memory to speak of. -/
def wiring (n : Nat) : Wiring (Port n) Unit where
  peer
    | .source r i => .target (target r i) i
    | .target r i => .source (source r i) i
  loc _ := ()
  carries _ := false

abbrev Net (n : Nat) := Fabric (Port n) Unit Unit

/-- The statements of the loop body. -/
inductive Op where
  | initTransfer | waitForCompletion | ackTransfer | waitForTransferAck
  deriving DecidableEq, Repr

structure Thread where
  /-- The calls of `execute()` that have returned. -/
  returned : Nat
  /-- Inside `execute()`: the iteration and the statement to come. -/
  inside : Option (Nat × Op)
  deriving DecidableEq, Repr

structure Sys (n : Nat) where
  thread : Fin n → Thread
  fabric : Net n

/-- The next statement of rank `r`'s call; the loop condition is checked before
the first statement of an iteration. -/
def execute (r : Fin n) (t : Thread) (F : Net n) : Option (Thread × Net n) :=
  match t.inside with
  | none => none
  | some (i, .initTransfer) =>
    if i < number_steps n then
      some ({ t with inside := some (i, .waitForCompletion) }, initTransfer (wiring n) F (.source r i))
    else some ({ returned := t.returned + 1, inside := none }, F)
  | some (i, .waitForCompletion) =>
    (waitForCompletion F (.target r i)).map fun F => ({ t with inside := some (i, .ackTransfer) }, F)
  | some (i, .ackTransfer) =>
    some ({ t with inside := some (i, .waitForTransferAck) }, ackTransfer (wiring n) F (.target r i))
  | some (i, .waitForTransferAck) =>
    (waitForTransferAck F (.source r i)).map fun F => ({ t with inside := some (i + 1, .initTransfer) }, F)

inductive Action (n : Nat) where
  /-- Rank `r` calls `execute()`. -/
  | enter (r : Fin n)
  | execute (r : Fin n)
  | advance (p : Port n) (i : Nat)
  deriving DecidableEq, Repr

def step (s : Sys n) : Action n → Option (Sys n)
  | .enter r =>
    if (s.thread r).inside = none then
      let t := { s.thread r with inside := some (0, .initTransfer) }
      some { s with thread := Function.update s.thread r t }
    else none
  | .execute r => (execute r (s.thread r) s.fabric).map fun (t, F) =>
      { thread := Function.update s.thread r t, fabric := F }
  | .advance p i => (s.fabric.advance (wiring n) p i).map fun F => { s with fabric := F }

/-- The barrier is constructed and connected on every rank. -/
def initial (n : Nat) : Sys n where
  thread _ := { returned := 0, inside := none }
  fabric := Fabric.quiet fun _ => ()

/-- The states reachable under any interleaving. -/
abbrev Reach : Sys n → Prop := Reaches step (fun _ _ => True) (initial n)

end GaspiCxx.Collectives.Barrier
