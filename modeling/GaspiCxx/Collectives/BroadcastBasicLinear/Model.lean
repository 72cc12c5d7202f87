import GaspiCxx.Collectives.LowLevel
import GaspiCxx.Group.Utilities
import GaspiCxx.SingleSided.Endpoint

/-!
# The linear broadcast (`BroadcastLowLevel<T, BASIC_LINEAR>`)

The ranks form a chain from `first` (the root) to the right. Every rank counts
its calls in `iteration`; the rank `iteration` steps after `first` waits for
the data and forwards it, `last` acknowledges it to `second_last` instead. A
rank in the middle forwards from the memory it receives into, so a rank has one
buffer. After `number_ranks` iterations `second_last` waits for the
acknowledgement and everybody else is done.

A group has at most `2^16` ranks: `Rank(iteration)` loses nothing while it is
compared.
-/

namespace GaspiCxx.Collectives.BroadcastBasicLinear

open OneSided SingleSided GroupUtilities

inductive Port (n : Nat) where
  | source (r : Fin n)
  | target (r : Fin n)
  deriving DecidableEq, Repr

structure Fields where
  iteration : Nat
  deriving DecidableEq, Repr

variable {n : Nat} {T : Type} (number_elements : Nat) (root : Fin n)

def rank_after_first (r : Fin n) : Nat := (n + r - root) % n

def second_last : Nat := (n + root - 2) % n

def last : Nat := (n + root - 1) % n

def left_neighbour (r : Fin n) : Fin n :=
  ⟨(n + r - 1) % n, Nat.mod_lt _ r.pos⟩

def right_neighbour (r : Fin n) : Fin n :=
  ⟨(n + r + 1) % n, Nat.mod_lt _ r.pos⟩

/-- A port's memory is its rank's one buffer. -/
def wiring (n : Nat) : Wiring (Port n) (Fin n) where
  peer
    | .source r => .target (right_neighbour r)
    | .target r => .source (left_neighbour r)
  loc
    | .source r => r
    | .target r => r
  carries
    | .source _ => false
    | .target _ => decide (0 < number_elements)

abbrev Vec (T : Type) := Fin number_elements → T

abbrev Net (n : Nat) (T : Type) := Fabric (Port n) (Fin n) (Vec number_elements T)

variable {number_elements}

def startImpl (r : Fin n) (f : Fields) (F : Net number_elements n T) : Fields × Net number_elements n T :=
  if n = 1 ∨ number_elements = 0 then (f, F)
  else
    let F := if r = root then initTransfer (wiring number_elements n) F (.source r) else F
    ({ f with iteration := 0 + 1 }, F)

def triggerProgressImpl (r : Fin n) (f : Fields) (F : Net number_elements n T) :
    Bool × Fields × Net number_elements n T :=
  if n = 1 ∨ number_elements = 0 then (true, f, F)
  else if f.iteration = n then
    if r.val = second_last root then
      let (done, F) := checkForTransferAck F (.source r)
      (done, f, F)
    else (true, f, F)
  else if rank_after_first root r = f.iteration then
    let (made_progress, F) := checkForCompletion F (.target r)
    if !made_progress then (false, f, F)
    else
      let F := if r.val ≠ last root then initTransfer (wiring number_elements n) F (.source r)
        else ackTransfer (wiring number_elements n) F (.target r)
      (false, { f with iteration := f.iteration + 1 }, F)
  else (false, { f with iteration := f.iteration + 1 }, F)

def copyInImpl (r : Fin n) (inputs : Vec number_elements T) (f : Fields) (F : Net number_elements n T) :
    Fields × Net number_elements n T :=
  if number_elements = 0 then (f, F)
  else if r = root then (f, F.write ((wiring number_elements n).loc (.source r)) inputs)
  else (f, F)

def copyOutImpl (r : Fin n) (_ : Fields) (F : Net number_elements n T) : Vec number_elements T :=
  if r = root then F.mem ((wiring number_elements n).loc (.source r))
  else F.mem ((wiring number_elements n).loc (.target r))

variable (number_elements)

def broadcast (T : Type) : Collective (Fin n) (Port n) (Fin n) (Vec number_elements T) Fields
    (Vec number_elements T) (Vec number_elements T) where
  wiring := wiring number_elements n
  construct _ := { iteration := 0 }
  copyInImpl := copyInImpl root
  startImpl := startImpl root
  triggerProgressImpl := triggerProgressImpl root
  copyOutImpl := copyOutImpl root

abbrev GroupSys (n : Nat) (T : Type) :=
  Sys (Fin n) (Port n) (Fin n) (Vec number_elements T) Fields (Vec number_elements T)

end GaspiCxx.Collectives.BroadcastBasicLinear
