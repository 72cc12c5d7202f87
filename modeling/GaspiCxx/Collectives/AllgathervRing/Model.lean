import GaspiCxx.Collectives.AllgathervCommon
import GaspiCxx.Collectives.Copy
import GaspiCxx.Collectives.LowLevel
import GaspiCxx.Group.Utilities
import GaspiCxx.SingleSided.Endpoint

/-!
# The ring allgatherv (`AllgathervLowLevel<T, RING>`)

Rank `r` owns `source_buffers[0 .. n-2]` and `target_buffers[0 .. n-2]`.
`source_buffers[0]` holds its own block, `source_buffers[i+1]` is a view of
`target_buffers[i]`. Source `i` is connected to target `i` of the right
neighbour. In step `i` a rank waits for target `i` and forwards it; the last
target is acknowledged instead, and the run ends with the acknowledgement from
the right.
-/

namespace GaspiCxx.Collectives.AllgathervRing

open OneSided SingleSided GroupUtilities AllgathervCommon

inductive Port (n : Nat) where
  | source (r : Fin n) (i : Nat)
  | target (r : Fin n) (i : Nat)
  deriving DecidableEq, Repr

/-- The memory of `source_buffers[0]` and of `target_buffers[i]`. -/
inductive Loc (n : Nat) where
  | own (r : Fin n)
  | block (r : Fin n) (i : Nat)
  deriving DecidableEq, Repr

structure Fields (T : Type) where
  current_step : Nat
  data_for_1rank_case : List T

variable {n : Nat} {T : Type} (counts : Fin n → Nat)

/-- The rank whose block `target_buffers[i]` of rank `r` receives. -/
def receive_index (r : Fin n) : Nat → Fin n
  | 0 => left r
  | i + 1 => left (receive_index r i)

/-- `description().size() / sizeof(T)`. -/
def bufferSize : Port n → Nat
  | .source r 0 => counts r
  | .source r (i + 1) => counts (receive_index r i)
  | .target r i => counts (receive_index r i)

/-- A transfer of size zero takes the notify-only path. -/
def wiring : Wiring (Port n) (Loc n) where
  peer
    | .source r i => .target (right r) i
    | .target r i => .source (left r) i
  loc
    | .source r 0 => .own r
    | .source r (i + 1) => .block r i
    | .target r i => .block r i
  carries
    | .source _ _ => false
    | .target r i => decide (0 < bufferSize counts (.source (left r) i))

def is_last_step (f : Fields T) : Bool := f.current_step == n - 1

abbrev Net (n : Nat) (T : Type) := Fabric (Port n) (Loc n) (List T)

def startImpl (r : Fin n) (f : Fields T) (F : Net n T) : Fields T × Net n T :=
  if n > 1 then
    ({ f with current_step := 0 }, initTransfer (wiring counts) F (.source r 0))
  else (f, F)

def copyInImpl (r : Fin n) (inputs : Nat → T) (f : Fields T) (F : Net n T) : Fields T × Net n T :=
  if n = 1 then
    ({ f with data_for_1rank_case := readFrom inputs (number_elements counts) }, F)
  else
    let elements_to_copy := bufferSize counts (.source r 0)
    (f, F.write ((wiring counts).loc (.source r 0)) (readFrom inputs elements_to_copy))

def triggerProgressImpl (r : Fin n) (f : Fields T) (F : Net n T) : Bool × Fields T × Net n T :=
  if n = 1 then (true, f, F)
  else if is_last_step (n := n) f then
    let (made_progress, F) := checkForTransferAck F (.source r (f.current_step - 1))
    (made_progress, f, F)
  else
    let (made_progress, F) := checkForCompletion F (.target r f.current_step)
    if !made_progress then (false, f, F)
    else
      let f := { f with current_step := f.current_step + 1 }
      if is_last_step (n := n) f then
        (false, f, ackTransfer (wiring counts) F (.target r (f.current_step - 1)))
      else
        (false, f, initTransfer (wiring counts) F (.source r f.current_step))

/-- The offset and the elements of each `std::copy` of `copyOutImpl`. -/
def copies (r : Fin n) (F : Net n T) : List (Nat × List T) :=
  (offsets counts r, (F.mem ((wiring counts).loc (.source r 0))).take (counts r)) ::
  (List.range (n - 1)).map fun i =>
    (offsets counts (receive_index r i),
      (F.mem ((wiring counts).loc (.target r i))).take (counts (receive_index r i)))

def copyOutImpl (r : Fin n) (f : Fields T) (F : Net n T) : Nat → Option T :=
  if n = 1 then copyTo (fun _ => none) 0 f.data_for_1rank_case
  else (copies counts r F).foldl (fun out c => copyTo out c.1 c.2) fun _ => none

def allgatherv : Collective (Fin n) (Port n) (Loc n) (List T) (Fields T) (Nat → T) (Nat → Option T) where
  wiring := wiring counts
  construct _ := { current_step := 0, data_for_1rank_case := [] }
  copyInImpl := copyInImpl counts
  startImpl := startImpl counts
  triggerProgressImpl := triggerProgressImpl counts
  copyOutImpl := copyOutImpl counts

abbrev GroupSys (n : Nat) (T : Type) := Sys (Fin n) (Port n) (Loc n) (List T) (Fields T) (Nat → Option T)

end GaspiCxx.Collectives.AllgathervRing
