import GaspiCxx.Collectives.AllreduceCommon
import GaspiCxx.Collectives.Copy
import GaspiCxx.Collectives.LowLevel
import GaspiCxx.Group.Utilities
import GaspiCxx.SingleSided.Endpoint

/-!
# The ring allreduce (`AllreduceLowLevel<T, RING>`)

The vector is cut into `n` chunks of `number_elements_padded` elements. Rank
`r` owns `source_buffers_reduce[j]` and `target_buffers_reduce[j]` for every
chunk `j`; `source_buffers_gather[j]` and `target_buffers_gather[j]` are views
of `source_buffers_reduce[j]`. All sources are connected to the right. In
`n - 1` REDUCE steps a chunk travels once around the ring and collects every
rank's contribution, in `n - 1` GATHER steps the result travels around again.
-/

namespace GaspiCxx.Collectives.AllreduceRing

open OneSided SingleSided GroupUtilities AllreduceCommon

inductive Port (n : Nat) where
  | source_reduce (r j : Fin n)
  | target_reduce (r j : Fin n)
  | source_gather (r j : Fin n)
  | target_gather (r j : Fin n)
  deriving DecidableEq, Repr

/-- The memory of `source_buffers_reduce[j]` and of `target_buffers_reduce[j]`. -/
inductive Loc (n : Nat) where
  | chunk (r j : Fin n)
  | received (r j : Fin n)
  deriving DecidableEq, Repr

inductive RingStage where
  | REDUCE | GATHER
  deriving DecidableEq, Repr

def ceil_div (a b : Nat) : Nat := (a + b - 1) / b

structure Fields (n : Nat) (T : Type) where
  current_step : Nat
  current_index : Fin n
  data_for_1rank_case : List T

variable {T : Type} (n number_elements : Nat) (reduction_functor : T → T → T)

def wiring : Wiring (Port n) (Loc n) where
  peer
    | .source_reduce r j => .target_reduce (right r) j
    | .target_reduce r j => .source_reduce (left r) j
    | .source_gather r j => .target_gather (right r) j
    | .target_gather r j => .source_gather (left r) j
  loc
    | .source_reduce r j => .chunk r j
    | .target_reduce r j => .received r j
    | .source_gather r j => .chunk r j
    | .target_gather r j => .chunk r j
  carries
    | .source_reduce _ _ | .source_gather _ _ => false
    | .target_reduce _ _ | .target_gather _ _ => true

def number_elements_padded : Nat := ceil_div number_elements n

/-- The contents of one buffer. -/
abbrev Chunk (T : Type) := Fin (number_elements_padded n number_elements) → T

abbrev Net (T : Type) := Fabric (Port n) (Loc n) (Chunk n number_elements T)

def steps_per_stage : Nat := n - 1

def algorithm_get_current_stage (current_step : Nat) : RingStage :=
  if current_step / steps_per_stage n = 0 then .REDUCE else .GATHER

def is_last_step_reduce (current_step : Nat) : Bool := current_step == steps_per_stage n - 1

def is_last_step_gather (current_step : Nat) : Bool := current_step == 2 * steps_per_stage n - 1

def is_last_step (current_step : Nat) : Bool := current_step == 2 * steps_per_stage n

variable {n number_elements}

def startImpl (r : Fin n) (f : Fields n T) (F : Net n number_elements T) :
    Fields n T × Net n number_elements T :=
  if number_elements > 0 ∧ n > 1 then
    let current_index := r
    let F := initTransfer (wiring n) F (.source_reduce r current_index)
    ({ f with current_step := 0, current_index := left current_index }, F)
  else (f, F)

def triggerProgressImpl (r : Fin n) (f : Fields n T) (F : Net n number_elements T) :
    Bool × Fields n T × Net n number_elements T :=
  if number_elements = 0 ∨ n = 1 then (true, f, F)
  else if is_last_step n f.current_step then
    let index := ringIndex (f.current_index + 2) r
    let (made_progress, F) := checkForTransferAck F (.source_gather r index)
    (made_progress, f, F)
  else
    let (made_progress, F) := match algorithm_get_current_stage n f.current_step with
      | .REDUCE => checkForCompletion F (.target_reduce r f.current_index)
      | .GATHER => checkForCompletion F (.target_gather r f.current_index)
    if !made_progress then (false, f, F)
    else
      let F := match algorithm_get_current_stage n f.current_step with
        | .REDUCE =>
          let F := apply_reduce_op reduction_functor (wiring n) F (.source_reduce r f.current_index)
            (.target_reduce r f.current_index)
          if !is_last_step_reduce n f.current_step then
            initTransfer (wiring n) F (.source_reduce r f.current_index)
          else initTransfer (wiring n) F (.source_gather r f.current_index)
        | .GATHER =>
          if !is_last_step_gather n f.current_step then
            initTransfer (wiring n) F (.source_gather r f.current_index)
          else ackTransfer (wiring n) F (.target_gather r f.current_index)
      (false, { f with
        current_step := f.current_step + 1, current_index := left f.current_index }, F)

/-- `elements_to_copy`: the last chunk may be shorter than its buffer. -/
def elements_to_copy (n number_elements total_copied_elements : Nat) : Nat :=
  let elements := number_elements_padded n number_elements
  if total_copied_elements + elements > number_elements then number_elements - total_copied_elements
  else elements

/-- The buffers the constructor allocates. -/
def buffers (n number_elements : Nat) : List (Fin n) :=
  if number_elements > 0 ∧ n > 1 then List.finRange n else []

/-- The loop of `copyInImpl` over the remaining buffers. -/
def copyInLoop (r : Fin n) (inputs : Nat → T) :
    List (Fin n) → Nat → Net n number_elements T → Net n number_elements T
  | [], _, F => F
  | j :: js, total_copied_elements, F =>
    let elements := elements_to_copy n number_elements total_copied_elements
    let F := F.write (.chunk r j) fun e =>
      if e.val < elements then inputs (total_copied_elements + e) else F.mem (.chunk r j) e
    let total_copied_elements := total_copied_elements + elements
    if total_copied_elements ≥ number_elements then F
    else copyInLoop r inputs js total_copied_elements F

def copyInImpl (r : Fin n) (inputs : Nat → T) (f : Fields n T) (F : Net n number_elements T) :
    Fields n T × Net n number_elements T :=
  if n = 1 then ({ f with data_for_1rank_case := readFrom inputs number_elements }, F)
  else (f, copyInLoop r inputs (buffers n number_elements) 0 F)

/-- The loop of `copyOutImpl` over the remaining buffers. -/
def copyOutLoop (r : Fin n) (F : Net n number_elements T) :
    List (Fin n) → Nat → (Nat → Option T) → Nat → Option T
  | [], _, out => out
  | j :: js, total_copied_elements, out =>
    let elements := elements_to_copy n number_elements total_copied_elements
    let out := copyTo out total_copied_elements ((List.ofFn (F.mem (.chunk r j))).take elements)
    let total_copied_elements := total_copied_elements + elements
    if total_copied_elements ≥ number_elements then out
    else copyOutLoop r F js total_copied_elements out

def copyOutImpl (r : Fin n) (f : Fields n T) (F : Net n number_elements T) : Nat → Option T :=
  if n = 1 then copyTo (fun _ => none) 0 f.data_for_1rank_case
  else copyOutLoop r F (buffers n number_elements) 0 fun _ => none

variable (n number_elements)

def allreduce : Collective (Fin n) (Port n) (Loc n) (Chunk n number_elements T) (Fields n T) (Nat → T)
    (Nat → Option T) where
  wiring := wiring n
  construct r := { current_step := 0, current_index := r, data_for_1rank_case := [] }
  copyInImpl := copyInImpl
  startImpl := startImpl
  triggerProgressImpl := triggerProgressImpl reduction_functor
  copyOutImpl := copyOutImpl

abbrev GroupSys (T : Type) :=
  Sys (Fin n) (Port n) (Loc n) (Chunk n number_elements T) (Fields n T) (Nat → Option T)

end GaspiCxx.Collectives.AllreduceRing
