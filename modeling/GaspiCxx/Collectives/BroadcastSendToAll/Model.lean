import GaspiCxx.Collectives.LowLevel
import GaspiCxx.SingleSided.Endpoint

/-!
# The direct broadcast (`BroadcastLowLevel<T, SEND_TO_ALL>`)

The root has one source buffer for every other rank, all of them in the memory
of the first, and completes once every rank has acknowledged. The others
acknowledge and complete as soon as the data arrives.
-/

namespace GaspiCxx.Collectives.BroadcastSendToAll

open OneSided SingleSided

/-- The two ends of the connection between the root and another rank. -/
inductive Port (n : Nat) where
  | source (r : Fin n)
  | target (r : Fin n)
  deriving DecidableEq, Repr

inductive Loc (n : Nat) where
  | source
  | target (r : Fin n)
  deriving DecidableEq, Repr

/-- Not initialised by the constructor, but by `start` before anything reads it. -/
structure Fields where
  transfers_in_progress : Nat
  deriving DecidableEq, Repr

variable {n : Nat} {T : Type} (number_elements : Nat) (root : Fin n)

def generate_non_root_ranks : List (Fin n) := (List.finRange n).filter fun i => decide (root ≠ i)

/-- The ranks the source buffers are connected to: the first one to `back()`,
the remaining ones to the others. -/
def source_buffers : List (Fin n) :=
  (generate_non_root_ranks root).getLast?.toList ++ (generate_non_root_ranks root).dropLast

def wiring (n : Nat) : Wiring (Port n) (Loc n) where
  peer
    | .source r => .target r
    | .target r => .source r
  loc
    | .source _ => .source
    | .target r => .target r
  carries
    | .source _ => false
    | .target _ => decide (0 < number_elements)

abbrev Vec (T : Type) := Fin number_elements → T

abbrev Net (n : Nat) (T : Type) := Fabric (Port n) (Loc n) (Vec number_elements T)

variable {number_elements}

def startImpl (r : Fin n) (f : Fields) (F : Net number_elements n T) : Fields × Net number_elements n T :=
  if n = 1 then (f, F)
  else if r = root then
    ({ f with transfers_in_progress := (source_buffers root).length },
      (source_buffers root).foldl (fun F i => initTransfer (wiring number_elements n) F (.source i)) F)
  else (f, F)

/-- The root's look at the source buffer connected to rank `i`. -/
def checkSource (x : Nat × Net number_elements n T) (i : Fin n) : Nat × Net number_elements n T :=
  let (done, F) := checkForTransferAck x.2 (.source i)
  (if done then x.1 - 1 else x.1, F)

def triggerProgressImpl (r : Fin n) (f : Fields) (F : Net number_elements n T) :
    Bool × Fields × Net number_elements n T :=
  if n = 1 then (true, f, F)
  else if r = root then
    let (transfers_in_progress, F) := (source_buffers root).foldl checkSource (f.transfers_in_progress, F)
    (transfers_in_progress == 0, { f with transfers_in_progress := transfers_in_progress }, F)
  else
    let (done, F) := checkForCompletion F (.target r)
    if done then (true, f, ackTransfer (wiring number_elements n) F (.target r)) else (false, f, F)

def copyInImpl (r : Fin n) (inputs : Vec number_elements T) (f : Fields) (F : Net number_elements n T) :
    Fields × Net number_elements n T :=
  if r = root then (f, F.write .source inputs) else (f, F)

def copyOutImpl (r : Fin n) (_ : Fields) (F : Net number_elements n T) : Vec number_elements T :=
  if r = root then F.mem .source else F.mem (.target r)

variable (number_elements)

def broadcast (T : Type) : Collective (Fin n) (Port n) (Loc n) (Vec number_elements T) Fields
    (Vec number_elements T) (Vec number_elements T) where
  wiring := wiring number_elements n
  construct _ := { transfers_in_progress := 0 }
  copyInImpl := copyInImpl root
  startImpl := startImpl root
  triggerProgressImpl := triggerProgressImpl root
  copyOutImpl := copyOutImpl root

abbrev GroupSys (n : Nat) (T : Type) :=
  Sys (Fin n) (Port n) (Loc n) (Vec number_elements T) Fields (Vec number_elements T)

/-! ## The source buffers -/

section

variable {root}

theorem source_buffers_perm : (source_buffers root).Perm (generate_non_root_ranks root) := by
  unfold source_buffers
  cases h : (generate_non_root_ranks root).getLast? with
  | none => simp [List.getLast?_eq_none_iff.mp h]
  | some b =>
    refine List.perm_append_comm.trans (List.Perm.of_eq ?_)
    exact List.dropLast_append_getLast? b h

theorem mem_source_buffers {i : Fin n} : i ∈ source_buffers root ↔ i ≠ root := by
  rw [source_buffers_perm.mem_iff, generate_non_root_ranks, List.mem_filter]
  simp only [List.mem_finRange, true_and, decide_eq_true_eq]
  exact ne_comm

theorem nodup_source_buffers : (source_buffers root).Nodup :=
  source_buffers_perm.nodup_iff.mpr ((List.nodup_finRange n).filter _)

end

end GaspiCxx.Collectives.BroadcastSendToAll
