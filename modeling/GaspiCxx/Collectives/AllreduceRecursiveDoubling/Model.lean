import GaspiCxx.Collectives.AllreduceCommon
import GaspiCxx.Collectives.LowLevel
import GaspiCxx.SingleSided.Endpoint

/-!
# The recursive-doubling allreduce (`AllreduceLowLevel<T, RECURSIVE_DOUBLING>`)

The active ranks, a power of two of them, exchange their vectors in
`number_iterations` iterations with partners at distance 1, 2, 4, ... in a
relabelling of the ranks. Each of the first `2 * number_ranks_rest` ranks that
is odd sends its vector to the even rank before it first, and gets the result
back from it at the end.

All source buffers of an active rank are one memory, also
`source_buffer_non_power_two_case` of an even rank.
-/

namespace GaspiCxx.Collectives.AllreduceRecursiveDoubling

open OneSided SingleSided AllreduceCommon

/-- `source_buffers[iteration]`, `target_buffers[iteration]` and the two buffers
of the non-power-of-two case. -/
inductive Port (n : Nat) where
  | source (r : Fin n) (iteration : Nat)
  | target (r : Fin n) (iteration : Nat)
  | source_non_power_two (r : Fin n)
  | target_non_power_two (r : Fin n)
  deriving DecidableEq, Repr

inductive Loc (n : Nat) where
  | source (r : Fin n)
  | target (r : Fin n) (iteration : Nat)
  | target_non_power_two (r : Fin n)
  deriving DecidableEq, Repr

inductive AlgStage where
  | NOT_STARTED
  | WAIT_FOR_DATA
  | WAIT_FOR_ACK
  | INITIAL_STEP_NON_POWER_TWO
  | FINAL_STEP_NON_POWER_TWO
  deriving DecidableEq, Repr

/-! ## The roles of the ranks -/

def nearest_power_of_two_less_equal (i : Nat) : Nat := 2 ^ Nat.log2 i

def number_ranks_used (n : Nat) : Nat := nearest_power_of_two_less_equal n

def number_ranks_rest (n : Nat) : Nat := n - number_ranks_used n

def number_iterations (n : Nat) : Nat := Nat.log2 (number_ranks_used n)

section

variable {n : Nat} (rank : Fin n)

abbrev is_extra_rank : Prop := rank.val ≥ 2 * number_ranks_rest n

abbrev is_non_extra_rank : Prop := ¬ is_extra_rank rank

abbrev is_even_non_extra_rank : Prop := rank.val % 2 = 0 ∧ is_non_extra_rank rank

abbrev is_odd_non_extra_rank : Prop := rank.val % 2 = 1 ∧ is_non_extra_rank rank

abbrev is_active_rank : Prop := is_even_non_extra_rank rank ∨ is_extra_rank rank

def relabeled_rank : Nat :=
  if rank.val < 2 * number_ranks_rest n then rank / 2 else rank - number_ranks_rest n

/-- The rank with a given label. -/
def original_rank (n relabeled : Nat) : Nat :=
  if relabeled < number_ranks_rest n then relabeled * 2 else relabeled + number_ranks_rest n

/-- `group::Rank(rank)`; the constructor asks for ranks of the group only. -/
def toRank (default : Fin n) (rank : Nat) : Fin n := if h : rank < n then ⟨rank, h⟩ else default

/-- The partner of an active rank in an iteration. -/
def neighbor (iteration : Nat) : Fin n := toRank rank (original_rank n (relabeled_rank rank ^^^ 2 ^ iteration))

/-- The partner of a rank that is not extra: next rank when even, previous otherwise. -/
def neighbor_non_power_two : Fin n := toRank rank (rank ^^^ 1)

end

abbrev is_power_two_case (n : Nat) : Prop := number_ranks_rest n = 0

abbrev is_last_iteration (n iteration : Nat) : Prop := iteration = number_iterations n - 1

/-! ## The object -/

variable {n : Nat} {T : Type} (number_elements : Nat) (reduction_functor : T → T → T)

abbrev Vec (T : Type) := Fin number_elements → T

structure Fields (T : Type) where
  iteration : Nat
  alg_stage : AlgStage
  data_for_1rank_case : Option (Vec number_elements T)

def wiring (n : Nat) : Wiring (Port n) (Loc n) where
  peer
    | .source r iteration => .target (neighbor r iteration) iteration
    | .target r iteration => .source (neighbor r iteration) iteration
    | .source_non_power_two r => .target_non_power_two (neighbor_non_power_two r)
    | .target_non_power_two r => .source_non_power_two (neighbor_non_power_two r)
  loc
    | .source r _ | .source_non_power_two r => .source r
    | .target r iteration => .target r iteration
    | .target_non_power_two r => .target_non_power_two r
  carries
    | .source _ _ | .source_non_power_two _ => false
    | .target _ _ | .target_non_power_two _ => true

abbrev Net (n : Nat) (T : Type) := Fabric (Port n) (Loc n) (Vec number_elements T)

variable {number_elements}

def startImpl (r : Fin n) (f : Fields number_elements T) (F : Net number_elements n T) :
    Fields number_elements T × Net number_elements n T :=
  if number_elements = 0 ∨ n = 1 then (f, F)
  else
    let f := { f with
      iteration := 0
      alg_stage := if is_non_extra_rank r then .INITIAL_STEP_NON_POWER_TWO else .WAIT_FOR_DATA }
    let F := if is_extra_rank r then initTransfer (wiring n) F (.source r f.iteration) else F
    let F := if is_odd_non_extra_rank r then initTransfer (wiring n) F (.source_non_power_two r) else F
    (f, F)

/-- The end of `triggerProgressImpl`: on to the next iteration, and to the final
step after the last one. -/
def next_iteration (r : Fin n) (f : Fields number_elements T) (F : Net number_elements n T) :
    Bool × Fields number_elements T × Net number_elements n T :=
  if is_last_iteration n f.iteration then
    let F := if is_even_non_extra_rank r then initTransfer (wiring n) F (.source_non_power_two r) else F
    (false, { f with iteration := f.iteration + 1, alg_stage := .FINAL_STEP_NON_POWER_TWO }, F)
  else (false, { f with iteration := f.iteration + 1 }, F)

/-- `triggerProgressImpl` behind the initial step. -/
def proceedImpl (r : Fin n) (f : Fields number_elements T) (F : Net number_elements n T) :
    Bool × Fields number_elements T × Net number_elements n T :=
  if f.alg_stage = .FINAL_STEP_NON_POWER_TWO then
    if is_power_two_case n then (true, f, F)
    else if is_even_non_extra_rank r then
      let (done, F) := checkForTransferAck F (.source_non_power_two r)
      (done, f, F)
    else if is_odd_non_extra_rank r then
      let (done, F) := checkForCompletion F (.target_non_power_two r)
      (done, f, if done then ackTransfer (wiring n) F (.target_non_power_two r) else F)
    else (true, f, F)
  else if is_active_rank r then
    match f.alg_stage with
    | .WAIT_FOR_DATA =>
      let (made_progress, F) := checkForCompletion F (.target r f.iteration)
      if !made_progress then (false, f, F)
      else (false, { f with alg_stage := .WAIT_FOR_ACK }, ackTransfer (wiring n) F (.target r f.iteration))
    | .WAIT_FOR_ACK =>
      let (made_progress, F) := checkForTransferAck F (.source r f.iteration)
      if !made_progress then (false, f, F)
      else
        let F := apply_reduce_op reduction_functor (wiring n) F (.source r f.iteration)
          (.target r f.iteration)
        if ¬ is_last_iteration n f.iteration then
          next_iteration r { f with alg_stage := .WAIT_FOR_DATA }
            (initTransfer (wiring n) F (.source r (f.iteration + 1)))
        else next_iteration r f F
    | _ => (false, f, F)
  else next_iteration r f F

def triggerProgressImpl (r : Fin n) (f : Fields number_elements T) (F : Net number_elements n T) :
    Bool × Fields number_elements T × Net number_elements n T :=
  if number_elements = 0 ∨ n = 1 then (true, f, F)
  else if is_even_non_extra_rank r ∧ f.alg_stage = .INITIAL_STEP_NON_POWER_TWO then
    let (made_progress, F) := checkForCompletion F (.target_non_power_two r)
    if !made_progress then (false, f, F)
    else
      let F := apply_reduce_op reduction_functor (wiring n) F (.source r f.iteration)
        (.target_non_power_two r)
      let F := initTransfer (wiring n) F (.source r f.iteration)
      proceedImpl reduction_functor r { f with alg_stage := .WAIT_FOR_DATA } F
  else proceedImpl reduction_functor r f F

def copyInImpl (r : Fin n) (inputs : Vec number_elements T) (f : Fields number_elements T)
    (F : Net number_elements n T) : Fields number_elements T × Net number_elements n T :=
  if 0 < number_elements ∧ 1 < n then
    if is_active_rank r then (f, F.write ((wiring n).loc (.source r 0)) inputs)
    else (f, F.write ((wiring n).loc (.source_non_power_two r)) inputs)
  else if 0 < number_elements ∧ n = 1 then ({ f with data_for_1rank_case := some inputs }, F)
  else (f, F)

/-- `none` where nothing is copied. -/
def copyOutImpl (r : Fin n) (f : Fields number_elements T) (F : Net number_elements n T) :
    Option (Vec number_elements T) :=
  if 0 < number_elements ∧ 1 < n then
    if is_active_rank r then some (F.mem ((wiring n).loc (.source r (number_iterations n - 1))))
    else some (F.mem ((wiring n).loc (.target_non_power_two r)))
  else if 0 < number_elements ∧ n = 1 then f.data_for_1rank_case
  else none

variable (n number_elements)

def allreduce : Collective (Fin n) (Port n) (Loc n) (Vec number_elements T) (Fields number_elements T)
    (Vec number_elements T) (Option (Vec number_elements T)) where
  wiring := wiring n
  construct _ := { iteration := 0, alg_stage := .NOT_STARTED, data_for_1rank_case := none }
  copyInImpl := copyInImpl
  startImpl := startImpl
  triggerProgressImpl := triggerProgressImpl reduction_functor
  copyOutImpl := copyOutImpl

abbrev GroupSys (T : Type) :=
  Sys (Fin n) (Port n) (Loc n) (Vec number_elements T) (Fields number_elements T)
    (Option (Vec number_elements T))

end GaspiCxx.Collectives.AllreduceRecursiveDoubling
