import Mathlib

/-!
# Queues and the calls behind them (`singlesided/Queue`, `utility/Macros`)

The communication library is a parameter: what a posting call and
`gaspi_wait` answer, given the library's state. A `World` is that state with
the posting calls made so far; a call is posted if the answer is success.
-/

namespace GaspiCxx.Context

abbrev QueueID := Nat

inductive gaspi_return_t where
  | GASPI_SUCCESS
  | GASPI_QUEUE_FULL
  /-- a timeout or one of the error codes -/
  | other (code : Int)
  deriving DecidableEq, Repr

structure BufferDescription where
  rank : Nat
  segmentId : Nat
  offset : UInt64
  size : UInt64
  notificationId : Nat
  deriving DecidableEq, Repr

/-- `operator<<`. -/
def BufferDescription.text (d : BufferDescription) : String :=
  "address (" ++ toString d.rank ++ ", " ++ toString d.segmentId ++ ", " ++ toString d.offset ++ "), " ++
    "size " ++ toString d.size ++ ", synch. id " ++ toString d.notificationId

/-- The posting calls with their arguments, the queue apart. -/
inductive Operation where
  | gaspi_write_notify (segment_id_local : Nat) (offset_local : UInt64) (rank segment_id_remote : Nat)
      (offset_remote size : UInt64) (notification_id notification_value : Nat)
  | gaspi_notify (segment_id_remote rank notification_id notification_value : Nat)
  deriving DecidableEq, Repr

/-- The library, over its states `σ`. -/
structure Gaspi (σ : Type) where
  post : Operation → QueueID → σ → gaspi_return_t × σ
  gaspi_wait : QueueID → σ → gaspi_return_t × σ
  gaspi_error_str : gaspi_return_t → String

/-- Posting calls, each with its queue and what it was answered. -/
abbrev Calls := List (Operation × QueueID × gaspi_return_t)

structure World (σ : Type) where
  gaspi : σ
  calls : Calls

/-- How a call ends; `running` if it has not within the rounds it was given. -/
inductive Outcome where
  | returned
  | threw (what : String)
  | running
  deriving DecidableEq, Repr

variable {σ : Type}

/-- What the calls have posted. -/
def posted (calls : Calls) : List Operation := (calls.filter fun c => c.2.2 = .GASPI_SUCCESS).map Prod.fst

theorem posted_success (calls : Calls) (op : Operation) (queue : QueueID) :
    posted (calls ++ [(op, queue, .GASPI_SUCCESS)]) = posted calls ++ [op] := by
  simp [posted]

theorem posted_full (calls : Calls) (op : Operation) (queue : QueueID) :
    posted (calls ++ [(op, queue, .GASPI_QUEUE_FULL)]) = posted calls := by
  simp [posted]

/-- `CODE_ORIGIN`, with the name of the function for `__PRETTY_FUNCTION__`. -/
def CODE_ORIGIN (function : String) (line : Nat) : String := function ++ " [" ++ toString line ++ "]: "

def GASPI_CHECK (G : Gaspi σ) (origin : String) (ret : gaspi_return_t) : Outcome :=
  if ret ≠ .GASPI_SUCCESS then .threw ("In " ++ origin ++ "Gaspi error: " ++ G.gaspi_error_str ret) else .returned

/-- A posting call. -/
def issue (G : Gaspi σ) (op : Operation) (queue : QueueID) (w : World σ) : gaspi_return_t × World σ :=
  let (ret, gaspi) := G.post op queue w.gaspi
  (ret, { gaspi, calls := w.calls ++ [(op, queue, ret)] })

/-- `Queue::flush`. -/
def flush (G : Gaspi σ) (queue : QueueID) (w : World σ) : Outcome × World σ :=
  let (ret, gaspi) := G.gaspi_wait queue w.gaspi
  (GASPI_CHECK G (CODE_ORIGIN "Queue::flush" 52) ret, { w with gaspi })

variable {G : Gaspi σ} {op : Operation} {queue : QueueID} {w : World σ}

theorem issue_calls : (issue G op queue w).2.calls = w.calls ++ [(op, queue, (issue G op queue w).1)] := rfl

/-! ## Queues with room for a number of operations -/

/-- A library whose queues hold up to `capacity` operations; a wait empties a queue. -/
def queues (capacity : Nat) : Gaspi (QueueID → Nat) where
  post _ queue occupancy :=
    if capacity ≤ occupancy queue then (.GASPI_QUEUE_FULL, occupancy)
    else (.GASPI_SUCCESS, Function.update occupancy queue (occupancy queue + 1))
  gaspi_wait queue occupancy := (.GASPI_SUCCESS, Function.update occupancy queue 0)
  gaspi_error_str _ := ""

section

variable {capacity : Nat} {w : World (QueueID → Nat)}

theorem issue_room (h : w.gaspi queue < capacity) : issue (queues capacity) op queue w = (.GASPI_SUCCESS,
    { gaspi := Function.update w.gaspi queue (w.gaspi queue + 1),
      calls := w.calls ++ [(op, queue, .GASPI_SUCCESS)] }) := by
  unfold issue queues
  simp only [if_neg (Nat.not_le.mpr h)]

theorem issue_full (h : capacity ≤ w.gaspi queue) : issue (queues capacity) op queue w =
    (.GASPI_QUEUE_FULL, { w with calls := w.calls ++ [(op, queue, .GASPI_QUEUE_FULL)] }) := by
  unfold issue queues
  simp only [if_pos h]

theorem flush_queues : flush (queues capacity) queue w =
    (.returned, { w with gaspi := Function.update w.gaspi queue 0 }) := rfl

end

end GaspiCxx.Context
