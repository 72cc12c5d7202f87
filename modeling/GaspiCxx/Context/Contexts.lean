import GaspiCxx.Context.Queue

/-!
# The two communication contexts

`SingleQueueContext` flushes its queue when that is full and tries again;
`RoundRobinQueuesContext` goes on to the next of its queues, which
`select_available_queue` flushes first. The loops take the number of rounds
they may make; `size_t` is `UInt64`, so that `offset + size` wraps around as it
does in the source.
-/

namespace GaspiCxx.Context

variable {σ : Type}

/-- A call of `writePart`: how it ends and its posting calls, by the number of rounds it gets. -/
abbrev Call := Nat → Outcome × Calls

def writeNotify (source target : BufferDescription) (size offset : UInt64) : Operation :=
  .gaspi_write_notify source.segmentId (source.offset + offset) target.rank target.segmentId target.offset size
    target.notificationId 1

def notifyOnly (target : BufferDescription) : Operation :=
  .gaspi_notify target.segmentId target.rank target.notificationId 1

/-- `CommunicationContext::write`, by the context's `writePart`. -/
def write (writePart : BufferDescription → BufferDescription → UInt64 → UInt64 → Call)
    (source target : BufferDescription) : Call := writePart source target source.size 0

/-! ## `SingleQueueContext` -/

structure SingleQueueContext where
  _pQueue : QueueID

namespace SingleQueueContext

variable (G : Gaspi σ) (c : SingleQueueContext)

/-- The loop around a posting call and the check behind it; `context` is what
the handler adds to an error. -/
def post (op : Operation) (origin rethrow context : String) : Nat → World σ → Outcome × World σ
  | 0, w => (.running, w)
  | rounds + 1, w =>
    let (ret, w) := issue G op c._pQueue w
    if ret = .GASPI_QUEUE_FULL then
      match flush G c._pQueue w with
      | (.returned, w) => post op origin rethrow context rounds w
      | (outcome, w) => (outcome, w)
    else
      match GASPI_CHECK G origin ret with
      | .threw what => (.threw (rethrow ++ what ++ context), w)
      | outcome => (outcome, w)

def notify (rounds : Nat) (target : BufferDescription) (w : World σ) : Outcome × World σ :=
  post G c (notifyOnly target) (CODE_ORIGIN "SingleQueueContext::notify" 129)
    (CODE_ORIGIN "SingleQueueContext::notify" 134) ("! target: " ++ target.text) rounds w

def writePart (rounds : Nat) (source target : BufferDescription) (size offset : UInt64) (w : World σ) :
    Outcome × World σ :=
  if offset + size > source.size then
    (.threw (CODE_ORIGIN "SingleQueueContext::writePart" 45 ++ "Offset (" ++ toString offset ++ " byte) + size (" ++
      toString size ++ " byte) > size of source buffer (" ++ toString source.size ++ " byte)"), w)
  else if size > target.size then
    (.threw (CODE_ORIGIN "SingleQueueContext::writePart" 61 ++ "size (" ++ toString size ++
      " byte) > size of target buffer (" ++ toString target.size ++ " byte)"), w)
  else if size > 0 then
    post G c (writeNotify source target size offset) (CODE_ORIGIN "SingleQueueContext::writePart" 91)
      (CODE_ORIGIN "SingleQueueContext::writePart" 96) ("! source: " ++ source.text ++ ", target: " ++ target.text)
      rounds w
  else notify G c rounds target w

/-- `writePart` as a call on the library in the state `g`. -/
def called (g : σ) (source target : BufferDescription) (size offset : UInt64) : Call := fun rounds =>
  ((writePart G c rounds source target size offset { gaspi := g, calls := [] }).1,
    (writePart G c rounds source target size offset { gaspi := g, calls := [] }).2.calls)

end SingleQueueContext

/-! ## `RoundRobinQueuesContext` -/

/-- A context has at least one queue, and the index is one of them. -/
structure RoundRobinQueuesContext where
  gaspi_queues : List QueueID
  queue_index : Fin gaspi_queues.length

namespace RoundRobinQueuesContext

variable (G : Gaspi σ) (queues : List QueueID)

/-- `select_available_queue`, on the index: the next queue, flushed, if
`queue_index` is the full one; the index as another thread left it otherwise. -/
def select_available_queue (full_queue_index queue_index : Fin queues.length) (w : World σ) :
    Outcome × Fin queues.length × World σ :=
  if queue_index = full_queue_index then
    let next : Fin queues.length := ⟨(queue_index + 1) % queues.length, Nat.mod_lt _ (Fin.pos queue_index)⟩
    match flush G (queues.get next) w with
    | (.returned, w) => (.returned, next, w)
    | (outcome, w) => (outcome, queue_index, w)
  else (.returned, queue_index, w)

/-- The loop around a posting call. -/
def post (op : Operation) (origin : String) :
    Nat → (current_queue_index queue_index : Fin queues.length) → World σ → Outcome × Fin queues.length × World σ
  | 0, _, queue_index, w => (.running, queue_index, w)
  | rounds + 1, current_queue_index, queue_index, w =>
    let (ret, w) := issue G op (queues.get current_queue_index) w
    match ret with
    | .GASPI_SUCCESS => (.returned, queue_index, w)
    | .GASPI_QUEUE_FULL =>
      match select_available_queue G queues current_queue_index queue_index w with
      | (.returned, queue_index, w) => post op origin rounds queue_index queue_index w
      | result => result
    | ret => (GASPI_CHECK G origin ret, queue_index, w)

variable (c : RoundRobinQueuesContext)

def notify (rounds : Nat) (target : BufferDescription) (w : World σ) :
    Outcome × Fin c.gaspi_queues.length × World σ :=
  post G c.gaspi_queues (notifyOnly target) (CODE_ORIGIN "RoundRobinQueuesContext::notify" 154) rounds c.queue_index
    c.queue_index w

def writePart (rounds : Nat) (source target : BufferDescription) (size offset : UInt64) (w : World σ) :
    Outcome × Fin c.gaspi_queues.length × World σ :=
  if size = 0 then notify G c rounds target w
  else if offset + size > source.size then
    (.threw "[RoundRobinQueuesContext:writePart] Write size larger than provided source buffer", c.queue_index, w)
  else if size > target.size then
    (.threw "[RoundRobinQueuesContext:writePart] Write size larger than provided target buffer", c.queue_index, w)
  else
    post G c.gaspi_queues (writeNotify source target size offset)
      (CODE_ORIGIN "RoundRobinQueuesContext::writePart" 127) rounds c.queue_index c.queue_index w

/-- `writePart` as a call on the library in the state `g`. -/
def called (g : σ) (source target : BufferDescription) (size offset : UInt64) : Call := fun rounds =>
  ((writePart G c rounds source target size offset { gaspi := g, calls := [] }).1,
    (writePart G c rounds source target size offset { gaspi := g, calls := [] }).2.2.calls)

end RoundRobinQueuesContext

end GaspiCxx.Context
