import GaspiCxx.OneSided.Names
import GaspiCxx.Passive.Table

/-!
# Buffers, and the service that brings their contents across

A `Net` is what all ranks share: the notification ids and memory blocks each has
taken from its segments, the operations on their way to a notification, and the
passive service of every rank with its maps, the `RTBD` messages sent to it and
the transfers its threads have in hand.

`iSendTagMessg` and `iRecvTagMessg` run in the thread that calls them, up to the
unlock of the maps. A thread that found a counterpart then goes through
`iSendRecvComm` (`Net.Step.write`, `Net.Step.notify`): it writes the source's
block to the receiving buffer, waits until the write has left its own memory,
and notifies the source. `Net.Step.write` is the moment at which the write reads
the block, somewhere between `gaspi_write_notify` and the end of the `flush`.
-/

namespace GaspiCxx.Passive

open OneSided

/-- `singlesided::BufferDescription`. -/
structure BufferDescription where
  rank : Rank
  segmentId : Nat
  offset : Nat
  size : Nat
  notificationId : Nat
  deriving DecidableEq, Repr

/-- A notification of a rank: segment and id. -/
abbrev Slot := Nat × Nat

/-- An allocated block of a rank: segment and offset. -/
abbrev Block := Nat × Nat

namespace BufferDescription

def slot (d : BufferDescription) : Slot := (d.segmentId, d.notificationId)

def block (d : BufferDescription) : Block := (d.segmentId, d.offset)

/-- The notification of a buffer. -/
def address (d : BufferDescription) : Rank × Slot := (d.rank, d.slot)

/-- The memory of a buffer. -/
def place (d : BufferDescription) : Rank × Block := (d.rank, d.block)

end BufferDescription

/-- An operation on its way to a notification: a packet not yet stored in its
block, a notification alone, or anything a user of the service sends. -/
inductive Op (V X : Type) where
  | packet (b : Rank × Block) (v : V)
  | bare
  | user (x : X)
  deriving DecidableEq, Repr

/-- `CommunicationContext::write`, of the operation `op` that carries the data: a
source of size zero only notifies. -/
def write {V X : Type} (source target : BufferDescription) (op : Op V X) : Except String (Op V X) :=
  if target.size < source.size then
    .error ("size (" ++ toString source.size ++ " byte) > size of target buffer (" ++
      toString target.size ++ " byte)")
  else if 0 < source.size then .ok op
  else .ok .bare

theorem write_of_le {V X : Type} {source target : BufferDescription} {op : Op V X}
    (hle : source.size ≤ target.size) (hpos : 0 < source.size) : write source target op = .ok op := by
  unfold write
  rw [if_neg (by omega), if_pos hpos]

/-- The text of an outcome that is an exception. -/
def Outcome.thrown {D : Type} : Outcome D → List String
  | .throws what => [what]
  | _ => []

structure Net (Thread V X : Type) where
  /-- The notification ids taken from the segments of a rank. -/
  live : Rank → Finset Slot
  /-- The blocks taken from the segments of a rank. -/
  allocated : Rank → Finset Block
  memory : Rank × Block → V
  flag : Rank × Slot → Bool
  flight : Rank × Slot → List (Op V X)
  tables : Rank → Tables BufferDescription
  /-- `RTBD` messages on their way to a rank, by their tag and sender. -/
  msgs : Rank × Key → List BufferDescription
  /-- Found a counterpart, and on the way into `iSendRecvComm`. -/
  inHand : Rank × Key → List (Thread × Transfer BufferDescription)
  /-- In `iSendRecvComm`, between the two `flush`es. -/
  written : Rank × Key → List (Thread × BufferDescription)
  errors : List String

namespace Net

variable {Thread V X : Type} (N : Net Thread V X)

/-- Nothing is going on; `live` and `allocated` are taken. -/
def quiet (live : Rank → Finset Slot) (allocated : Rank → Finset Block) (memory : Rank × Block → V) :
    Net Thread V X where
  live := live
  allocated := allocated
  memory := memory
  flag _ := false
  flight _ := []
  tables _ := Tables.empty
  msgs _ := []
  inHand _ := []
  written _ := []
  errors := []

/-! ## Segments and buffers -/

def acquire_notification (d : BufferDescription) : Net Thread V X :=
  { N with live := insertAt N.live d.rank d.slot }

def release_notification (d : BufferDescription) : Net Thread V X :=
  { N with live := eraseAt N.live d.rank d.slot }

/-- `new Buffer`: a block and a notification id. -/
def newBuffer (d : BufferDescription) : Net Thread V X :=
  { N with live := insertAt N.live d.rank d.slot, allocated := insertAt N.allocated d.rank d.block }

/-- `~Buffer`. -/
def deleteBuffer (d : BufferDescription) : Net Thread V X :=
  { N with live := eraseAt N.live d.rank d.slot, allocated := eraseAt N.allocated d.rank d.block }

/-- Serialize `v` into a buffer. -/
def serialize (d : BufferDescription) (v : V) : Net Thread V X :=
  { N with memory := Function.update N.memory d.place v }

/-- Deserialize a buffer. -/
def deserialize (d : BufferDescription) : V := N.memory d.place

/-- `gaspi_notify_waitsome(GASPI_BLOCK)` and `gaspi_notify_reset`: no step until
the notification has come. -/
def waitForNotification (d : BufferDescription) : Option (Net Thread V X) :=
  if N.flag d.address then some { N with flag := Function.update N.flag d.address false } else none

/-- An operation is posted to the notification of `d`. -/
def post (d : BufferDescription) (op : Op V X) : Net Thread V X :=
  { N with flight := Function.update N.flight d.address (N.flight d.address ++ [op]) }

/-- `CommunicationContext::notify`. -/
def notify (d : BufferDescription) : Net Thread V X := N.post d .bare

def throw (what : String) : Net Thread V X := { N with errors := N.errors ++ [what] }

/-! ## The tagged rendezvous -/

/-- `handleTaggedSrcBufferDesc` and `handleTaggedRcvBufferDesc` at rank `me`, up
to the unlock. -/
def handle (me : Rank) (th : Thread) (role : Role) (rank : Rank) (tag : Tag) (desc : BufferDescription) :
    Net Thread V X :=
  let result := handleTagged role (N.tables me) rank tag desc
  { N with
    tables := Function.update N.tables me result.2
    inHand := Function.update N.inHand (me, ⟨tag, rank⟩)
      (N.inHand (me, ⟨tag, rank⟩) ++ result.1.carried.map (Prod.mk th))
    errors := N.errors ++ result.1.thrown }

def iSendTagMessg (me : Rank) (th : Thread) (rank : Rank) (tag : Tag) (srcTargetBuffer : BufferDescription) :
    Net Thread V X :=
  N.handle me th .src rank tag srcTargetBuffer

def iRecvTagMessg (me : Rank) (th : Thread) (rank : Rank) (tag : Tag) (rcvTargetBuffer : BufferDescription) :
    Net Thread V X :=
  if rank = me then N.handle me th .rcv rank tag rcvTargetBuffer
  else { N with msgs := Function.update N.msgs (rank, ⟨tag, me⟩) (N.msgs (rank, ⟨tag, me⟩) ++ [rcvTargetBuffer]) }

/-- `iSendRecvComm` up to its first `flush`; the `notify` is a step of its own. -/
def iSendRecvComm (k : Rank × Key) (th : Thread) (t : Transfer BufferDescription) : Net Thread V X :=
  match write (t.desc .src) (t.desc .rcv) (.packet (t.desc .rcv).place (N.memory (k.1, (t.desc .src).block))) with
  | .ok op =>
    { N.post (t.desc .rcv) op with
      written := Function.update N.written k (N.written k ++ [(th, t.desc .src)]) }
  | .error what => N.throw what

/-- A thread is not inside `iSendRecvComm`. -/
def Free (me : Rank) (th : Thread) : Prop :=
  ∀ key, (∀ t, (th, t) ∉ N.inHand (me, key)) ∧ ∀ d, (th, d) ∉ N.written (me, key)

/-- What the passive threads, the threads inside `iSendRecvComm` and the network
do by themselves. -/
inductive Step (passive : Thread) : Net Thread V X → Net Thread V X → Prop where
  /-- The passive thread of `me` receives an `RTBD` message. -/
  | deliver (N : Net Thread V X) (me : Rank) (key : Key) (d : BufferDescription)
      (before after : List BufferDescription) (h : N.msgs (me, key) = before ++ d :: after)
      (free : N.Free me passive) :
      Step passive N
        (Net.handle { N with msgs := Function.update N.msgs (me, key) (before ++ after) } me passive .rcv
          key.rank key.tag d)
  | write (N : Net Thread V X) (k : Rank × Key) (th : Thread) (t : Transfer BufferDescription)
      (before after : List (Thread × Transfer BufferDescription)) (h : N.inHand k = before ++ (th, t) :: after) :
      Step passive N
        (Net.iSendRecvComm { N with inHand := Function.update N.inHand k (before ++ after) } k th t)
  | notify (N : Net Thread V X) (k : Rank × Key) (th : Thread) (d : BufferDescription)
      (before after : List (Thread × BufferDescription)) (h : N.written k = before ++ (th, d) :: after) :
      Step passive N (Net.notify { N with written := Function.update N.written k (before ++ after) } d)
  /-- A packet reaches its block. -/
  | store (N : Net Thread V X) (a : Rank × Slot) (b : Rank × Block) (v : V) (before after : List (Op V X))
      (h : N.flight a = before ++ .packet b v :: after) :
      Step passive N
        { N with
          memory := Function.update N.memory b v
          flight := Function.update N.flight a (before ++ .bare :: after) }
  /-- A notification arrives. -/
  | arrive (N : Net Thread V X) (a : Rank × Slot) (before after : List (Op V X))
      (h : N.flight a = before ++ .bare :: after) :
      Step passive N
        { N with
          flag := Function.update N.flag a true
          flight := Function.update N.flight a (before ++ after) }

/-- No operation, message or transfer is on its way. -/
structure Delivered : Prop where
  flight : ∀ a, N.flight a = []
  msgs : ∀ k, N.msgs k = []
  inHand : ∀ k, N.inHand k = []
  written : ∀ k, N.written k = []

theorem waitForNotification_some {N N' : Net Thread V X} {d : BufferDescription}
    (h : N.waitForNotification d = some N') :
    N.flag d.address = true ∧ N' = { N with flag := Function.update N.flag d.address false } := by
  unfold waitForNotification at h
  split at h
  · next hf => exact ⟨hf, (Option.some.inj h).symm⟩
  · cases h

end Net

end GaspiCxx.Passive
