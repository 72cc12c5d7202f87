import GaspiCxx.Passive.RecvMessg
import GaspiCxx.Passive.Service
import GaspiCxx.Serialization.Pairs

/-!
# Messages between ranks (`sendMessg`, `passive_thread_func_`, `recvMessg`)

`sendMessg` announces its bytes with a `DATE`, which carries the description of
a temporary buffer. The passive thread of the target requests a buffer for the
bytes and writes that buffer's description into the temporary one. When it has
arrived, the sender copies its bytes into a source buffer and writes them across.

The threads of a rank that receive are those of `Passive.RecvMessg`, whose
`requested` is here the whole segment of the rank: every buffer of every
`sendMessg` is taken from it too, and whatever is written to the rank arrives in
it. Any number of calls of `sendMessg` run at once, of any ranks and to any ranks,
and nothing orders the messages or the writes on their way.

A segment may refuse memory or a notification id at any allocation. `sendMessg`
then throws `std::bad_alloc` to its caller and frees what it holds; an exception
of the passive thread terminates the rank.

The notification of a buffer goes by the buffer's offset, as in `Requested`.
-/

namespace GaspiCxx.Passive

open Bytes Serialization

/-! ## Descriptions as bytes -/

namespace BufferDescription

def raw (d : BufferDescription) : Serialization.BufferDescription where
  rank := leBytes gaspi.gaspi_rank_t.sizeof d.rank.toNat
  segmentId := leBytes gaspi.gaspi_segment_id_t.sizeof d.segmentId
  offset := leBytes gaspi.gaspi_offset_t.sizeof d.offset
  size := leBytes gaspi.gaspi_size_t.sizeof d.size
  notificationId := leBytes gaspi.gaspi_notification_id_t.sizeof d.notificationId

def ofRaw (x : Serialization.BufferDescription) : BufferDescription where
  rank := leNat x.rank
  segmentId := leNat x.segmentId
  offset := leNat x.offset
  size := leNat x.size
  notificationId := leNat x.notificationId

/-- Every field fits its type. -/
structure Fits (d : BufferDescription) : Prop where
  nonneg : 0 ≤ d.rank
  rank : d.rank < 2 ^ 16
  segmentId : d.segmentId < 2 ^ 8
  offset : d.offset < 2 ^ 64
  size : d.size < 2 ^ 64
  notificationId : d.notificationId < 2 ^ 16

/-- What `serialize` stores. -/
def serialize (d : BufferDescription) : List UInt8 := encode .bufferDescription d.raw

/-- `deserialize` from a buffer that holds `bytes`. -/
def deserialize (bytes : List UInt8) : BufferDescription :=
  .ofRaw (Buffer.deserialize gaspi x86_64 byteOrder (fun x => bytes.getD x 0) .bufferDescription
    (Raw.default gaspi .bufferDescription) 0).value

/-- `serialization::size`. -/
def serializedSize : Nat := Buffer.sizeBufferDescription gaspi

theorem raw_valid (d : BufferDescription) : d.raw.Valid gaspi := by
  constructor <;> exact leBytes_length ..

theorem ofRaw_raw {d : BufferDescription} (h : d.Fits) : ofRaw d.raw = d := by
  obtain ⟨rank, segmentId, offset, size, notificationId⟩ := d
  have hrank : ((leNat (leBytes 2 rank.toNat) : Nat) : Int) = rank := by
    rw [leNat_leBytes 2 _ ((Int.toNat_lt' (by decide)).mpr h.rank)]
    exact Int.toNat_of_nonneg h.nonneg
  unfold ofRaw raw
  exact congr (congr (congr (congr (congrArg mk hrank) (leNat_leBytes 1 _ h.segmentId))
    (leNat_leBytes 8 _ h.offset)) (leNat_leBytes 8 _ h.size)) (leNat_leBytes 2 _ h.notificationId)

theorem holds_getD (before bytes rest : List UInt8) :
    Holds (fun x => (before ++ bytes ++ rest).getD x 0) before.length bytes := by
  induction bytes generalizing before with
  | nil => trivial
  | cons b bytes ih =>
    refine ⟨by simp, ?_⟩
    have hnext := ih (before ++ [b])
    simpa using hnext

/-- What was serialized is read back, whatever is behind it in the buffer. -/
theorem deserialize_serialize {d : BufferDescription} (h : d.Fits) (rest : List UInt8) :
    deserialize (d.serialize ++ rest) = d := by
  have hgives : Gives (fun x => (d.serialize ++ rest).getD x 0)
      (Buffer.deserialize gaspi x86_64 byteOrder _ .bufferDescription (Raw.default gaspi .bufferDescription))
      (encode .bufferDescription d.raw) d.raw :=
    Buffer.gives_deserialize (Raw.default gaspi .bufferDescription) trivial d.raw_valid
  unfold deserialize
  rw [hgives 0 (holds_getD [] d.serialize rest)]
  exact ofRaw_raw h

end BufferDescription

/-! ## The segment -/

namespace RecvMessg.Requested

/-- A new buffer. -/
def allocate (N : Requested) (b : Address) : Requested := { N with allocated := insert b N.allocated }

/-- A local `memcpy` to the begin of a buffer. -/
def copy (N : Requested) (b : Address) (bytes : List UInt8) : Requested :=
  { N with memory := Function.update N.memory b (bytes ++ (N.memory b).drop bytes.length) }

/-- `CommunicationContext::write` of some rank to this one. -/
def write (N : Requested) (b : Address) (bytes : List UInt8) : Requested :=
  { N with inFlight := N.inFlight ++ [(b, bytes)] }

end RecvMessg.Requested

namespace Messaging

open Runs RecvMessg

/-! ## The calls of `sendMessg` -/

/-- Where a call is, with the buffers it has. -/
inductive SendPc where
  | sendPassive (tempBuffer : BufferDescription)
  | waitForNotification (tempBuffer : BufferDescription)
  | deserialize (tempBuffer : BufferDescription)
  | memcpy (targetBufferDesc : BufferDescription)
  | write (targetBufferDesc : BufferDescription) (sourceBuffer : Address)
  | flushed (sourceBuffer : Address)
  | returned
  | threw
  /-- The segment refused, before or after the `DATE` was sent. -/
  | refused (announced : Bool)
  deriving DecidableEq, Repr

namespace SendPc

/-- Has the `DATE` been sent? -/
def announced : SendPc → Bool
  | sendPassive _ => false
  | refused announced => announced
  | _ => true

/-- The buffer the call holds. -/
def block : SendPc → Option Address
  | sendPassive d => some d.offset
  | waitForNotification d => some d.offset
  | deserialize d => some d.offset
  | write _ s => some s
  | flushed s => some s
  | _ => none

end SendPc

structure Call where
  sender : Rank
  targetRank : Rank
  pData : List UInt8
  deriving DecidableEq, Repr

def Call.message (c : Call) : Message := ⟨.DATE, c.sender, c.pData⟩

/-- A `DATE` of call `call`. Of the bytes of the message it carries the number. -/
structure Packet where
  call : Nat
  targetRank : Rank
  message : Message
  remoteInfoBufferDesc : BufferDescription
  deriving DecidableEq, Repr

structure State where
  ranks : Rank → RecvMessg.State
  /-- The `DATE` the passive thread of a rank is about to answer. -/
  date : Rank → Option Packet
  calls : List Call
  /-- Where the calls are. -/
  pc : Nat → SendPc
  /-- Sent, and not yet received. -/
  wire : List Packet
  terminated : Rank → Bool

namespace State

/-- After the constructors of all ranks. -/
def constructed (tag size rank : Rank → Int) (allocated : Rank → Finset Address)
    (memory : Rank → Address → List UInt8) : State where
  ranks q := .constructed (tag q) (size q) (rank q) (allocated q) (memory q)
  date _ := none
  calls := []
  pc _ := .returned
  wire := []
  terminated _ := false

variable (S : State)

def segment (r : Rank) : Requested := (S.ranks r).requested

def setSegment (r : Rank) (N : Requested) : State :=
  { S with ranks := Function.update S.ranks r { S.ranks r with requested := N } }

/-- Call `k` goes on. -/
def setPc (k : Nat) (pc : SendPc) : State := { S with pc := Function.update S.pc k pc }

/-- A buffer not yet taken from the segment of `r`. -/
structure New (r : Rank) (size : Nat) (d : BufferDescription) : Prop where
  rank : d.rank = r
  size : d.size = size
  fresh : d.offset ∉ (S.segment r).allocated
  fits : d.Fits

end State

inductive Label where
  | sendMessg (sender targetRank : Rank) (pData : List UInt8)
  /-- The call goes on to `pc`. -/
  | sends (k : Nat) (pc : SendPc)
  | receives (p : Packet)
  | requests (q : Rank)
  /-- A step of the two threads of `RecvMessg` on their own. -/
  | thread (q : Rank) (l : RecvMessg.Label)
  | delivers (r : Rank) (b : Address)
  | throws
  /-- A call of `sendMessg` gets no temporary buffer. -/
  | refused (sender targetRank : Rank) (pData : List UInt8)
  | terminates (q : Rank)
  deriving DecidableEq, Repr

/-- The steps of `RecvMessg` that no other rank is part of. -/
def own : RecvMessg.Label → Bool
  | .receives _ => false
  | .requests _ => false
  | .delivers _ => false
  | _ => true

inductive Step : State → Label → State → Prop where
  | sendMessg (S : State) {sender targetRank : Rank} {pData : List UInt8} {d : BufferDescription}
      (temp : S.New sender BufferDescription.serializedSize d) (alive : S.terminated sender = false) :
      Step S (.sendMessg sender targetRank pData)
        { (S.setSegment sender ((S.segment sender).allocate d.offset)).setPc S.calls.length (.sendPassive d) with
          calls := S.calls ++ [⟨sender, targetRank, pData⟩] }
  | tempRefused (S : State) {sender targetRank : Rank} {pData : List UInt8} (alive : S.terminated sender = false) :
      Step S (.refused sender targetRank pData) S
  | sendPassive (S : State) {k : Nat} {c : Call} {d : BufferDescription} (hc : S.calls[k]? = some c)
      (h : S.pc k = .sendPassive d) (alive : S.terminated c.sender = false) :
      Step S (.sends k (.waitForNotification d))
        { S.setPc k (.waitForNotification d) with
          wire := S.wire ++ [⟨k, c.targetRank, c.message, d⟩] }
  -- the memory of the `DATE` itself; the temporary buffer goes out of scope
  | dateRefused (S : State) {k : Nat} {c : Call} {d : BufferDescription} (hc : S.calls[k]? = some c)
      (h : S.pc k = .sendPassive d) (alive : S.terminated c.sender = false) :
      Step S (.sends k (.refused false))
        ((S.setSegment c.sender ((S.segment c.sender).release (some d.offset))).setPc k (.refused false))
  | waitForNotification (S : State) {k : Nat} {c : Call} {d : BufferDescription} (hc : S.calls[k]? = some c)
      (h : S.pc k = .waitForNotification d) (arrived : (S.segment c.sender).notified d.offset = true)
      (alive : S.terminated c.sender = false) :
      Step S (.sends k (.deserialize d))
        ((S.setSegment c.sender ((S.segment c.sender).waitForNotification d.offset)).setPc k (.deserialize d))
  -- the temporary buffer goes out of scope
  | deserialize (S : State) {k : Nat} {c : Call} {d target : BufferDescription} (hc : S.calls[k]? = some c)
      (h : S.pc k = .deserialize d)
      (read : target = .deserialize ((S.segment c.sender).memory d.offset))
      (alive : S.terminated c.sender = false) :
      Step S (.sends k (.memcpy target))
        ((S.setSegment c.sender ((S.segment c.sender).release (some d.offset))).setPc k (.memcpy target))
  | memcpy (S : State) {k : Nat} {c : Call} {target : BufferDescription} {s : Address}
      (hc : S.calls[k]? = some c) (h : S.pc k = .memcpy target) (fresh : s ∉ (S.segment c.sender).allocated)
      (alive : S.terminated c.sender = false) :
      Step S (.sends k (.write target s))
        ((S.setSegment c.sender (((S.segment c.sender).allocate s).copy s c.pData)).setPc k (.write target s))
  | sourceRefused (S : State) {k : Nat} {c : Call} {target : BufferDescription} (hc : S.calls[k]? = some c)
      (h : S.pc k = .memcpy target) (alive : S.terminated c.sender = false) :
      Step S (.sends k (.refused true)) (S.setPc k (.refused true))
  | write (S : State) {k : Nat} {c : Call} {target : BufferDescription} {s : Address}
      (hc : S.calls[k]? = some c) (h : S.pc k = .write target s) (room : c.pData.length ≤ target.size)
      (alive : S.terminated c.sender = false) :
      Step S (.sends k (.flushed s))
        ((S.setSegment target.rank ((S.segment target.rank).write target.offset
          (((S.segment c.sender).memory s).take c.pData.length))).setPc k (.flushed s))
  | writeThrows (S : State) {k : Nat} {c : Call} {target : BufferDescription} {s : Address}
      (hc : S.calls[k]? = some c) (h : S.pc k = .write target s) (room : target.size < c.pData.length)
      (alive : S.terminated c.sender = false) :
      Step S .throws
        ((S.setSegment c.sender ((S.segment c.sender).release (some s))).setPc k .threw)
  | returns (S : State) {k : Nat} {c : Call} {s : Address} (hc : S.calls[k]? = some c) (h : S.pc k = .flushed s)
      (alive : S.terminated c.sender = false) :
      Step S (.sends k .returned)
        ((S.setSegment c.sender ((S.segment c.sender).release (some s))).setPc k .returned)
  | recvPassive (S : State) {p : Packet} {before after : List Packet} (hw : S.wire = before ++ p :: after)
      (h : (S.ranks p.targetRank).passive = .recvPassive) (alive : S.terminated p.targetRank = false) :
      Step S (.receives p)
        { S with
          ranks := Function.update S.ranks p.targetRank
            { S.ranks p.targetRank with passive := .dispatch p.message }
          date := Function.update S.date p.targetRank (some p)
          wire := before ++ after }
  -- the description goes through a buffer `s` of its own, freed behind the flush
  | request (S : State) {q : Rank} {m : Message} {p : Packet} {d : BufferDescription} {s : Address}
      (h : (S.ranks q).passive = .request m) (hp : S.date q = some p) (new : S.New q m.bytes.length d)
      (fresh : s ∉ insert d.offset (S.segment q).allocated)
      (room : BufferDescription.serializedSize ≤ p.remoteInfoBufferDesc.size) (alive : S.terminated q = false) :
      Step S (.requests q)
        (let S' : State :=
          { S with
            ranks := Function.update S.ranks q
              { S.ranks q with
                passive := .store .tag m d.offset
                requested := ((S.segment q).allocate d.offset).copy s d.serialize } }
        S'.setSegment p.remoteInfoBufferDesc.rank
          ((S'.segment p.remoteInfoBufferDesc.rank).write p.remoteInfoBufferDesc.offset d.serialize))
  | requestThrows (S : State) {q : Rank} {m : Message} {p : Packet}
      (h : (S.ranks q).passive = .request m) (hp : S.date q = some p)
      (room : p.remoteInfoBufferDesc.size < BufferDescription.serializedSize) (alive : S.terminated q = false) :
      Step S .throws { S with terminated := Function.update S.terminated q true }
  -- the memory for the next message, the requested buffer or that of its description
  | passiveRefused (S : State) {q : Rank}
      (h : (S.ranks q).passive = .recvPassive ∨ ∃ m, (S.ranks q).passive = .request m)
      (alive : S.terminated q = false) :
      Step S (.terminates q) { S with terminated := Function.update S.terminated q true }
  | thread (S : State) {q : Rank} {l : RecvMessg.Label} {T : RecvMessg.State}
      (h : RecvMessg.Step (S.ranks q) l T) (hown : own l = true) (alive : S.terminated q = false) :
      Step S (.thread q l) { S with ranks := Function.update S.ranks q T }
  | deliver (S : State) {r : Rank} {before after : List (Address × List UInt8)} {b : Address} {bytes : List UInt8}
      (h : (S.segment r).inFlight = before ++ (b, bytes) :: after) :
      Step S (.delivers r b) (S.setSegment r ((S.segment r).deliver b bytes (before ++ after)))

/-! ## What a run is asked -/

namespace Label

/-- The sizes fit the `int` that they are stored to, and no wait ends without a signal. -/
def Regular : Label → Prop
  | sendMessg _ _ pData => pData.length < 2 ^ 31
  | thread _ l => l.Regular
  | _ => True

/-- The message taken by the passive thread of `q`. -/
def received (q : Rank) : Label → Option Packet
  | receives p => if p.targetRank = q then some p else none
  | _ => none

/-- What a `recvMessg` of `q` returned. -/
def returned (q : Rank) : Label → Option (List UInt8 × Int)
  | thread q' l => if q' = q then l.returned else none
  | _ => none

end Label

def received (q : Rank) (ls : List Label) : List Packet := ls.filterMap (Label.received q)

def returned (q : Rank) (ls : List Label) : List (List UInt8 × Int) := ls.filterMap (Label.returned q)

/-- What the messages of a run come to. -/
structure Delivered (ls : List Label) (S : State) : Prop where
  /-- Each rank's calls of `recvMessg` return what it received, unmodified, in order. -/
  returned : ∀ q, returned q ls <+: (received q ls).map fun p => p.message.result
  /-- That comes from calls of `sendMessg` to this rank, once from each. -/
  sent : ∀ q, ∀ p ∈ received q ls, ∃ c, S.calls[p.call]? = some c ∧ c.targetRank = q ∧ p.message = c.message
  once : ∀ q, ((received q ls).map Packet.call).Nodup
  /-- Nothing is received of a call that was refused before it announced its message. -/
  announced : ∀ q, ∀ p ∈ received q ls, (S.pc p.call).announced = true
  /-- A message that is announced is on the wire or has been received. -/
  kept : ∀ k c, S.calls[k]? = some c → (S.pc k).announced = true →
    (∃ p ∈ S.wire, p.call = k) ∨ ∃ p ∈ received c.targetRank ls, p.call = k
  /-- What `sendMessg` has returned for has been received, and is in the buffer or on its way there. -/
  done : ∀ k c, S.calls[k]? = some c → S.pc k = .returned → ∃ p ∈ received c.targetRank ls, p.call = k
  /-- No write is on its way to memory that has been freed. -/
  live : ∀ r, ∀ op ∈ (S.segment r).inFlight, op.1 ∈ (S.segment r).allocated
  /-- But for the refusals nothing is thrown, and no null pointer is followed. -/
  throws : .throws ∉ ls ∧ ∀ q, .thread q .throws ∉ ls
  crashed : ∀ q, (S.ranks q).user ≠ .crashed

end Messaging

end GaspiCxx.Passive
