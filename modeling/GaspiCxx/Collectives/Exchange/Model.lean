import GaspiCxx.Collectives.Exchange.Program
import GaspiCxx.Collectives.Exchange.Regions
import GaspiCxx.Passive.Exchange
import GaspiCxx.Serialization.Buffer

/-!
# Exchanging data over descriptions sent first

The members of a group call `alltoall`, `alltoallv`, `allgather` or `allgatherv`
again and again: the `k`-th call of all of them together is `calls k`. Inside a
call a member runs its program (`Instr`) while the passive threads, the threads
inside `iSendRecvComm` and the network do their part. Outside, a rank may change
its memory and take from its segments as it likes; inside it may not.

A user's write is on its way twice: posted, with the source still to be read, and
then with the bytes that were read. The blocks of buffers are kept in the net and
not in the `Memory` of a rank, as allocated blocks have no byte in common with the
data.

`supplied` and `returned` record what a member's memory and segments were when it
entered and left its calls, in order.
-/

namespace GaspiCxx.Collectives.Exchange

open OneSided Passive

/-- The members' ranks. -/
structure Group (n : Nat) where
  toGlobalRank : Fin n → Rank
  inj : ∀ p q, toGlobalRank p = toGlobalRank q → p = q

/-- An entry of a member's `localSourceDescriptions` or `localTargetDescriptions`. -/
structure Local (n : Nat) where
  side : Side
  member : Fin n
  i : Fin n
  deriving DecidableEq

/-- The user thread and the passive thread of a rank. -/
inductive Thread where
  | user
  | passive
  deriving DecidableEq, Repr

/-- A write on its way: posted, or with the bytes of its source. -/
inductive Data where
  | posted (source target : BufferDescription)
  | bytes (target : BufferDescription) (data : List UInt8)
  deriving DecidableEq, Repr

variable {n : Nat}

/-- Channel `(p, q)` takes what `p` tells `q`: its target and its source description for `q`. -/
abbrev Descriptions := BufferDescription × BufferDescription

abbrev Handle (n : Nat) := Port (Fin n × Fin n) (Local n)

abbrev ExchangeNet := Net Thread Descriptions Data

/-- `CommunicationContext::write`. -/
def ExchangeNet.write (N : ExchangeNet) (source target : BufferDescription) : ExchangeNet :=
  match Passive.write source target (.user (.posted source target)) with
  | .ok op => N.post target op
  | .error what => N.throw what

/-- `serialization::size(localTargetDescriptions[i]) + serialization::size(localSourceDescriptions[i])`. -/
def descriptionsSize (D : Serialization.Typedefs) : Nat :=
  Serialization.Buffer.sizeBufferDescription D + Serialization.Buffer.sizeBufferDescription D

theorem descriptionsSize_pos (D : Serialization.Typedefs) : 0 < descriptionsSize D := by
  have := D.gaspi_rank_t.sizeof_pos
  unfold descriptionsSize Serialization.Buffer.sizeBufferDescription
  omega

/-- The tag is the rank of the sender in the group. -/
def layout (D : Serialization.Typedefs) (group : Group n) : Layout (Fin n × Fin n) (Local n) where
  sender c := group.toGlobalRank c.1
  key c := ⟨(c.1.val : Int), group.toGlobalRank c.2⟩
  home q := group.toGlobalRank q.member
  size := descriptionsSize D
  size_pos := descriptionsSize_pos D
  inj _ _ hr hk := Prod.ext (group.inj _ _ hr) (group.inj _ _ (congrArg Key.rank hk))

/-- The part of memory a description is about. -/
def part (d : BufferDescription) : Part := ⟨d.segmentId, d.offset, d.size⟩

/-- The part a member's description is about. -/
def Call.part (c : Call n) (q : Local n) : Part :=
  match q.side with
  | .source => c.source q.member q.i
  | .target => c.target q.member q.i

/-- The channel on which member `m` is in the given role towards member `i`. -/
def channel : Role → Fin n → Fin n → Fin n × Fin n
  | .src, m, i => (m, i)
  | .rcv, m, i => (i, m)

/-- `descriptionSendBuffers[i]` and `descriptionRecvBuffers[i]` of member `m`. -/
def buffer (role : Role) (m i : Fin n) : Handle n := role.port (channel role m i)

/-- What a rank has: its memory, and what is taken from its segments. -/
structure Snapshot where
  memory : Memory
  live : Finset Slot
  allocated : Finset Block

structure State (n : Nat) where
  net : ExchangeNet
  memory : Rank → Memory
  held : Handle n → Option BufferDescription
  /-- `remoteTargetDescriptions[i]` and `remoteSourceDescriptions[i]` of a member. -/
  remote : Fin n × Fin n → Descriptions
  progress : Fin n → Progress
  supplied : Fin n → List Snapshot
  returned : Fin n → List Snapshot
  /-- What else the ranks have taken from their segments. -/
  others : Rank → Finset Slot
  otherBlocks : Rank → Finset Block

namespace State

def initial (live : Rank → Finset Slot) (allocated : Rank → Finset Block)
    (blocks : Rank × Block → Descriptions) (memory : Rank → Memory) (remote : Fin n × Fin n → Descriptions) :
    State n where
  net := Net.quiet live allocated blocks
  memory := memory
  held _ := none
  remote := remote
  progress _ := ⟨0, 0⟩
  supplied _ := []
  returned _ := []
  others := live
  otherBlocks := allocated

def snapshot (s : State n) (r : Rank) : Snapshot := ⟨s.memory r, s.net.live r, s.net.allocated r⟩

end State

section

variable (D : Serialization.Typedefs) (group : Group n) (s : State n)

/-- Member `m` is at `I`, and its thread is not inside `iSendRecvComm`. -/
structure At (m : Fin n) (I : Instr n) : Prop where
  steps : (s.progress m).steps = I.position
  free : s.net.Free (group.toGlobalRank m) .user

/-- No member of that rank is inside a call. -/
def Outside (r : Rank) : Prop := ∀ m, group.toGlobalRank m = r → (s.progress m).steps = 0

/-- `flush`: no write of rank `r` has its source still to be read. -/
def Flushed (r : Rank) : Prop :=
  ∀ a source target, .user (.posted source target) ∈ s.net.flight a → source.rank ≠ r

/-- A description of a part, with a notification that was not taken. -/
structure Described (r : Rank) (P : Part) (d : BufferDescription) : Prop where
  rank : d.rank = r
  part : part d = P
  slot : d.slot ∉ s.net.live r

/-- A new buffer for two descriptions. -/
structure Fresh (r : Rank) (d : BufferDescription) : Prop where
  rank : d.rank = r
  size : d.size = descriptionsSize D
  slot : d.slot ∉ s.net.live r
  block : d.block ∉ s.net.allocated r

end

/-- Member `m` goes on. -/
def State.tick (s : State n) (m : Fin n) : State n :=
  { s with progress := Progress.tick (length n) s.progress m }

inductive Step (D : Serialization.Typedefs) (group : Group n) (calls : Nat → Call n) : State n → State n → Prop where
  | enter (s : State n) (m : Fin n) (hat : At group s m .enter) :
      Step D group calls s
        { s.tick m with
          supplied := Function.update s.supplied m (s.supplied m ++ [s.snapshot (group.toGlobalRank m)]) }
  | acquire_notification (s : State n) (m i : Fin n) (side : Side) (d : BufferDescription)
      (hat : At group s m (.acquire_notification side i))
      (hd : Described s (group.toGlobalRank m) ((calls (s.progress m).run).part ⟨side, m, i⟩) d) :
      Step D group calls s
        { s.tick m with
          net := s.net.acquire_notification d
          held := Function.update s.held (.other ⟨side, m, i⟩) (some d) }
  | newBuffer (s : State n) (m i : Fin n) (role : Role) (d : BufferDescription)
      (hat : At group s m (.newBuffer role i)) (hd : Fresh D s (group.toGlobalRank m) d) :
      Step D group calls s
        { s.tick m with
          net := s.net.newBuffer d
          held := Function.update s.held (buffer role m i) (some d) }
  | serialize (s : State n) (m i : Fin n) (d localTarget localSource : BufferDescription)
      (hat : At group s m (.serialize i)) (hd : s.held (buffer .src m i) = some d)
      (ht : s.held (.other ⟨.target, m, i⟩) = some localTarget)
      (hs : s.held (.other ⟨.source, m, i⟩) = some localSource) :
      Step D group calls s { s.tick m with net := s.net.serialize d (localTarget, localSource) }
  | iSendTagMessg (s : State n) (m i : Fin n) (d : BufferDescription) (hat : At group s m (.post .src i))
      (hd : s.held (buffer .src m i) = some d) :
      Step D group calls s
        { s.tick m with
          net := s.net.iSendTagMessg (group.toGlobalRank m) .user (group.toGlobalRank i) (m.val : Int) d }
  | iRecvTagMessg (s : State n) (m i : Fin n) (d : BufferDescription) (hat : At group s m (.post .rcv i))
      (hd : s.held (buffer .rcv m i) = some d) :
      Step D group calls s
        { s.tick m with
          net := s.net.iRecvTagMessg (group.toGlobalRank m) .user (group.toGlobalRank i) (i.val : Int) d }
  | waitRecv (s : State n) (m i : Fin n) (d : BufferDescription) (net : ExchangeNet)
      (hat : At group s m (.waitForNotification .rcv i)) (hd : s.held (buffer .rcv m i) = some d)
      (hN : s.net.waitForNotification d = some net) :
      Step D group calls s
        { s.tick m with
          net := net
          remote := Function.update s.remote (m, i) (net.deserialize d) }
  | waitSend (s : State n) (m i : Fin n) (d : BufferDescription) (net : ExchangeNet)
      (hat : At group s m (.waitForNotification .src i)) (hd : s.held (buffer .src m i) = some d)
      (hN : s.net.waitForNotification d = some net) :
      Step D group calls s { s.tick m with net := net }
  | deleteBuffer (s : State n) (m i : Fin n) (role : Role) (d : BufferDescription)
      (hat : At group s m (.deleteBuffer role i)) (hd : s.held (buffer role m i) = some d) :
      Step D group calls s
        { s.tick m with
          net := s.net.deleteBuffer d
          held := Function.update s.held (buffer role m i) none }
  | write (s : State n) (m i : Fin n) (localSource : BufferDescription) (hat : At group s m (.write i))
      (hs : s.held (.other ⟨.source, m, i⟩) = some localSource) :
      Step D group calls s
        { s.tick m with
          net := s.net.write localSource (s.remote (m, i)).1 }
  | waitForBufferNotification (s : State n) (m i : Fin n) (side : Side) (d : BufferDescription) (net : ExchangeNet)
      (hat : At group s m (.waitForBufferNotification side i)) (hd : s.held (.other ⟨side, m, i⟩) = some d)
      (hN : s.net.waitForNotification d = some net) :
      Step D group calls s { s.tick m with net := net }
  | notify (s : State n) (m i : Fin n) (hat : At group s m (.notify i)) :
      Step D group calls s { s.tick m with net := s.net.notify (s.remote (m, i)).2 }
  | release_notification (s : State n) (m i : Fin n) (side : Side) (d : BufferDescription)
      (hat : At group s m (.release_notification side i)) (hd : s.held (.other ⟨side, m, i⟩) = some d) :
      Step D group calls s
        { s.tick m with
          net := s.net.release_notification d
          held := Function.update s.held (.other ⟨side, m, i⟩) none }
  | leave (s : State n) (m : Fin n) (hat : At group s m .leave) (hflush : Flushed s (group.toGlobalRank m)) :
      Step D group calls s
        { s.tick m with
          returned := Function.update s.returned m (s.returned m ++ [s.snapshot (group.toGlobalRank m)]) }
  /-- The passive threads, the threads inside `iSendRecvComm`, the network. -/
  | net (s : State n) (net : ExchangeNet) (hN : Net.Step .passive s.net net) :
      Step D group calls s { s with net := net }
  /-- The source of a write is read. -/
  | fetch (s : State n) (a : Rank × Slot) (source target : BufferDescription)
      (before after : List (Op Descriptions Data))
      (h : s.net.flight a = before ++ .user (.posted source target) :: after) :
      Step D group calls s
        { s with
          net := { s.net with
            flight := Function.update s.net.flight a
              (before ++ .user (.bytes target ((s.memory source.rank).read (part source))) :: after) } }
  /-- The bytes of a write reach its target. -/
  | store (s : State n) (a : Rank × Slot) (target : BufferDescription) (data : List UInt8)
      (before after : List (Op Descriptions Data))
      (h : s.net.flight a = before ++ .user (.bytes target data) :: after) :
      Step D group calls s
        { s with
          memory := Function.update s.memory target.rank
            ((s.memory target.rank).write ⟨target.segmentId, target.offset, data.length⟩ data)
          net := { s.net with flight := Function.update s.net.flight a (before ++ .bare :: after) } }
  /-- What a rank does outside its calls. -/
  | compute (s : State n) (r : Rank) (memory : Memory) (hout : Outside group s r) :
      Step D group calls s { s with memory := Function.update s.memory r memory }
  | take (s : State n) (r : Rank) (x : Slot) (hout : Outside group s r) (hx : x ∉ s.net.live r) :
      Step D group calls s
        { s with net := { s.net with live := insertAt s.net.live r x }, others := insertAt s.others r x }
  | allocate (s : State n) (r : Rank) (b : Block) (hout : Outside group s r) (hb : b ∉ s.net.allocated r) :
      Step D group calls s
        { s with
          net := { s.net with allocated := insertAt s.net.allocated r b }
          otherBlocks := insertAt s.otherBlocks r b }
  | giveBack (s : State n) (r : Rank) (x : Slot) (hout : Outside group s r) (hx : x ∈ s.others r) :
      Step D group calls s
        { s with net := { s.net with live := eraseAt s.net.live r x }, others := eraseAt s.others r x }
  | deallocate (s : State n) (r : Rank) (b : Block) (hout : Outside group s r) (hb : b ∈ s.otherBlocks r) :
      Step D group calls s
        { s with
          net := { s.net with allocated := eraseAt s.net.allocated r b }
          otherBlocks := eraseAt s.otherBlocks r b }

/-- Reachable from a start at which nothing is going on. -/
def Reachable (D : Serialization.Typedefs) (group : Group n) (calls : Nat → Call n) (s : State n) : Prop :=
  ∃ live allocated blocks memory remote,
    Relation.ReflTransGen (Step D group calls) (State.initial live allocated blocks memory remote) s

end GaspiCxx.Collectives.Exchange
