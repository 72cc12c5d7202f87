import GaspiCxx.OneSided.Schedule
import GaspiCxx.Passive.Exchange
import GaspiCxx.Serialization.Buffer

/-!
# Connecting endpoints (`Endpoint::connectToRemotePartner`)

An endpoint sends its description to its partner and waits for the partner's:
two tagged messages in opposite directions, whose tags are told apart by the
type of the endpoint. A `Half` is one side of a connection; `connect`, the two
posts and the two waits of `ConnectHandle::waitForCompletion` are the positions
of its program, which any number of halves of any number of ranks run at once,
each as often as it likes. A half starts again only when it is through: that is
all that is asked of the calls.

`locals` and `remotes` record the local descriptions a half was connected with
and the remote descriptions `setRemotePartner` was called with, in order.
-/

namespace GaspiCxx.SingleSided.Connect

open OneSided Passive

/-- `Endpoint::Type`. -/
inductive EndpointType where
  | SOURCE
  | TARGET
  | GENERIC
  deriving DecidableEq, Repr

/-- The type an endpoint connects to. -/
def EndpointType.dual : EndpointType → EndpointType
  | .SOURCE => .TARGET
  | .TARGET => .SOURCE
  | .GENERIC => .GENERIC

/-- What tells the send tags of one `Endpoint::Tag` apart. -/
def EndpointType.code : EndpointType → Int
  | .SOURCE => 1
  | .TARGET => 2
  | .GENERIC => 0

theorem EndpointType.code_bounds (type : EndpointType) : 0 ≤ type.code ∧ type.code ≤ 2 := by
  cases type <;> decide

theorem EndpointType.code_inj {type type' : EndpointType} (h : type.code = type'.code) : type = type' := by
  cases type <;> cases type' <;> first | rfl | cases h

/-- `Endpoint::Tag`: an `int`. -/
abbrev EndpointTag := { t : Int // -2 ^ 31 ≤ t ∧ t < 2 ^ 31 }

/-- `sendTag` and `recvTag`; `Passive::Tag` is a `long`. -/
def connectTags (type : EndpointType) (tag : EndpointTag) : Except String (Tag × Tag) :=
  if tag.val ≥ (2 ^ 63 - 1) / 3 then .error "tag out of bounds"
  else
    match type with
    | .SOURCE => .ok (3 * tag.val + 1, 3 * tag.val + 2)
    | .TARGET => .ok (3 * tag.val + 2, 3 * tag.val + 1)
    | .GENERIC => .ok (3 * tag.val + 0, 3 * tag.val + 0)

/-- One side of a connection. `peer` is `group.toGlobalRank(rank)`, of a rank the
group contains: otherwise the call throws before it does anything. -/
structure Half where
  rank : Rank
  peer : Rank
  type : EndpointType
  tag : EndpointTag
  deriving DecidableEq

namespace Half

/-- The other side. -/
def dual (h : Half) : Half := ⟨h.peer, h.rank, h.type.dual, h.tag⟩

def sendTag (h : Half) : Tag := 3 * h.tag.val + h.type.code

@[simp] theorem dual_dual (h : Half) : h.dual.dual = h := by
  obtain ⟨rank, peer, type, tag⟩ := h
  cases type <;> rfl

theorem dual_eq_iff {g h : Half} : g.dual = h ↔ g = h.dual := by
  constructor
  · rintro rfl; exact (dual_dual g).symm
  · rintro rfl; exact dual_dual h

@[simp] theorem dual_rank (h : Half) : h.dual.rank = h.peer := rfl

@[simp] theorem dual_peer (h : Half) : h.dual.peer = h.rank := rfl

/-- No tag is out of bounds, and what a half receives is what its dual sends. -/
theorem connectTags_eq (h : Half) : connectTags h.type h.tag = .ok (h.sendTag, h.dual.sendTag) := by
  obtain ⟨rank, peer, type, tag, hlo, hhi⟩ := h
  unfold connectTags
  rw [if_neg (by simp only [ge_iff_le, not_le]; omega)]
  cases type <;> simp [sendTag, dual, EndpointType.dual, EndpointType.code]

/-- A rank, a peer and a send tag are those of one half. -/
theorem sendTag_inj {g h : Half} (hr : g.rank = h.rank) (hp : g.peer = h.peer) (ht : g.sendTag = h.sendTag) :
    g = h := by
  have hg := g.type.code_bounds
  have hh := h.type.code_bounds
  have ht : 3 * g.tag.val + g.type.code = 3 * h.tag.val + h.type.code := ht
  have htag : g.tag = h.tag := Subtype.ext (by omega)
  have htype : g.type = h.type := EndpointType.code_inj (by omega)
  obtain ⟨rank, peer, type, tag⟩ := g
  simp only at hr hp htag htype
  subst hr hp htag htype
  rfl

end Half

/-- `serialization::size` of a description. -/
def descriptionSize (D : Serialization.Typedefs) : Nat := Serialization.Buffer.sizeBufferDescription D

theorem descriptionSize_pos (D : Serialization.Typedefs) : 0 < descriptionSize D := by
  have := D.gaspi_rank_t.sizeof_pos
  unfold descriptionSize Serialization.Buffer.sizeBufferDescription
  omega

/-- The channel of a half leads from it to its dual. -/
def layout (D : Serialization.Typedefs) : Layout Half Empty where
  sender h := h.rank
  key h := ⟨h.sendTag, h.peer⟩
  home := nofun
  size := descriptionSize D
  size_pos := descriptionSize_pos D
  inj _ _ hr hk := Half.sendTag_inj hr (congrArg Key.rank hk) (congrArg Key.tag hk)

structure State where
  /-- The thread `some h` runs half `h`, `none` is the passive thread. -/
  net : Net (Option Half) BufferDescription Empty
  /-- The two buffers of a `ConnectHandle`: `send h` and `recv h.dual`. -/
  held : Port Half Empty → Option BufferDescription
  progress : Half → Progress
  locals : Half → List BufferDescription
  remotes : Half → List BufferDescription
  /-- What else the ranks have taken from their segments. -/
  others : Rank → Finset Slot
  otherBlocks : Rank → Finset Block

/-- The positions of a half's program. -/
def length : Nat := 6

def State.initial (live : Rank → Finset Slot) (allocated : Rank → Finset Block)
    (memory : Rank × Block → BufferDescription) : State where
  net := Net.quiet live allocated memory
  held _ := none
  progress _ := ⟨0, 0⟩
  locals _ := []
  remotes _ := []
  others := live
  otherBlocks := allocated

/-- A new buffer of rank `r`: its notification id and its block were not taken. -/
structure Fresh (D : Serialization.Typedefs) (s : State) (r : Rank) (d : BufferDescription) : Prop where
  rank : d.rank = r
  size : d.size = descriptionSize D
  slot : d.slot ∉ s.net.live r
  block : d.block ∉ s.net.allocated r

/-- Half `h` is at position `i`, and its thread is not inside `iSendRecvComm`. -/
structure At (s : State) (h : Half) (i : Nat) : Prop where
  steps : (s.progress h).steps = i
  free : s.net.Free h.rank (some h)

inductive Step (D : Serialization.Typedefs) : State → State → Prop where
  /-- `connectToRemotePartner`: the local description goes into a new send buffer. -/
  | connect (s : State) (h : Half) (localDesc d : BufferDescription) (hat : At s h 0) (hd : Fresh D s h.rank d) :
      Step D s
        { s with
          net := (s.net.newBuffer d).serialize d localDesc
          held := Function.update s.held (.send h) (some d)
          progress := Progress.tick length s.progress h
          locals := Function.update s.locals h (s.locals h ++ [localDesc]) }
  | iSendTagMessg (s : State) (h : Half) (d : BufferDescription) (sendTag recvTag : Tag) (hat : At s h 1)
      (hd : s.held (.send h) = some d) (ht : connectTags h.type h.tag = .ok (sendTag, recvTag)) :
      Step D s
        { s with
          net := s.net.iSendTagMessg h.rank (some h) h.peer sendTag d
          progress := Progress.tick length s.progress h }
  | newRecvBuffer (s : State) (h : Half) (d : BufferDescription) (hat : At s h 2) (hd : Fresh D s h.rank d) :
      Step D s
        { s with
          net := s.net.newBuffer d
          held := Function.update s.held (.recv h.dual) (some d)
          progress := Progress.tick length s.progress h }
  /-- Then the `ConnectHandle` is returned. -/
  | iRecvTagMessg (s : State) (h : Half) (d : BufferDescription) (sendTag recvTag : Tag) (hat : At s h 3)
      (hd : s.held (.recv h.dual) = some d) (ht : connectTags h.type h.tag = .ok (sendTag, recvTag)) :
      Step D s
        { s with
          net := s.net.iRecvTagMessg h.rank (some h) h.peer recvTag d
          progress := Progress.tick length s.progress h }
  /-- `waitForCompletion`: `_pRecvBuffer->waitForNotification`, `deserialize` and `setRemotePartner`. -/
  | waitRecv (s : State) (h : Half) (d : BufferDescription) (net : Net (Option Half) BufferDescription Empty)
      (hat : At s h 4) (hd : s.held (.recv h.dual) = some d) (hN : s.net.waitForNotification d = some net) :
      Step D s
        { s with
          net := net
          progress := Progress.tick length s.progress h
          remotes := Function.update s.remotes h (s.remotes h ++ [net.deserialize d]) }
  /-- `_pSendBuffer->waitForNotification`: the call is over. The handle keeps its
  buffers until it is destroyed. -/
  | waitSend (s : State) (h : Half) (d e : BufferDescription) (net : Net (Option Half) BufferDescription Empty)
      (hat : At s h 5) (hd : s.held (.send h) = some d) (he : s.held (.recv h.dual) = some e)
      (hN : s.net.waitForNotification d = some net) :
      Step D s
        { s with
          net := net
          held := Function.update (Function.update s.held (.send h) none) (.recv h.dual) none
          progress := Progress.tick length s.progress h
          others := insertAt (insertAt s.others d.rank d.slot) e.rank e.slot
          otherBlocks := insertAt (insertAt s.otherBlocks d.rank d.block) e.rank e.block }
  /-- The passive threads, the threads inside `iSendRecvComm`, the network. -/
  | net (s : State) (net : Net (Option Half) BufferDescription Empty) (hN : Net.Step none s.net net) :
      Step D s { s with net := net }
  /-- Endpoints, and anything else, take from the segments. -/
  | acquire_notification (s : State) (r : Rank) (x : Slot) (hx : x ∉ s.net.live r) :
      Step D s { s with net := { s.net with live := insertAt s.net.live r x }, others := insertAt s.others r x }
  | allocate (s : State) (r : Rank) (b : Block) (hb : b ∉ s.net.allocated r) :
      Step D s
        { s with
          net := { s.net with allocated := insertAt s.net.allocated r b }
          otherBlocks := insertAt s.otherBlocks r b }
  /-- Handles, endpoints, and anything else, give back. -/
  | release_notification (s : State) (r : Rank) (x : Slot) (hx : x ∈ s.others r) :
      Step D s { s with net := { s.net with live := eraseAt s.net.live r x }, others := eraseAt s.others r x }
  | deallocate (s : State) (r : Rank) (b : Block) (hb : b ∈ s.otherBlocks r) :
      Step D s
        { s with
          net := { s.net with allocated := eraseAt s.net.allocated r b }
          otherBlocks := eraseAt s.otherBlocks r b }

/-- Reachable from a start at which nothing is going on. -/
def Reachable (D : Serialization.Typedefs) (s : State) : Prop :=
  ∃ live allocated memory, Relation.ReflTransGen (Step D) (State.initial live allocated memory) s

end GaspiCxx.SingleSided.Connect
