import GaspiCxx.Passive.Messaging.Segment
import GaspiCxx.Runs.Ownership

/-!
# The invariant of the messages

A rank's passive thread answers one `DATE` at a time: `Service` says which, and
how far it has got (`Phase`), from the request of the buffer to the arrival of the
bytes. The `DATE` and the call it comes from tell the rest: which buffer of the
sender waits for the description, and where the call is meanwhile
(`Phase.Agrees`). Towards the hand-over the two are one operation on its way to
the requested buffer (`coming`).
-/

namespace GaspiCxx.Passive.Messaging

open Runs RecvMessg

/-- How far the answer to a `DATE` is, with the description of the requested buffer. -/
inductive Phase where
  | inHand
  /-- the description is on its way -/
  | replied (d : BufferDescription)
  /-- it is in the temporary buffer -/
  | told (d : BufferDescription)
  /-- the call has read it -/
  | known (d : BufferDescription)
  /-- the bytes are on their way -/
  | flying (d : BufferDescription)

namespace Phase

def buffer : Phase → Option BufferDescription
  | inHand => none
  | replied d => some d
  | told d => some d
  | known d => some d
  | flying d => some d

/-- Where the call with this temporary buffer is. -/
def Agrees (temp : BufferDescription) : Phase → SendPc → Prop
  | inHand, pc => pc = .waitForNotification temp
  | replied _, pc => pc = .waitForNotification temp
  | told _, pc => pc = .waitForNotification temp ∨ pc = .deserialize temp
  | known d, pc => pc = .memcpy d ∨ (∃ s, pc = .write d s) ∨ pc = .refused true
  | flying _, pc => (∃ s, pc = .flushed s) ∨ pc = .returned

end Phase

/-- The `DATE` a rank's passive thread answers, until the bytes have arrived. -/
abbrev Service := Rank → Option (Packet × Phase)

/-- What the hand-over has coming. -/
def coming : Option (Packet × Phase) → List (Address × List UInt8)
  | some (p, ph) =>
    match ph.buffer with
    | some d => [(d.offset, p.message.bytes)]
    | none => []
  | none => []

theorem coming_of_buffer {p : Packet} {ph : Phase} {d : BufferDescription} (h : ph.buffer = some d) :
    coming (some (p, ph)) = [(d.offset, p.message.bytes)] := by
  unfold coming
  dsimp only
  rw [h]

/-- Does the call need the answer? -/
def SendPc.served : SendPc → Bool
  | waitForNotification _ => true
  | deserialize _ => true
  | memcpy _ => true
  | write _ _ => true
  | _ => false

namespace State

variable (S : State)

/-- The buffers held in the segment of `r`: by the calls, and by its passive thread. -/
def block (r : Rank) : Option Nat → Option Address
  | some k =>
    match S.calls[k]? with
    | some c => if c.sender = r then (S.pc k).block else none
    | none => none
  | none => (S.ranks r).held

/-- `p` is a `DATE` of call `c`. -/
structure Of (p : Packet) (c : Call) : Prop where
  call : S.calls[p.call]? = some c
  targetRank : p.targetRank = c.targetRank
  message : p.message = c.message
  rank : p.remoteInfoBufferDesc.rank = c.sender
  size : p.remoteInfoBufferDesc.size = BufferDescription.serializedSize

variable {S} {r : Rank} {k : Nat} {c : Call} {a : Address} {pc : SendPc} {N : Requested}

theorem block_call (hc : S.calls[k]? = some c) : S.block c.sender (some k) = (S.pc k).block := by
  unfold block
  dsimp only
  rw [hc]
  exact if_pos rfl

theorem block_setPc (hc : S.calls[k]? = some c) :
    (S.setPc k pc).block c.sender = Function.update (S.block c.sender) (some k) pc.block := by
  funext o
  by_cases ho : o = some k
  · subst ho
    rw [Function.update_self]
    refine (block_call (S := S.setPc k pc) hc).trans ?_
    exact congrArg SendPc.block (Function.update_self ..)
  · rw [Function.update_of_ne ho]
    cases o with
    | none => rfl
    | some j =>
      have hj : j ≠ k := fun h => ho (congrArg some h)
      have hpc : (S.setPc k pc).pc j = S.pc j := Function.update_of_ne hj ..
      unfold block
      dsimp only
      rw [hpc]
      rfl

theorem block_setPc_of_ne (hc : S.calls[k]? = some c) (hr : r ≠ c.sender) :
    (S.setPc k pc).block r = S.block r := by
  funext o
  cases o with
  | none => rfl
  | some j =>
    by_cases hj : j = k
    · subst hj
      have hc' : (S.setPc j pc).calls[j]? = some c := hc
      unfold block
      dsimp only
      rw [hc, hc']
      dsimp only
      rw [if_neg (Ne.symm hr), if_neg (Ne.symm hr)]
    · have hpc : (S.setPc k pc).pc j = S.pc j := Function.update_of_ne hj ..
      unfold block
      dsimp only
      rw [hpc]
      rfl

/-- The call keeps its buffer. -/
theorem block_setPc_same (hc : S.calls[k]? = some c) (h : pc.block = (S.pc k).block) (r : Rank) :
    (S.setPc k pc).block r = S.block r := by
  by_cases hr : r = c.sender
  · subst hr
    rw [block_setPc hc, h, ← block_call hc, Function.update_eq_self]
  · exact block_setPc_of_ne hc hr

theorem ranks_setSegment_self (S : State) (r : Rank) (N : Requested) :
    (S.setSegment r N).ranks r = { S.ranks r with requested := N } := Function.update_self ..

theorem ranks_setSegment_of_ne {r' : Rank} (h : r' ≠ r) : (S.setSegment r N).ranks r' = S.ranks r' :=
  Function.update_of_ne h ..

@[simp] theorem segment_setSegment (S : State) (r : Rank) (N : Requested) : (S.setSegment r N).segment r = N :=
  congrArg RecvMessg.State.requested (S.ranks_setSegment_self r N)

theorem segment_setSegment_of_ne {r' : Rank} (h : r' ≠ r) : (S.setSegment r N).segment r' = S.segment r' :=
  congrArg RecvMessg.State.requested (ranks_setSegment_of_ne h)

theorem setSegment_segment (S : State) (r : Rank) : S.setSegment r (S.segment r) = S := by
  unfold setSegment segment
  rw [Function.update_eq_self]

/-- What the new segment has in common with the old one. -/
theorem setSegment_same {α : Type} (f : Requested → α) (h : f N = f (S.segment r)) (q : Rank) :
    f ((S.setSegment r N).segment q) = f (S.segment q) := by
  by_cases hq : q = r
  · rw [hq, segment_setSegment, h]
  · rw [segment_setSegment_of_ne hq]

/-- Only segments change. -/
theorem ranks_setSegment (S : State) (r : Rank) (N : Requested) (q : Rank) :
    ∃ N', (S.setSegment r N).ranks q = { S.ranks q with requested := N' } := by
  by_cases hq : q = r
  · exact ⟨N, hq ▸ S.ranks_setSegment_self r N⟩
  · exact ⟨(S.ranks q).requested, ranks_setSegment_of_ne hq⟩

theorem setSegment_pc (S : State) (r : Rank) (N : Requested) : (S.setSegment r N).pc = S.pc := rfl

@[simp] theorem setSegment_held (S : State) (r r' : Rank) (N : Requested) :
    ((S.setSegment r N).ranks r').held = (S.ranks r').held := by
  by_cases h : r' = r
  · subst h
    rw [ranks_setSegment_self]
    rfl
  · rw [ranks_setSegment_of_ne h]

@[simp] theorem block_setSegment (S : State) (r : Rank) (N : Requested) : (S.setSegment r N).block = S.block := by
  funext r' o
  cases o with
  | none => exact S.setSegment_held r r' N
  | some k => rfl

end State

/-- The hand-over's part of rank `q`: the segment without the buffers of the calls. -/
structure Sees (V : Service) (S : State) (q : Rank) (N : Requested) : Prop where
  memory : N.memory = (S.segment q).memory
  inFlight : N.inFlight = coming (V q)
  notified : ∀ a, N.notified a = true ↔ (S.segment q).notified a = true ∧ ∀ k, S.block q (some k) ≠ some a

/-- What may be on its way to `r`: a description, or the bytes of a message. -/
def Flight (V : Service) (r : Rank) (op : Address × List UInt8) : Prop :=
  (∃ q p d, V q = some (p, .replied d) ∧ p.remoteInfoBufferDesc.rank = r ∧
    op = (p.remoteInfoBufferDesc.offset, d.serialize)) ∨
  ∃ p d, V r = some (p, .flying d) ∧ op = (d.offset, p.message.bytes)

/-- The messages on the wire and received, against the calls. -/
structure Posted (D : Rank → List Packet) (S : State) : Prop where
  wire : ∀ p ∈ S.wire, ∃ c, S.Of p c ∧ S.pc p.call = .waitForNotification p.remoteInfoBufferDesc
  received : ∀ q, ∀ p ∈ D q, p.targetRank = q ∧ (∃ c, S.Of p c) ∧ (S.pc p.call).announced = true
  once : ∀ q, ((S.wire ++ D q).map Packet.call).Nodup
  kept : ∀ k c, S.calls[k]? = some c → (S.pc k).announced = true →
    (∃ p ∈ S.wire, p.call = k) ∨ ∃ p ∈ D c.targetRank, p.call = k

/-- `D q` has been received by `q`, and `R q` returned. -/
structure Inv (D : Rank → List Packet) (R : Rank → List (List UInt8 × Int)) (V : Service) (S : State) : Prop where
  posted : Posted D S
  hand : ∀ q, ∃ N n i, RecvMessg.Inv ((D q).map Packet.message) (R q) n i { S.ranks q with requested := N } ∧
    Sees V S q N
  owns : ∀ r, Owns (S.segment r).allocated (S.block r)
  served : ∀ q p ph, V q = some (p, ph) → p ∈ D q ∧ ph.Agrees p.remoteInfoBufferDesc (S.pc p.call) ∧
    ∀ d, ph.buffer = some d → d.rank = q ∧ d.size = p.message.bytes.length ∧ d.Fits
  serving : ∀ k c, S.calls[k]? = some c → (S.pc k).served = true →
    (∃ p ∈ S.wire, p.call = k) ∨ ∃ p ph, V c.targetRank = some (p, ph) ∧ p.call = k
  request : ∀ q m, (S.ranks q).passive = .request m → ∃ p, V q = some (p, .inHand) ∧ S.date q = some p ∧ p.message = m
  inHand : ∀ q p, V q = some (p, .inHand) → (S.ranks q).passive = .request p.message
  told : ∀ q p d, V q = some (p, .told d) → ∃ rest,
    (S.segment p.remoteInfoBufferDesc.rank).memory p.remoteInfoBufferDesc.offset = d.serialize ++ rest
  copied : ∀ k c d s, S.calls[k]? = some c → S.pc k = .write d s →
    ((S.segment c.sender).memory s).take c.pData.length = c.pData
  notified : ∀ k c a, S.calls[k]? = some c → (S.pc k).block = some a → (S.segment c.sender).notified a = true →
    ∃ p d, V c.targetRank = some (p, .told d) ∧ p.call = k ∧ S.pc k = .waitForNotification p.remoteInfoBufferDesc
  flights : ∀ r, ∀ op ∈ (S.segment r).inFlight, Flight V r op
  single : ∀ r, ((S.segment r).inFlight.map Prod.fst).Nodup
  temp : ∀ k c d, S.calls[k]? = some c → S.pc k = .sendPassive d →
    d.rank = c.sender ∧ d.size = BufferDescription.serializedSize
  small : ∀ c ∈ S.calls, c.pData.length < 2 ^ 31
  threw : ∀ k, S.pc k ≠ .threw

namespace Inv

variable {D : Rank → List Packet} {R : Rank → List (List UInt8 × Int)} {V V' : Service} {S S' : State} {q r : Rank}
  {p : Packet} {ph : Phase} {d : BufferDescription} {k : Nat} {c : Call} {a : Address}

/-! ## The `DATE` that is answered -/

theorem of (h : Inv D R V S) (hV : V q = some (p, ph)) : ∃ c, S.Of p c ∧ c.targetRank = q := by
  obtain ⟨hp, -, -⟩ := h.served q p ph hV
  obtain ⟨hq, ⟨c, hc⟩, -⟩ := h.posted.received q p hp
  exact ⟨c, hc, hc.targetRank ▸ hq⟩

theorem off_wire (h : Inv D R V S) (hV : V q = some (p, ph)) : ∀ p' ∈ S.wire, p'.call ≠ p.call := by
  intro p' hp' heq
  have hp := (h.served q p ph hV).1
  have honce := h.posted.once q
  rw [List.map_append, List.nodup_append] at honce
  exact honce.2.2 p'.call (List.mem_map_of_mem hp') p.call (List.mem_map_of_mem hp) heq

/-- A rank answers a call at most once. -/
theorem unique (h : Inv D R V S) {q' : Rank} {p' : Packet} {ph' : Phase} (hV : V q = some (p, ph))
    (hV' : V q' = some (p', ph')) (hcall : p.call = p'.call) : q = q' ∧ p = p' ∧ ph = ph' := by
  obtain ⟨c, hc, hq⟩ := h.of hV
  obtain ⟨c', hc', hq'⟩ := h.of hV'
  have hcc : c = c' := Option.some.inj (hc.call.symm.trans (hcall ▸ hc'.call))
  subst hcc
  subst hq
  subst hq'
  have heq := Option.some.inj (hV.symm.trans hV')
  cases heq
  exact ⟨rfl, rfl, rfl⟩

theorem held (h : Inv D R V S) (hV : V q = some (p, ph)) (hb : ph.buffer = some d) :
    S.block q none = some d.offset := by
  obtain ⟨N, n, i, hi, hs⟩ := h.hand q
  have hflight : N.inFlight = [(d.offset, p.message.bytes)] := by
    rw [hs.inFlight, hV]
    exact coming_of_buffer hb
  exact hi.held_of_inFlight hflight

/-- The temporary buffer of a call that waits for its description. -/
theorem temp_block (h : Inv D R V S) (hV : V q = some (p, ph))
    (hpc : (S.pc p.call).block = some p.remoteInfoBufferDesc.offset) :
    S.block p.remoteInfoBufferDesc.rank (some p.call) = some p.remoteInfoBufferDesc.offset := by
  obtain ⟨c, hc, -⟩ := h.of hV
  rw [hc.rank, State.block_call hc.call]
  exact hpc

theorem temp_waiting (h : Inv D R V S) (hV : V q = some (p, ph))
    (hph : ph = .inHand ∨ (∃ d, ph = .replied d) ∨ ∃ d, ph = .told d) :
    S.block p.remoteInfoBufferDesc.rank (some p.call) = some p.remoteInfoBufferDesc.offset := by
  have hagrees := (h.served q p ph hV).2.1
  refine h.temp_block hV ?_
  obtain rfl | ⟨d, rfl⟩ | ⟨d, rfl⟩ := hph
  · have hpc : S.pc p.call = .waitForNotification p.remoteInfoBufferDesc := hagrees
    rw [hpc]; rfl
  · have hpc : S.pc p.call = .waitForNotification p.remoteInfoBufferDesc := hagrees
    rw [hpc]; rfl
  · obtain hpc | hpc : S.pc p.call = .waitForNotification p.remoteInfoBufferDesc ∨
      S.pc p.call = .deserialize p.remoteInfoBufferDesc := hagrees
    · rw [hpc]; rfl
    · rw [hpc]; rfl

/-- The answer a call is served with. -/
theorem service (h : Inv D R V S) (hc : S.calls[k]? = some c) (hs : (S.pc k).served = true)
    (hpc : ∀ d, S.pc k ≠ .waitForNotification d) :
    ∃ p ph, V c.targetRank = some (p, ph) ∧ p.call = k ∧ S.Of p c ∧ ph.Agrees p.remoteInfoBufferDesc (S.pc k) := by
  obtain ⟨p, hp, rfl⟩ | ⟨p, ph, hV, rfl⟩ := h.serving k c hc hs
  · obtain ⟨-, -, hw⟩ := h.posted.wire p hp
    exact absurd hw (hpc _)
  · obtain ⟨c', hc', -⟩ := h.of hV
    obtain rfl := Option.some.inj (hc'.call.symm.trans hc)
    exact ⟨p, ph, hV, rfl, hc', (h.served _ p ph hV).2.1⟩

/-! ## The segments -/

/-- Nothing is notified in a buffer that is free. -/
theorem unnotified (h : Inv D R V S) (ha : a ∉ (S.segment r).allocated) : (S.segment r).notified a = false := by
  by_contra htrue
  have hnot : (S.segment r).notified a = true := by simpa using htrue
  by_cases hcall : ∃ k, S.block r (some k) = some a
  · obtain ⟨k, hk⟩ := hcall
    exact ha ((h.owns r).allocated _ a hk)
  · obtain ⟨N, n, i, hi, hs⟩ := h.hand r
    have hheld := hi.held_of_notified ((hs.notified a).mpr ⟨hnot, fun k hk => hcall ⟨k, hk⟩⟩)
    exact ha ((h.owns r).allocated none a hheld)

/-- Whatever is on its way has an owner. -/
theorem flight_owned (h : Inv D R V S) {op : Address × List UInt8} (hop : op ∈ (S.segment r).inFlight) :
    (∃ q p d, V q = some (p, .replied d) ∧ p.remoteInfoBufferDesc.rank = r ∧
      S.block r (some p.call) = some op.1 ∧ op = (p.remoteInfoBufferDesc.offset, d.serialize)) ∨
    ∃ p d, V r = some (p, .flying d) ∧ S.block r none = some op.1 ∧ op = (d.offset, p.message.bytes) := by
  obtain ⟨q, p, d, hV, rfl, rfl⟩ | ⟨p, d, hV, rfl⟩ := h.flights r op hop
  · exact .inl ⟨q, p, d, hV, rfl, h.temp_waiting hV (.inr (.inl ⟨d, rfl⟩)), rfl⟩
  · exact .inr ⟨p, d, hV, h.held hV rfl, rfl⟩

/-- What the hand-over of `q` sees stays the same. -/
theorem hand_congr (h : Inv D R V S) (q : Rank)
    (hrank : ∃ N, S'.ranks q = { S.ranks q with requested := N })
    (hmem : ∀ b, S.block q none = some b → (S'.segment q).memory b = (S.segment q).memory b)
    (hcoming : coming (V' q) = coming (V q))
    (hnot : ∀ a, ((S'.segment q).notified a = true ∧ ∀ k, S'.block q (some k) ≠ some a) ↔
      (S.segment q).notified a = true ∧ ∀ k, S.block q (some k) ≠ some a) :
    ∃ N n i, RecvMessg.Inv ((D q).map Packet.message) (R q) n i { S'.ranks q with requested := N } ∧
      Sees V' S' q N := by
  obtain ⟨N, n, i, hi, hs⟩ := h.hand q
  obtain ⟨N', hN'⟩ := hrank
  refine ⟨{ N with memory := (S'.segment q).memory }, n, i, ?_, rfl, hs.inFlight.trans hcoming.symm,
    fun a => (hs.notified a).trans (hnot a).symm⟩
  rw [hN']
  refine hi.congr (fun b hb => ?_) rfl rfl
  show (S'.segment q).memory b = N.memory b
  rw [hs.memory]
  exact hmem b hb

end Inv

/-- The hand-over does not see what one call does to its buffer. -/
theorem notified_congr {block block' : Option Nat → Option Address} {notified notified' : Address → Bool} {k : Nat}
    (hsame : ∀ j, j ≠ k → block' (some j) = block (some j))
    (hnot : ∀ a, block (some k) ≠ some a → block' (some k) ≠ some a → notified' a = notified a)
    (hold : ∀ a, block (some k) = some a → block' (some k) ≠ some a → notified' a = false)
    (hnew : ∀ a, block' (some k) = some a → block (some k) ≠ some a → notified a = false) (a : Address) :
    (notified' a = true ∧ ∀ j, block' (some j) ≠ some a) ↔ notified a = true ∧ ∀ j, block (some j) ≠ some a := by
  have hothers : (∀ j, j ≠ k → block' (some j) ≠ some a) ↔ ∀ j, j ≠ k → block (some j) ≠ some a :=
    ⟨fun h j hj => hsame j hj ▸ h j hj, fun h j hj => (hsame j hj).symm ▸ h j hj⟩
  have hsplit : ∀ b : Option Nat → Option Address,
      (∀ j, b (some j) ≠ some a) ↔ b (some k) ≠ some a ∧ ∀ j, j ≠ k → b (some j) ≠ some a := by
    intro b
    refine ⟨fun h => ⟨h k, fun j _ => h j⟩, fun h j => ?_⟩
    by_cases hj : j = k
    · rw [hj]; exact h.1
    · exact h.2 j hj
  rw [hsplit block', hsplit block, hothers]
  by_cases hb : block (some k) = some a <;> by_cases hb' : block' (some k) = some a
  · simp [hb, hb']
  · simp [hb, hold a hb hb']
  · simp [hb', hnew a hb' hb]
  · simp [hb, hb', hnot a hb hb']

end GaspiCxx.Passive.Messaging
