import GaspiCxx.OneSided.Pending
import GaspiCxx.Passive.Meeting

/-!
# Channels through the service

A channel carries packets from a send buffer of one rank to a receive buffer of
another: the sending rank posts the send buffer under a key, the receiving rank
posts the receive buffer under the same tag and the sender's rank, and the
packet goes across when both posts have met. Both buffers are made anew for
every packet, so their notification ids and blocks change from one to the next.

`View` is what the ranks' programs know: which buffers they hold, how often they
have posted and waited, and the packets in order. `Consistent` ties a `Net` to a
view; `posted p` counts the operations ever sent to port `p`. Its consequences
about counters are what the programs built on the service need.
-/

namespace GaspiCxx.Passive

open OneSided

/-- The notifications: those of the two buffers of a channel, and any others. -/
inductive Port (Chan Q : Type) where
  | send (c : Chan)
  | recv (c : Chan)
  | other (q : Q)
  deriving DecidableEq

variable {Chan Q Thread V X : Type}

/-- The buffer of a channel that is posted in a role. -/
def Role.port : Role → Chan → Port Chan Q
  | .src => .send
  | .rcv => .recv

structure Layout (Chan Q : Type) where
  sender : Chan → Rank
  /-- The key of the channel at its sender: its tag and the receiving rank. -/
  key : Chan → Key
  home : Q → Rank
  /-- The size of the two buffers of a channel. -/
  size : Nat
  size_pos : 0 < size
  inj : ∀ c c', sender c = sender c' → key c = key c' → c = c'

namespace Layout

def receiver (L : Layout Chan Q) (c : Chan) : Rank := (L.key c).rank

/-- Where the two posts of a channel meet. -/
def meet (L : Layout Chan Q) (c : Chan) : Rank × Key := (L.sender c, L.key c)

def owner (L : Layout Chan Q) : Port Chan Q → Rank
  | .send c => L.sender c
  | .recv c => L.receiver c
  | .other q => L.home q

theorem meet_inj (L : Layout Chan Q) {c c' : Chan} (h : L.meet c = L.meet c') : c = c' :=
  L.inj c c' (congrArg Prod.fst h) (congrArg Prod.snd h)

end Layout

structure View (Chan Q V : Type) where
  /-- Notification ids and blocks that belong to anything else. -/
  base : Rank → Finset Slot
  blocks : Rank → Finset Block
  /-- The buffer or notification of a port while it is in use. -/
  held : Port Chan Q → Option BufferDescription
  /-- Send buffers filled. -/
  made : Chan → Nat
  /-- `iSendTagMessg` and `iRecvTagMessg` called. -/
  posts : Role → Chan → Nat
  /-- Notifications waited for. -/
  taken : Port Chan Q → Nat
  /-- Operations sent to a notification that is not a channel's. -/
  sent : Q → Nat
  /-- The packets of a channel, in order. -/
  packet : Chan → Nat → V

/-- The packet the receiver of a channel waits for. -/
def View.next (w : View Chan Q V) (c : Chan) : V := w.packet c (w.taken (.recv c))

def slotOf (held : Port Chan Q → Option BufferDescription) (p : Port Chan Q) : Option Slot :=
  (held p).map BufferDescription.slot

/-- The block of a buffer; a notification alone has none. -/
def blockOf (held : Port Chan Q → Option BufferDescription) : Port Chan Q → Option Block
  | .send c => (held (.send c)).map BufferDescription.block
  | .recv c => (held (.recv c)).map BufferDescription.block
  | .other _ => none

/-- What may be on its way to a port: a packet to a receive buffer, a
notification alone to a send buffer. -/
def Good (G : Q → Op V X → Prop) (memory : Rank × Block → V) (next : Chan → V) :
    Port Chan Q → BufferDescription → Op V X → Prop
  | .send _, _, op => op = .bare
  | .recv c, d, op => op = .packet d.place (next c) ∨ op = .bare ∧ memory d.place = next c
  | .other q, _, op => G q op

def Here (H : Q → Prop) (memory : Rank × Block → V) (next : Chan → V) :
    Port Chan Q → BufferDescription → Prop
  | .send _, _ => True
  | .recv c, d => memory d.place = next c
  | .other q, _ => H q

structure Consistent (L : Layout Chan Q) (G : Q → Op V X → Prop) (H : Q → Prop) (w : View Chan Q V)
    (N : Net Thread V X) (posted : Port Chan Q → Nat) : Prop where
  errors : N.errors = []
  slots : Names L.owner w.base N.live (slotOf w.held)
  blks : Names L.owner w.blocks N.allocated (blockOf w.held)
  rank : ∀ p d, w.held p = some d → d.rank = L.owner p
  size : ∀ (role : Role) c d, w.held (role.port c) = some d → d.size = L.size
  signals : Signals BufferDescription.address (Good G N.memory w.next) (Here H N.memory w.next) w.held posted
    w.taken N.flight N.flag
  meets : ∀ c, (N.meeting (L.meet c)).Accounts (fun role => w.held (role.port c)) (fun role => w.posts role c)
    (posted (.recv c)) (posted (.send c))
  unused : ∀ k, (∀ c, L.meet c ≠ k) → (N.meeting k).Idle
  sent : ∀ q, posted (.other q) = w.sent q
  cap : ∀ (role : Role) c, w.posts role c ≤ w.taken (role.port c) + 1
  made : ∀ c, w.posts .src c ≤ w.made c ∧ w.made c ≤ w.taken (.send c) + 1
  /-- A send buffer that is filled holds the packet until its notification is taken. -/
  loaded : ∀ c, w.made c = w.taken (.send c) + 1 →
    ∃ d, w.held (.send c) = some d ∧ N.memory d.place = w.packet c (w.taken (.send c))

namespace Consistent

variable {L : Layout Chan Q} {G G' : Q → Op V X → Prop} {H H' : Q → Prop} {w : View Chan Q V}
  {N N' : Net Thread V X} {posted : Port Chan Q → Nat} {p : Port Chan Q} {d : BufferDescription} {c : Chan} {q : Q}

/-! ## What the counters say -/

theorem taken_le (h : Consistent L G H w N posted) (p : Port Chan Q) : w.taken p ≤ posted p :=
  h.signals.taken_le p

/-- A receiver has waited for no more packets than either side has posted. -/
theorem recv_le (h : Consistent L G H w N posted) (role : Role) (c : Chan) :
    w.taken (.recv c) ≤ w.posts role c :=
  (h.taken_le (.recv c)).trans ((h.meets c).le_posts role)

/-- All posts of a role have been answered: nothing is on its way to its port. -/
theorem answered (h : Consistent L G H w N posted) (role : Role) (hp : w.posts role c = w.taken (role.port c)) :
    posted (role.port c) = w.posts role c := by
  have h1 := (h.meets c).le_posts role
  have h2 := (h.meets c).le
  have h3 := h.taken_le (role.port c)
  cases role with
  | src => simp only [Role.port] at hp h3 ⊢; omega
  | rcv => simp only [Role.port] at hp h3 ⊢; omega

theorem taken_other_le (h : Consistent L G H w N posted) (q : Q) : w.taken (.other q) ≤ w.sent q := by
  rw [← h.sent q]; exact h.taken_le _

/-- What is sent to a notification but not taken has arrived, or is in flight. -/
theorem flag_of_lt (h : Consistent L G H w N posted) (hd : w.held p = some d) (hlt : w.taken p < posted p)
    (hf : N.flight d.address = []) : N.flag d.address = true :=
  (h.signals.pending p d hd).flag_of_lt hlt hf

/-- With nothing on its way, posts of both roles have brought a packet across. -/
theorem settled (h : Consistent L G H w N posted) (hN : N.Delivered) (c : Chan) :
    posted (.send c) = posted (.recv c) ∧ posted (.recv c) = min (w.posts .src c) (w.posts .rcv c) :=
  (h.meets c).settled (hN.msgs _) (hN.inHand _) (hN.written _)

/-- The ids and blocks of a rank that uses no port are the others'. -/
theorem live_eq (h : Consistent L G H w N posted) {r : Rank} (hr : ∀ p, L.owner p = r → w.held p = none) :
    N.live r = w.base r ∧ N.allocated r = w.blocks r := by
  refine ⟨h.slots.live_eq_base fun p hp => ?_, h.blks.live_eq_base fun p hp => ?_⟩
  · simp [slotOf, hr p hp]
  · cases p with
    | send c => simp [blockOf, hr _ hp]
    | recv c => simp [blockOf, hr _ hp]
    | other q => rfl

/-! ## Ports in use do not share their notifications and blocks -/

theorem address_ne (h : Consistent L G H w N posted) (hd : w.held p = some d) {r : Rank} {s : Slot}
    (hs : s ∉ N.live r) : d.address ≠ (r, s) := by
  intro he
  obtain ⟨hr, hsl⟩ := Prod.mk.inj he
  apply hs
  rw [← hsl, ← hr, h.rank p d hd]
  apply h.slots.mem_live (p := p)
  simp [slotOf, hd]

theorem blockOf_port (held : Port Chan Q → Option BufferDescription) (role : Role) (c : Chan) :
    blockOf held (role.port c) = (held (role.port c)).map BufferDescription.block := by
  cases role <;> rfl

theorem place_inj (h : Consistent L G H w N posted) (role role' : Role) {c' : Chan} {e : BufferDescription}
    (hd : w.held (role.port c) = some d) (he : w.held (role'.port c') = some e) (hp : d.place = e.place) :
    (role.port c : Port Chan Q) = role'.port c' := by
  obtain ⟨hr, hb⟩ := Prod.mk.inj hp
  rw [h.rank _ d hd, h.rank _ e he] at hr
  refine h.blks.inj (role.port c) (role'.port c') d.block hr ?_ ?_
  · rw [blockOf_port, hd]; rfl
  · rw [blockOf_port, he, Option.map_some, hb]

/-! ## The start, and what others do -/

/-- Nothing in use, nothing going on. -/
theorem quiet (L : Layout Chan Q) (G : Q → Op V X → Prop) (H : Q → Prop) (base : Rank → Finset Slot)
    (blocks : Rank → Finset Block) (memory : Rank × Block → V) (packet : Chan → Nat → V) :
    Consistent L G H
      { base := base, blocks := blocks, held := fun _ => none, made := fun _ => 0, posts := fun _ _ => 0,
        taken := fun _ => 0, sent := fun _ => 0, packet := packet }
      (Net.quiet base blocks memory : Net Thread V X) (fun _ => 0) where
  errors := rfl
  slots := Names.quiet L.owner base
  blks := by
    have hnone : blockOf (fun _ : Port Chan Q => none) = fun _ => none := by funext p; cases p <;> rfl
    rw [hnone]
    exact Names.quiet L.owner blocks
  rank _ _ hd := by cases hd
  size _ _ _ hd := by cases hd
  signals := Signals.quiet _ _ _
  meets c := Meeting.Idle.accounts ⟨fun _ => rfl, rfl, rfl, rfl⟩ _
  unused _ _ := ⟨fun _ => rfl, rfl, rfl, rfl⟩
  sent _ := rfl
  cap _ _ := Nat.zero_le _
  made _ := ⟨Nat.le_refl _, Nat.zero_le _⟩
  loaded _ hm := by cases hm

/-- The conditions on what is on its way to the other notifications may change. -/
theorem imp (h : Consistent L G H w N posted)
    (hG : ∀ q d, w.held (.other q) = some d → w.sent q = w.taken (.other q) + 1 → ∀ op, G q op → G' q op)
    (hH : ∀ q d, w.held (.other q) = some d → w.sent q = w.taken (.other q) + 1 → H q → H' q) :
    Consistent L G' H' w N posted := by
  refine { h with signals := h.signals.imp (fun p d hp hs op hg => ?_) (fun p d hp hs hh => ?_) }
  · cases p with
    | send c => exact hg
    | recv c => exact hg
    | other q => exact hG q d hp (by rw [← h.sent q, hs]) op hg
  · cases p with
    | send c => exact hh
    | recv c => exact hh
    | other q => exact hH q d hp (by rw [← h.sent q, hs]) hh

/-- The other ids and blocks of the ranks change. -/
theorem rebase (h : Consistent L G H w N posted) {base live : Rank → Finset Slot}
    {blocks allocated : Rank → Finset Block} (hs : Names L.owner base live (slotOf w.held))
    (hb : Names L.owner blocks allocated (blockOf w.held)) :
    Consistent L G H { w with base := base, blocks := blocks }
      { N with live := live, allocated := allocated } posted :=
  { h with slots := hs, blks := hb }

end Consistent

end GaspiCxx.Passive
