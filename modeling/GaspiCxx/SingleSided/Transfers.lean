import GaspiCxx.OneSided.Ledger
import GaspiCxx.Runs.Trace
import GaspiCxx.SingleSided.Endpoint

/-!
# Acknowledged transfers

Any number of connections between source and target buffers, used the way the
acknowledgements are for: a source does not transfer again before its last
transfer was acknowledged, and a target acknowledges what it has completed.
Buffers may share memory. A rank that relays has its target's memory as the
memory of its own sources, and one source memory may have many connections.

A rank writes memory only while no transfer from it is unacknowledged and every
transfer to it has completed (`Owned`), transfers from it only in the latter
case, and acknowledges when no transfer from it is unacknowledged.

**`transfers_acknowledged`**: under every interleaving of the ranks and the network the
target completes the contents of the source at its transfers, each once and in
order, and no operation in flight touches memory that a rank owns.
-/

namespace GaspiCxx.SingleSided

open OneSided Runs

/-- An end of connection `c`. -/
inductive Port (Conn : Type) where
  | source (c : Conn)
  | target (c : Conn)
  deriving DecidableEq, Repr

structure Connections (Conn Loc : Type) where
  /-- The memory of the source buffer. -/
  source : Conn → Loc
  /-- The memory of the target buffer. -/
  target : Conn → Loc
  size : Conn → Nat
  target_injective : Function.Injective target
  target_ne_source : ∀ c, target c ≠ source c

namespace Transfers

variable {Conn Loc Val : Type}

/-- A write to the target sends the buffer unless it is empty; an acknowledgement
only notifies. -/
def wiring (C : Connections Conn Loc) : Wiring (Port Conn) Loc where
  peer
    | .source c => .target c
    | .target c => .source c
  loc
    | .source c => C.source c
    | .target c => C.target c
  carries
    | .source _ => false
    | .target c => C.size c != 0

structure State (Conn Loc Val : Type) where
  fabric : Fabric (Port Conn) Loc Val
  /-- The source has transferred and not seen the acknowledgement. -/
  awaiting : Conn → Bool
  /-- The target has completed and not acknowledged. -/
  holding : Conn → Bool

/-- After the connections are made. -/
def State.connected (m : Loc → Val) : State Conn Loc Val where
  fabric := .quiet m
  awaiting _ := false
  holding _ := false

inductive Label (Conn Loc Val : Type) where
  | write (l : Loc) (v : Val)
  | initTransfer (c : Conn) (v : Val)
  | completion (c : Conn) (v : Val)
  | ackTransfer (c : Conn)
  | transferAck (c : Conn)
  /-- A check that finds nothing. -/
  | checked (p : Port Conn)
  | network
  deriving DecidableEq, Repr

/-- The memory is the rank's own. -/
structure Owned (C : Connections Conn Loc) (S : State Conn Loc Val) (l : Loc) : Prop where
  source : ∀ c, C.source c = l → S.awaiting c = false
  target : ∀ c, C.target c = l → S.holding c = true

section

variable [DecidableEq Conn] [DecidableEq Loc]

inductive Step (C : Connections Conn Loc) :
    State Conn Loc Val → Label Conn Loc Val → State Conn Loc Val → Prop where
  | write (S : State Conn Loc Val) {l : Loc} (v : Val) (own : Owned C S l) :
      Step C S (.write l v) { S with fabric := S.fabric.write l v }
  -- other connections may be transferring from the same memory
  | initTransfer (S : State Conn Loc Val) {c : Conn} (idle : S.awaiting c = false)
      (own : ∀ c', C.target c' = C.source c → S.holding c' = true) :
      Step C S (.initTransfer c (S.fabric.mem (C.source c)))
        { S with
          fabric := initTransfer (wiring C) S.fabric (.source c)
          awaiting := Function.update S.awaiting c true }
  | waitForCompletion (S : State Conn Loc Val) {c : Conn} {F : Fabric (Port Conn) Loc Val}
      (idle : S.holding c = false) (h : waitForCompletion S.fabric (.target c) = some F) :
      Step C S (.completion c (F.mem (C.target c)))
        { S with fabric := F, holding := Function.update S.holding c true }
  | checkForCompletion (S : State Conn Loc Val) {c : Conn} {F : Fabric (Port Conn) Loc Val}
      (idle : S.holding c = false) (h : checkForCompletion S.fabric (.target c) = (true, F)) :
      Step C S (.completion c (F.mem (C.target c)))
        { S with fabric := F, holding := Function.update S.holding c true }
  | ackTransfer (S : State Conn Loc Val) {c : Conn} (held : S.holding c = true)
      (own : ∀ c', C.source c' = C.target c → S.awaiting c' = false) :
      Step C S (.ackTransfer c)
        { S with
          fabric := ackTransfer (wiring C) S.fabric (.target c)
          holding := Function.update S.holding c false }
  | waitForTransferAck (S : State Conn Loc Val) {c : Conn} {F : Fabric (Port Conn) Loc Val}
      (wait : S.awaiting c = true) (h : waitForTransferAck S.fabric (.source c) = some F) :
      Step C S (.transferAck c) { S with fabric := F, awaiting := Function.update S.awaiting c false }
  | checkForTransferAck (S : State Conn Loc Val) {c : Conn} {F : Fabric (Port Conn) Loc Val}
      (wait : S.awaiting c = true) (h : checkForTransferAck S.fabric (.source c) = (true, F)) :
      Step C S (.transferAck c) { S with fabric := F, awaiting := Function.update S.awaiting c false }
  | check (S : State Conn Loc Val) {p : Port Conn} {F : Fabric (Port Conn) Loc Val}
      (h : checkForNotification S.fabric p = (false, F)) :
      Step C S (.checked p) { S with fabric := F }
  | network (S : State Conn Loc Val) {p : Port Conn} {i : Nat} {F : Fabric (Port Conn) Loc Val}
      (h : S.fabric.advance (wiring C) p i = some F) :
      Step C S .network { S with fabric := F }

end

/-! ## What a run is asked -/

namespace Label

variable [DecidableEq Conn]

def sent (c : Conn) : Label Conn Loc Val → Option Val
  | initTransfer c' v => if c' = c then some v else none
  | _ => none

def received (c : Conn) : Label Conn Loc Val → Option Val
  | completion c' v => if c' = c then some v else none
  | _ => none

def acks (c : Conn) : Label Conn Loc Val → Bool
  | ackTransfer c' => c' = c
  | _ => false

def seesAck (c : Conn) : Label Conn Loc Val → Bool
  | transferAck c' => c' = c
  | _ => false

end Label

section

variable [DecidableEq Conn]

/-- What the source buffer of `c` held at its transfers. -/
def sent (c : Conn) (ls : List (Label Conn Loc Val)) : List Val := ls.filterMap (Label.sent c)

/-- What the target buffer of `c` held at its completions. -/
def received (c : Conn) (ls : List (Label Conn Loc Val)) : List Val := ls.filterMap (Label.received c)

/-- The notifications posted to a port. -/
def posted (ls : List (Label Conn Loc Val)) : Port Conn → Nat
  | .source c => ls.countP (Label.acks c)
  | .target c => (sent c ls).length

/-- The notifications taken from a port. -/
def taken (ls : List (Label Conn Loc Val)) : Port Conn → Nat
  | .source c => ls.countP (Label.seesAck c)
  | .target c => (received c ls).length

end

/-- The notification of `p` is on its way, or has arrived and not been taken. -/
def Waiting (S : State Conn Loc Val) (p : Port Conn) : Prop :=
  S.fabric.flight p ≠ [] ∨ S.fabric.slot p = true

structure Acknowledged [DecidableEq Conn] (C : Connections Conn Loc) (ls : List (Label Conn Loc Val))
    (S : State Conn Loc Val) : Prop where
  /-- What completes is what was transferred, in order. -/
  inOrder : ∀ c, C.size c ≠ 0 → received c ls <+: sent c ls
  /-- Each transfer completes at most once, and before the next is made. -/
  once : ∀ c, (received c ls).length ≤ (sent c ls).length ∧ (sent c ls).length ≤ (received c ls).length + 1
  /-- A transfer that the source waits for is at exactly one place. -/
  awaited : ∀ c, S.awaiting c = true →
    (Waiting S (.target c) ∧ S.holding c = false ∧ ¬ Waiting S (.source c)) ∨
    (¬ Waiting S (.target c) ∧ S.holding c = true ∧ ¬ Waiting S (.source c)) ∨
    (¬ Waiting S (.target c) ∧ S.holding c = false ∧ Waiting S (.source c))
  idle : ∀ c, S.awaiting c = false →
    ¬ Waiting S (.target c) ∧ S.holding c = false ∧ ¬ Waiting S (.source c)
  /-- The network neither reads nor writes memory that a rank owns. -/
  apart : ∀ l, Owned C S l → ∀ p, (wiring C).carries p = true → S.fabric.flight p ≠ [] →
    (wiring C).loc p ≠ l ∧ (wiring C).loc ((wiring C).peer p) ≠ l
  overrun : ∀ p, ¬ S.fabric.Overrun p

/-! ## Labels -/

section

variable [DecidableEq Conn] {c : Conn} {v : Val} {ls : List (Label Conn Loc Val)} {l : Label Conn Loc Val}

theorem sent_snoc (c : Conn) (ls : List (Label Conn Loc Val)) (l : Label Conn Loc Val) :
    sent c (ls ++ [l]) = sent c ls ++ (l.sent c).toList := by
  unfold sent
  rw [List.filterMap_append]
  cases h : l.sent c <;> simp [h]

theorem received_snoc (c : Conn) (ls : List (Label Conn Loc Val)) (l : Label Conn Loc Val) :
    received c (ls ++ [l]) = received c ls ++ (l.received c).toList := by
  unfold received
  rw [List.filterMap_append]
  cases h : l.received c <;> simp [h]

theorem posted_snoc (ls : List (Label Conn Loc Val)) (l : Label Conn Loc Val) (p : Port Conn) :
    posted (ls ++ [l]) p = posted ls p +
      match p with
      | .source c => if l.acks c then 1 else 0
      | .target c => (l.sent c).toList.length := by
  cases p with
  | source c => simp [posted, List.countP_append, List.countP_singleton]
  | target c => simp [posted, sent_snoc]

theorem taken_snoc (ls : List (Label Conn Loc Val)) (l : Label Conn Loc Val) (p : Port Conn) :
    taken (ls ++ [l]) p = taken ls p +
      match p with
      | .source c => if l.seesAck c then 1 else 0
      | .target c => (l.received c).toList.length := by
  cases p with
  | source c => simp [taken, List.countP_append, List.countP_singleton]
  | target c => simp [taken, received_snoc]

/-- A step that posts nothing. -/
theorem posted_same (ls : List (Label Conn Loc Val)) (hs : ∀ c, l.sent c = none) (ha : ∀ c, l.acks c = false)
    (p : Port Conn) :
    posted (ls ++ [l]) p = posted ls p := by
  rw [posted_snoc]
  cases p with
  | source c => simp [ha c]
  | target c => simp [hs c]

/-- A step that takes nothing. -/
theorem taken_same (ls : List (Label Conn Loc Val)) (hr : ∀ c, l.received c = none) (ha : ∀ c, l.seesAck c = false)
    (p : Port Conn) :
    taken (ls ++ [l]) p = taken ls p := by
  rw [taken_snoc]
  cases p with
  | source c => simp [ha c]
  | target c => simp [hr c]

/-- The label is about neither transfers nor acknowledgements. -/
def Label.Quiet (l : Label Conn Loc Val) : Prop :=
  ∀ c, l.sent c = none ∧ l.received c = none ∧ l.acks c = false ∧ l.seesAck c = false

theorem posted_transfer (p : Port Conn) :
    posted (ls ++ [.initTransfer c v]) p = bump (posted ls) (.target c) p := by
  rw [posted_snoc, bump_apply]
  cases p with
  | source c' => simp [Label.acks]
  | target c' => by_cases h : c = c' <;> simp [Label.sent, h, eq_comm]

theorem posted_ack (p : Port Conn) :
    posted (ls ++ [.ackTransfer c]) p = bump (posted ls) (.source c) p := by
  rw [posted_snoc, bump_apply]
  cases p with
  | source c' => by_cases h : c = c' <;> simp [Label.acks, h, eq_comm]
  | target c' => simp [Label.sent]

theorem taken_completion (p : Port Conn) :
    taken (ls ++ [.completion c v]) p = bump (taken ls) (.target c) p := by
  rw [taken_snoc, bump_apply]
  cases p with
  | source c' => simp [Label.seesAck]
  | target c' => by_cases h : c = c' <;> simp [Label.received, h, eq_comm]

theorem taken_transferAck (p : Port Conn) :
    taken (ls ++ [.transferAck c]) p = bump (taken ls) (.source c) p := by
  rw [taken_snoc, bump_apply]
  cases p with
  | source c' => by_cases h : c = c' <;> simp [Label.seesAck, h, eq_comm]
  | target c' => simp [Label.received]

end

/-! ## The invariant -/

theorem checkForNotification_true {F F' : Fabric (Port Conn) Loc Val} {p : Port Conn} [DecidableEq Conn]
    (h : checkForNotification F p = (true, F')) : F.slot p = true ∧ F' = F.reset p := by
  unfold checkForNotification at h
  split at h
  · next hs => exact ⟨hs, (Prod.mk.inj h).2.symm⟩
  · cases (Prod.mk.inj h).1

theorem checkForNotification_false {F F' : Fabric (Port Conn) Loc Val} {p : Port Conn} [DecidableEq Conn]
    (h : checkForNotification F p = (false, F')) : F' = F := by
  unfold checkForNotification at h
  split at h
  · cases (Prod.mk.inj h).1
  · exact (Prod.mk.inj h).2.symm

section

variable [DecidableEq Conn] {C : Connections Conn Loc} {ls : List (Label Conn Loc Val)} {S : State Conn Loc Val}
  {I : Channels (Port Conn) Loc Val} {c c' : Conn} {l : Loc} {v : Val}

/-- A message to a target is the transfer of its number. -/
def Good (ls : List (Label Conn Loc Val)) : Port Conn → Nat → Val → Prop
  | .source _, _, _ => True
  | .target c, k, v => (sent c ls)[k]? = some v

theorem good_same {l : Label Conn Loc Val} (hs : ∀ c, l.sent c = none) : Good (ls ++ [l]) = Good ls := by
  funext p k v
  cases p with
  | source c => rfl
  | target c => simp [Good, sent_snoc, hs c]

structure Inv (C : Connections Conn Loc) (ls : List (Label Conn Loc Val)) (S : State Conn Loc Val)
    (I : Channels (Port Conn) Loc Val) : Prop where
  tracks : Tracks (wiring C) (Good ls) S.fabric I (posted ls) (taken ls)
  awaiting : ∀ c, posted ls (.target c) = taken ls (.source c) + if S.awaiting c then 1 else 0
  holding : ∀ c, taken ls (.target c) = posted ls (.source c) + if S.holding c then 1 else 0
  inOrder : ∀ c, C.size c ≠ 0 → received c ls <+: sent c ls
  /-- Nothing is transferred from memory that is about to be written. -/
  relay : ∀ c c', C.source c' = C.target c → S.holding c = false → S.awaiting c' = false

namespace Inv

theorem waiting_iff (h : Inv C ls S I) {p : Port Conn} : Waiting S p ↔ taken ls p < posted ls p := by
  constructor
  · rintro (hf | hs)
    · exact h.tracks.lt_of_flight hf
    · exact h.tracks.lt_of_slot hs
  · intro hlt
    by_cases hf : S.fabric.flight p = []
    · exact .inr (h.tracks.slot_of_lt hlt hf)
    · exact .inl hf

/-- The four counters of a connection differ by one at one place at most. -/
theorem counters (h : Inv C ls S I) (c : Conn) :
    taken ls (.source c) ≤ posted ls (.source c) ∧ posted ls (.source c) ≤ taken ls (.target c) ∧
      taken ls (.target c) ≤ posted ls (.target c) ∧ posted ls (.target c) ≤ taken ls (.source c) + 1 := by
  refine ⟨h.tracks.taken_le _, ?_, h.tracks.taken_le _, ?_⟩
  · have := h.holding c; omega
  · have := h.awaiting c; split at this <;> omega

theorem level_of_idle (h : Inv C ls S I) (hc : S.awaiting c = false) :
    taken ls (.target c) = posted ls (.target c) ∧ taken ls (.source c) = posted ls (.source c) ∧
      S.holding c = false := by
  have hcount := h.counters c
  have haw := h.awaiting c
  have hhold := h.holding c
  rw [hc, if_neg Bool.false_ne_true] at haw
  cases hh : S.holding c with
  | false => exact ⟨by omega, by omega, rfl⟩
  | true => rw [hh, if_pos rfl] at hhold; omega

theorem level_of_held (h : Inv C ls S I) (hc : S.holding c = true) :
    taken ls (.target c) = posted ls (.target c) ∧ taken ls (.source c) = posted ls (.source c) := by
  have hcount := h.counters c
  have haw := h.awaiting c
  have hhold := h.holding c
  rw [hc, if_pos rfl] at hhold
  split at haw <;> omega

/-- A message with data on its way is to a target, and not yet completed. -/
theorem target_of_lt (h : Inv C ls S I) {p : Port Conn} (hp : (wiring C).carries p = true)
    (hlt : taken ls p < posted ls p) : ∃ c, p = .target c ∧ S.awaiting c = true ∧ S.holding c = false := by
  cases p with
  | source c => cases hp
  | target c =>
    refine ⟨c, rfl, ?_, ?_⟩
    · cases ha : S.awaiting c with
      | true => rfl
      | false => have := (h.level_of_idle ha).1; omega
    · cases hh : S.holding c with
      | false => rfl
      | true => have := (h.level_of_held hh).1; omega

theorem apart_target (h : Inv C ls S I) (own : ∀ c, C.target c = l → S.holding c = true) {p : Port Conn}
    (hp : (wiring C).carries p = true) (hlt : taken ls p < posted ls p) : (wiring C).loc p ≠ l := by
  obtain ⟨c, rfl, -, hh⟩ := h.target_of_lt hp hlt
  intro he
  rw [own c he] at hh
  cases hh

theorem apart_source (h : Inv C ls S I) (own : ∀ c, C.source c = l → S.awaiting c = false) {p : Port Conn}
    (hp : (wiring C).carries p = true) (hf : S.fabric.flight p ≠ []) :
    (wiring C).loc ((wiring C).peer p) ≠ l := by
  obtain ⟨c, rfl, ha, -⟩ := h.target_of_lt hp (h.tracks.lt_of_flight hf)
  intro he
  rw [own c he] at ha
  cases ha

theorem toAcknowledged (h : Inv C ls S I) : Acknowledged C ls S where
  inOrder := h.inOrder
  once c := ⟨h.tracks.taken_le (.target c), h.tracks.sent_le (.target c)⟩
  awaited c hc := by
    have hcount := h.counters c
    have haw := h.awaiting c
    have hhold := h.holding c
    rw [hc, if_pos rfl] at haw
    simp only [h.waiting_iff]
    cases hh : S.holding c with
    | false => rw [hh, if_neg Bool.false_ne_true] at hhold; simp; omega
    | true => rw [hh, if_pos rfl] at hhold; simp; omega
  idle c hc := by
    obtain ⟨ht, hs, hh⟩ := h.level_of_idle hc
    simp only [h.waiting_iff, ht, hs, hh, lt_irrefl, not_false_eq_true, and_self]
  apart l own p hp hf :=
    ⟨h.apart_target own.target hp (h.tracks.lt_of_flight hf), h.apart_source own.source hp hf⟩
  overrun := h.tracks.sim.no_overrun

theorem inv_connected (C : Connections Conn Loc) (m : Loc → Val) :
    Inv C [] (.connected m) { mem := m, msg := fun _ => none } where
  tracks := (Tracks.quiet _ _ m).recount (by rintro ⟨c⟩ <;> rfl) (by rintro ⟨c⟩ <;> rfl)
  awaiting _ := rfl
  holding _ := rfl
  inOrder _ _ := List.prefix_refl _
  relay _ _ _ _ := rfl

end Inv

end

/-! ## Steps -/

section

variable [DecidableEq Conn] {C : Connections Conn Loc} {ls : List (Label Conn Loc Val)}
  {S S' : State Conn Loc Val} {I : Channels (Port Conn) Loc Val} {c : Conn} {l : Label Conn Loc Val}
  {F : Fabric (Port Conn) Loc Val}

namespace Inv

/-- What is about no transfer and no acknowledgement changes the network only. -/
theorem quiet {I' : Channels (Port Conn) Loc Val} (h : Inv C ls S I) (hl : l.Quiet)
    (ht : Tracks (wiring C) (Good ls) F I' (posted ls) (taken ls)) :
    Inv C (ls ++ [l]) { S with fabric := F } I' := by
  have hposted := posted_same ls (fun c => (hl c).1) fun c => (hl c).2.2.1
  have htaken := taken_same ls (fun c => (hl c).2.1) fun c => (hl c).2.2.2
  constructor
  · rw [good_same fun c => (hl c).1]
    exact ht.recount hposted htaken
  · intro c
    rw [hposted, htaken]
    exact h.awaiting c
  · intro c
    rw [hposted, htaken]
    exact h.holding c
  · intro c hc
    rw [sent_snoc, received_snoc, (hl c).1, (hl c).2.1]
    simpa using h.inOrder c hc
  · exact h.relay

theorem initTransfer (h : Inv C ls S I) (idle : S.awaiting c = false)
    (own : ∀ c', C.target c' = C.source c → S.holding c' = true) :
    Inv C (ls ++ [.initTransfer c (S.fabric.mem (C.source c))])
      { S with
        fabric := SingleSided.initTransfer (wiring C) S.fabric (.source c)
        awaiting := Function.update S.awaiting c true }
      (I.post (wiring C) (.target c)) := by
  obtain ⟨ht, hs, hh⟩ := h.level_of_idle idle
  have hmem : S.fabric.mem (C.source c) = I.mem (C.source c) :=
    h.tracks.mem_eq fun q hq hlt => h.apart_target own hq hlt
  have hsent : ∀ c' (k : Nat) v, (sent c' ls)[k]? = some v →
      (sent c' (ls ++ [.initTransfer c (S.fabric.mem (C.source c))]))[k]? = some v := by
    intro c' k v hk
    rw [sent_snoc, List.getElem?_append_left (List.getElem?_eq_some_iff.mp hk).1]
    exact hk
  have htaken := taken_same ls (l := .initTransfer c (S.fabric.mem (C.source c))) (fun _ => rfl) fun _ => rfl
  constructor
  · refine Tracks.recount (Tracks.post (h.tracks.mono ?_) ht.symm ?_ ?_ ?_ ?_ ?_) posted_transfer ?_
    · rintro (c' | c') k v hg
      · trivial
      · exact hsent c' k v hg
    · exact fun _ => C.target_ne_source c
    · exact fun _ q hq hlt => h.apart_target own hq hlt
    -- another message to this memory would be one of this connection
    · rintro - q hq hlt he
      obtain ⟨c', rfl, ha, -⟩ := h.target_of_lt hq hlt
      obtain rfl := C.target_injective he
      rw [idle] at ha
      cases ha
    -- nobody relays from the target, which is not completed
    · rintro - q hq hf he
      obtain ⟨c', rfl, ha, -⟩ := h.target_of_lt hq (h.tracks.lt_of_flight hf)
      rw [h.relay c c' he.symm hh] at ha
      cases ha
    · intro _
      show (sent c _)[(sent c ls).length]? = some (I.mem (C.source c))
      rw [sent_snoc, hmem]
      simp [Label.sent]
    · exact htaken
  · intro c'
    have := h.awaiting c'
    rw [posted_transfer, bump_apply, htaken]
    by_cases hc : c' = c
    · subst hc
      rw [idle] at this
      simpa using this
    · simpa [hc] using this
  · intro c'
    rw [posted_transfer, bump_apply, htaken]
    simpa using h.holding c'
  · intro c' hc'
    rw [sent_snoc, received_snoc]
    simpa [Label.received] using (h.inOrder c' hc').trans (List.prefix_append _ _)
  · intro c₁ c₂ he hhold
    by_cases hc : c₂ = c
    · subst hc
      rw [own c₁ he.symm] at hhold
      cases hhold
    · exact (Function.update_of_ne hc ..).trans (h.relay c₁ c₂ he hhold)

theorem ackTransfer (h : Inv C ls S I) (held : S.holding c = true)
    (own : ∀ c', C.source c' = C.target c → S.awaiting c' = false) :
    Inv C (ls ++ [.ackTransfer c])
      { S with
        fabric := SingleSided.ackTransfer (wiring C) S.fabric (.target c)
        holding := Function.update S.holding c false }
      (I.post (wiring C) (.source c)) := by
  have hlevel := (h.level_of_held held).2
  have htaken := taken_same ls (l := .ackTransfer c) (fun _ => rfl) fun _ => rfl
  constructor
  · rw [good_same fun _ => rfl]
    exact (h.tracks.post_bare rfl hlevel.symm).recount posted_ack htaken
  · intro c'
    rw [posted_ack, bump_apply, htaken]
    simpa using h.awaiting c'
  · intro c'
    have := h.holding c'
    rw [posted_ack, bump_apply, htaken]
    by_cases hc : c' = c
    · subst hc
      rw [held] at this
      simpa using this
    · simpa [hc] using this
  · intro c' hc'
    rw [sent_snoc, received_snoc]
    simpa [Label.sent, Label.received] using h.inOrder c' hc'
  · intro c₁ c₂ he hhold
    by_cases hc : c₁ = c
    · subst hc
      exact own c₂ he
    · exact h.relay c₁ c₂ he (by simpa [hc] using hhold)

variable [DecidableEq Loc]

theorem write {a : Loc} (h : Inv C ls S I) (v : Val) (own : Owned C S a) :
    Inv C (ls ++ [.write a v]) { S with fabric := S.fabric.write a v } (I.write a v) :=
  h.quiet (fun _ => ⟨rfl, rfl, rfl, rfl⟩)
    (h.tracks.write v (fun _ hp hlt => h.apart_target own.target hp hlt)
      (fun _ hp hf => h.apart_source own.source hp hf))

theorem completion (h : Inv C ls S I) (idle : S.holding c = false) (hs : S.fabric.slot (.target c) = true) :
    ∃ I', Inv C (ls ++ [.completion c (S.fabric.mem (C.target c))])
      { S with fabric := S.fabric.reset (.target c), holding := Function.update S.holding c true } I' := by
  obtain ⟨v, hv, hgood, ht⟩ := h.tracks.take hs
  have hread : C.size c ≠ 0 → S.fabric.mem (C.target c) = v := by
    obtain ⟨w, hw, -, hm⟩ := h.tracks.sim.msg_of_slot hs
    rw [hv] at hw
    obtain rfl := Option.some.inj hw
    exact fun hc => hm (by simpa [wiring] using hc)
  have hposted := posted_same ls (l := .completion c (S.fabric.mem (C.target c))) (fun _ => rfl) fun _ => rfl
  refine ⟨I.take (wiring C) (.target c) v, ?_, ?_, ?_, ?_, ?_⟩
  · rw [good_same fun _ => rfl]
    exact ht.recount hposted taken_completion
  · intro c'
    rw [hposted, taken_completion, bump_apply]
    simpa using h.awaiting c'
  · intro c'
    have := h.holding c'
    rw [hposted, taken_completion, bump_apply]
    by_cases hc : c' = c
    · subst hc
      rw [idle] at this
      simpa using this
    · simpa [hc] using this
  · intro c' hc'
    rw [sent_snoc, received_snoc]
    by_cases hc : c' = c
    · subst hc
      have hnext : (sent c' ls)[(received c' ls).length]? = some v := hgood (by simpa [wiring] using hc')
      have htake : received c' ls ++ [v] = (sent c' ls).take ((received c' ls).length + 1) := by
        rw [List.take_add_one, hnext, ← List.prefix_iff_eq_take.mp (h.inOrder c' hc')]
        rfl
      simpa [Label.sent, Label.received, hread hc', htake] using List.take_prefix _ (sent c' ls)
    · simpa [Label.sent, Label.received, Ne.symm hc] using h.inOrder c' hc'
  · intro c₁ c₂ he hhold
    by_cases hc : c₁ = c
    · subst hc
      simp at hhold
    · exact h.relay c₁ c₂ he (by simpa [hc] using hhold)

theorem transferAck (h : Inv C ls S I) (wait : S.awaiting c = true) (hs : S.fabric.slot (.source c) = true) :
    ∃ I', Inv C (ls ++ [.transferAck c])
      { S with fabric := S.fabric.reset (.source c), awaiting := Function.update S.awaiting c false } I' := by
  obtain ⟨v, hv, -, ht⟩ := h.tracks.take hs
  have hposted := posted_same ls (l := .transferAck c) (fun _ => rfl) fun _ => rfl
  refine ⟨I.take (wiring C) (.source c) v, ?_, ?_, ?_, ?_, ?_⟩
  · rw [good_same fun _ => rfl]
    exact ht.recount hposted taken_transferAck
  · intro c'
    have := h.awaiting c'
    rw [hposted, taken_transferAck, bump_apply]
    by_cases hc : c' = c
    · subst hc
      rw [wait] at this
      simpa using this
    · simpa [hc] using this
  · intro c'
    rw [hposted, taken_transferAck, bump_apply]
    simpa using h.holding c'
  · intro c' hc'
    rw [sent_snoc, received_snoc]
    simpa [Label.sent, Label.received] using h.inOrder c' hc'
  · intro c₁ c₂ he hhold
    by_cases hc : c₂ = c
    · subst hc
      simp
    · exact (Function.update_of_ne hc ..).trans (h.relay c₁ c₂ he hhold)

theorem step (h : Inv C ls S I) (hstep : Step C S l S') : ∃ I', Inv C (ls ++ [l]) S' I' := by
  cases hstep with
  | write v own => exact ⟨_, h.write v own⟩
  | initTransfer idle own => exact ⟨_, h.initTransfer idle own⟩
  | waitForCompletion idle hw =>
    obtain ⟨hs, rfl⟩ := waitForCompletion_some hw
    exact h.completion idle hs
  | checkForCompletion idle hw =>
    obtain ⟨hs, rfl⟩ := checkForNotification_true hw
    exact h.completion idle hs
  | ackTransfer held own => exact ⟨_, h.ackTransfer held own⟩
  | waitForTransferAck wait hw =>
    obtain ⟨hs, rfl⟩ := waitForTransferAck_some hw
    exact h.transferAck wait hs
  | checkForTransferAck wait hw =>
    obtain ⟨hs, rfl⟩ := checkForNotification_true hw
    exact h.transferAck wait hs
  | check hw =>
    obtain rfl := checkForNotification_false hw
    exact ⟨_, h.quiet (fun _ => ⟨rfl, rfl, rfl, rfl⟩) h.tracks⟩
  | network ha => exact ⟨_, h.quiet (fun _ => ⟨rfl, rfl, rfl, rfl⟩) (h.tracks.advance ha)⟩

end Inv

variable [DecidableEq Loc]

theorem exists_inv {m : Loc → Val} (h : Trace (Step C) (.connected m) ls S) : ∃ I, Inv C ls S I :=
  h.history (P := fun ls S => ∃ I, Inv C ls S I) ⟨_, Inv.inv_connected C m⟩
    fun _ _ _ _ ⟨_, hI⟩ hl => hI.step hl

/-- **Acknowledged transfers arrive once, in order and unmodified.** -/
theorem transfers_acknowledged {m : Loc → Val} (h : Trace (Step C) (.connected m) ls S) : Acknowledged C ls S := by
  obtain ⟨I, hI⟩ := exists_inv h
  exact hI.toAcknowledged

/-- A rank passes on what it gets. -/
def relay : Connections Bool Nat where
  source c := if c then 1 else 0
  target c := if c then 2 else 1
  size _ := 1
  target_injective := by decide
  target_ne_source := by decide

def relayed : List (Label Bool Nat Nat) :=
  [.write 0 7, .initTransfer false 7, .checked (.target false), .network, .network, .network, .completion false 7,
    .initTransfer true 7, .network, .network, .network, .completion true 7, .ackTransfer true, .network,
    .transferAck true, .ackTransfer false]

theorem transfers_acknowledged_relay :
    ∃ S, Trace (Step relay) (.connected fun _ => 0) relayed S ∧ received true relayed = [7] ∧
      Acknowledged relay relayed S := by
  have written : Trace (Step relay) (.connected fun _ => 0) _ _ :=
    Trace.single (@Step.write _ _ _ _ _ _ _ 0 7 ⟨by decide, by decide⟩)
  have posted := (written.snoc (@Step.initTransfer _ _ _ _ _ _ _ false rfl (by decide))).snoc
    (@Step.check _ _ _ _ _ _ _ (.target false) _ rfl)
  have arrived := ((posted.snoc (@Step.network _ _ _ _ _ _ _ (.target false) 0 _ rfl)).snoc
    (@Step.network _ _ _ _ _ _ _ (.target false) 0 _ rfl)).snoc
    (@Step.network _ _ _ _ _ _ _ (.target false) 0 _ rfl)
  have passed := (arrived.snoc (@Step.waitForCompletion _ _ _ _ _ _ _ false _ rfl rfl)).snoc
    (@Step.initTransfer _ _ _ _ _ _ _ true rfl (by decide))
  have there := ((passed.snoc (@Step.network _ _ _ _ _ _ _ (.target true) 0 _ rfl)).snoc
    (@Step.network _ _ _ _ _ _ _ (.target true) 0 _ rfl)).snoc
    (@Step.network _ _ _ _ _ _ _ (.target true) 0 _ rfl)
  have acked := ((there.snoc (@Step.checkForCompletion _ _ _ _ _ _ _ true _ rfl rfl)).snoc
    (@Step.ackTransfer _ _ _ _ _ _ _ true rfl (by decide))).snoc
    (@Step.network _ _ _ _ _ _ _ (.source true) 0 _ rfl)
  have whole : Trace (Step relay) _ relayed _ :=
    (acked.snoc (@Step.waitForTransferAck _ _ _ _ _ _ _ true _ rfl rfl)).snoc
      (@Step.ackTransfer _ _ _ _ _ _ _ false rfl (by decide))
  exact ⟨_, whole, rfl, transfers_acknowledged whole⟩

end

end Transfers

end GaspiCxx.SingleSided
