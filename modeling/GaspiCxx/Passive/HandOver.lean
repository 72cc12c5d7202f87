import GaspiCxx.Passive.Barriers

/-!
# The hand-over in runs without spurious wake-ups

`State.Contents` is what the members and the requested buffer hold, by where the
threads are. Together with `State.Meets` and the messages received and returned so
far it makes the invariant `Inv` of a run whose waits end by signals and whose
sizes fit an `int`. The members a step reads are then those of the message it
belongs to, and the calls return the messages one by one (`recvMessg_handOver`).
-/

namespace GaspiCxx.Passive.RecvMessg

open Runs

/-! ## The requested buffer -/

namespace Requested

variable {N : Requested} {b c : Address} {bytes : List UInt8}

/-- Nothing is on its way and nothing has arrived. -/
def Quiet (N : Requested) : Prop := N.inFlight = [] ∧ ∀ b, N.notified b = false

/-- The bytes are on their way to `b`. -/
def Coming (N : Requested) (b : Address) (bytes : List UInt8) : Prop :=
  N.inFlight = [(b, bytes)] ∧ ∀ c, N.notified c = false

/-- The bytes are in `b`, with the notification. -/
def Arrived (N : Requested) (b : Address) (bytes : List UInt8) : Prop :=
  N.inFlight = [] ∧ (∀ c, N.notified c = true → c = b) ∧ (N.memory b).take bytes.length = bytes

def Due (N : Requested) (b : Address) (bytes : List UInt8) : Prop := N.Coming b bytes ∨ N.Arrived b bytes

/-- The bytes are in `b` and the notification has been taken. -/
def Taken (N : Requested) (b : Address) (bytes : List UInt8) : Prop :=
  N.Quiet ∧ (N.memory b).take bytes.length = bytes

theorem Quiet.release (h : N.Quiet) (ptr : Option Address) : (N.release ptr).Quiet := h

theorem Due.release (h : N.Due b bytes) (ptr : Option Address) : (N.release ptr).Due b bytes := h

theorem Quiet.request (h : N.Quiet) (b : Address) (bytes : List UInt8) : (N.request b bytes).Due b bytes := by
  left
  refine ⟨?_, h.2⟩
  unfold Requested.request
  rw [h.1]; rfl

theorem Due.waitForNotification (h : N.Due b bytes) (hc : N.notified c = true) :
    c = b ∧ (N.waitForNotification c).Taken b bytes := by
  obtain ⟨-, hnone⟩ | ⟨hflight, hone, hmem⟩ := h
  · rw [hnone] at hc; cases hc
  · obtain rfl := hone c hc
    refine ⟨rfl, ⟨hflight, fun d => ?_⟩, hmem⟩
    by_cases hd : d = c
    · rw [hd]; exact Function.update_self ..
    · refine (Function.update_of_ne hd ..).trans ?_
      by_contra htrue
      exact hd (hone d (by simpa using htrue))

/-- What arrives is what was due. -/
theorem Due.deliver {before after : List (Address × List UInt8)} {arriving : List UInt8} (h : N.Due b bytes)
    (hf : N.inFlight = before ++ (c, arriving) :: after) :
    (N.deliver c arriving (before ++ after)).Due b bytes := by
  obtain ⟨hflight, hnone⟩ | ⟨hflight, -, -⟩ := h
  · rw [hflight] at hf
    cases before with
    | nil =>
      obtain ⟨hpair, rfl⟩ := List.cons.inj hf
      cases hpair
      right
      refine ⟨rfl, fun d hd => ?_, ?_⟩
      · by_contra hne
        have hkept : (N.deliver b bytes ([] ++ [])).notified d = N.notified d := Function.update_of_ne hne ..
        rw [hkept, hnone] at hd; cases hd
      · have hmem : (N.deliver b bytes ([] ++ [])).memory b = bytes ++ (N.memory b).drop bytes.length :=
          Function.update_self ..
        rw [hmem, List.take_left]
    | cons x rest =>
      obtain ⟨-, hrest⟩ := List.cons.inj hf
      simp at hrest
  · rw [hflight] at hf; simp at hf

theorem Quiet.no_delivery {before after : List (Address × List UInt8)} (h : N.Quiet)
    (hf : N.inFlight = before ++ (c, bytes) :: after) : False := by
  rw [h.1] at hf; simp at hf

end Requested

/-! ## What the members hold -/

/-- The buffer a local pointer of `recvMessg` points to. -/
def UserPc.holds : UserPc → Option Address
  | waitForNotification _ _ b => some b
  | memcpy _ _ b => some b
  | _ => none

/-- The notification has been taken, the pointer not yet reset. -/
def UserPc.consumed : UserPc → Bool
  | address _ _ => true
  | memcpy _ _ _ => true
  | reset _ _ => true
  | _ => false

/-- The locals of `recvMessg`, for the message it hands over. -/
def UserPc.Knows (message : Option Message) : UserPc → Prop
  | rank Data => ∃ m, message = some m ∧ Data.length = m.bytes.length
  | ptr Data r => ∃ m, message = some m ∧ Data.length = m.bytes.length ∧ r = m.rank
  | waitForNotification Data r _ => ∃ m, message = some m ∧ Data.length = m.bytes.length ∧ r = m.rank
  | address Data r => ∃ m, message = some m ∧ Data.length = m.bytes.length ∧ r = m.rank
  | memcpy Data r _ => ∃ m, message = some m ∧ Data.length = m.bytes.length ∧ r = m.rank
  | reset Data r => ∃ m, message = some m ∧ Data = m.bytes ∧ r = m.rank
  | second Data r => ∃ m, message = some m ∧ Data = m.bytes ∧ r = m.rank
  | returns Data r => ∃ m, message = some m ∧ Data = m.bytes ∧ r = m.rank
  | crashed => False
  | _ => True

/-- More messages may come. -/
theorem UserPc.Knows.mono {o o' : Option Message} {pc : UserPc} (h : pc.Knows o)
    (ho : ∀ m, o = some m → o' = some m) : pc.Knows o' := by
  cases pc with
  | outside | first | resize => trivial
  | crashed => exact h
  | _ =>
    obtain ⟨m, hm, hm'⟩ := h
    exact ⟨m, ho m hm, hm'⟩

theorem UserPc.Knows.passed {o : Option Message} {pc : UserPc} (h : pc.Knows o) : pc.passed.Knows o := by
  cases pc with
  | first => trivial
  | _ => exact h

namespace State

variable {S : State} {D : List Message} {k k' i : Nat} {m : Message}

/-- The buffer of `m` behind the pointer, with the notification still to take or taken. -/
def AtHand (S : State) (m : Message) : Prop :=
  ∃ b, S.passive_msg_ptr_ = some b ∧ (∀ c, S.user.holds = some c → c = b) ∧
    (S.user.consumed = false ∧ S.requested.Due b m.bytes ∨ S.user.consumed = true ∧ S.requested.Taken b m.bytes)

/-- `m` is stored. Its pointer is reset once the user is through with it. -/
structure Offers (S : State) (k i : Nat) (m : Message) : Prop where
  size : S.passive_msg_size_ = m.bytes.length
  rank : S.passive_msg_rank_ = m.rank
  buffer : k + S.user.resets = i + 1 ∧ S.passive_msg_ptr_ = none ∧ S.requested.Quiet ∨
    k + S.user.resets = i ∧ S.AtHand m

/-- `D` are the messages received for the hand-over, the one in hand is `D[i]`. -/
def Contents (S : State) (D : List Message) (k i : Nat) : Prop :=
  match S.passive with
  | .recvPassive => S.passive_msg_ptr_ = none ∧ S.requested.Quiet
  | .finished => S.passive_msg_ptr_ = none ∧ S.requested.Quiet
  | .request m => D[i]? = some m ∧ S.passive_msg_ptr_ = none ∧ S.requested.Quiet
  | .store f m b => D[i]? = some m ∧ S.passive_msg_ptr_ = none ∧ S.requested.Due b m.bytes ∧
      (Field.size.index < f.index → S.passive_msg_size_ = m.bytes.length) ∧
      (Field.rank.index < f.index → S.passive_msg_rank_ = m.rank)
  | .first => ∃ m, D[i]? = some m ∧ S.Offers k i m
  | .second => ∃ m, D[i]? = some m ∧ S.Offers k i m

theorem Contents.offers (h : S.Contents D k i) (hp : S.passive = .first ∨ S.passive = .second) :
    ∃ m, D[i]? = some m ∧ S.Offers k i m := by
  unfold Contents at h
  obtain hp | hp := hp <;> (rw [hp] at h; exact h)

theorem Contents.of_offers (hp : S.passive = .first ∨ S.passive = .second) (hm : D[i]? = some m)
    (h : S.Offers k i m) : S.Contents D k i := by
  unfold Contents
  obtain hp | hp := hp <;> (rw [hp]; exact ⟨m, hm, h⟩)

/-- The user's place only counts by what it has reset, taken and points to. -/
theorem Contents.ofUser (h : S.Contents D k i) (R : Rendezvous Party) (pc : UserPc)
    (hresets : k' + pc.resets = k + S.user.resets) (hconsumed : pc.consumed = S.user.consumed)
    (hholds : ∀ c, pc.holds = some c → S.passive_msg_ptr_ = some c) :
    Contents { S with passive_fwd_recv := R, user := pc } D k' i := by
  have hoffers : ∀ {m}, S.Offers k i m → Offers { S with passive_fwd_recv := R, user := pc } k' i m := by
    rintro m ⟨hsize, hrank, ⟨hk, hbuffer⟩ | ⟨hk, b, hb, -, hbuffer⟩⟩
    · exact ⟨hsize, hrank, .inl ⟨hresets.trans hk, hbuffer⟩⟩
    · refine ⟨hsize, hrank, .inr ⟨hresets.trans hk, b, hb, fun c hc => ?_, ?_⟩⟩
      · have hptr := hholds c hc
        rw [hb] at hptr
        exact (Option.some.inj hptr).symm
      · dsimp only
        rw [hconsumed]; exact hbuffer
  unfold Contents at h ⊢
  dsimp only
  split at h
  · exact h
  · exact h
  · exact h
  · exact h
  · obtain ⟨m, hm, ho⟩ := h
    exact ⟨m, hm, hoffers ho⟩
  · obtain ⟨m, hm, ho⟩ := h
    exact ⟨m, hm, hoffers ho⟩

/-- Between its barriers the user finds its message in the members. -/
theorem Contents.reading (h : S.Contents D k i) (hm : S.Meets k i) (hu : S.user.barriers = 1)
    (hr : S.user.resets = 0) (hb : S.user.atBarrier = false) :
    i = k ∧ (S.passive = .first ∨ S.passive = .second) ∧ ∃ m, D[k]? = some m ∧
      S.passive_msg_size_ = m.bytes.length ∧ S.passive_msg_rank_ = m.rank ∧ S.AtHand m := by
  obtain ⟨rfl, hp⟩ := hm.reading hu hb
  obtain ⟨m, hD, hsize, hrank, ⟨hk, -⟩ | ⟨-, hhand⟩⟩ := h.offers hp
  · rw [hr] at hk; omega
  · exact ⟨rfl, hp, m, hD, hsize, hrank, hhand⟩

end State

/-! ## The invariant -/

theorem prefix_snoc {α : Type} {xs ys : List α} {x : α} (h : xs <+: ys) (hx : ys[xs.length]? = some x) :
    xs ++ [x] <+: ys := by
  obtain ⟨rest, rfl⟩ := h
  rw [List.getElem?_append_right (Nat.le_refl _), Nat.sub_self] at hx
  cases rest with
  | nil => cases hx
  | cons y rest =>
    obtain rfl := Option.some.inj hx
    exact ⟨rest, by rw [List.append_assoc]; rfl⟩

/-- `D` has been received and `R` returned, and `n f` counts the stores of `f`. -/
structure Inv (D : List Message) (R : List (List UInt8 × Int)) (n : Field → Nat) (i : Nat) (S : State) : Prop where
  received : D.length = i + S.passive.pending
  small : ∀ m ∈ D, m.bytes.length < 2 ^ 31
  stores : ∀ f, n f = i + S.passive.storesDone f
  meets : S.Meets R.length i
  contents : S.Contents D R.length i
  knows : S.user.Knows D[R.length]?
  results : R <+: D.map Message.result

namespace Inv

variable {S : State} {D : List Message} {R : List (List UInt8 × Int)} {n : Field → Nat} {i : Nat}
  {Data : List UInt8} {rank : Int}

theorem constructed (tag size rank : Int) (allocated : Finset Address) (memory : Address → List UInt8) :
    Inv [] [] (fun _ => 0) 0 (.constructed tag size rank allocated memory) where
  received := rfl
  small m hm := by cases hm
  stores _ := rfl
  meets := ⟨.initial (fun _ => rfl) rfl (fun p => by cases p <;> rfl), fun _ hp => absurd rfl hp⟩
  contents := ⟨rfl, rfl, fun _ => rfl⟩
  knows := trivial
  results := List.prefix_rfl

/-! ### The user -/

/-- A step of the user that leaves the members and the buffers alone. -/
theorem local_step {pc₀ pc : UserPc} (h : Inv D R n i S) (hu : S.user = pc₀) (hb : pc₀.atBarrier = false)
    (hbarriers : pc.barriers = pc₀.barriers) (hresets : pc.resets = pc₀.resets)
    (hconsumed : pc.consumed = pc₀.consumed) (hholds : ∀ c, pc.holds = some c → S.passive_msg_ptr_ = some c)
    (hknows : pc.Knows D[R.length]?) : Inv D R n i { S with user := pc } := by
  subst hu
  exact
    { received := h.received
      small := h.small
      stores := h.stores
      meets := h.meets.ofUser hb rfl rfl (by rw [hbarriers])
      contents := h.contents.ofUser S.passive_fwd_recv pc (by rw [hresets]) hconsumed hholds
      knows := hknows
      results := h.results }

/-- Where the user reads, the members are those of message `D[R.length]`. -/
theorem reading {pc : UserPc} (h : Inv D R n i S) (hu : S.user = pc) (hb : pc.atBarrier = false)
    (hbarriers : pc.barriers = 1) (hresets : pc.resets = 0) :
    i = R.length ∧ (S.passive = .first ∨ S.passive = .second) ∧ pc.Knows D[R.length]? ∧ ∃ m,
      D[R.length]? = some m ∧ S.passive_msg_size_ = m.bytes.length ∧ S.passive_msg_rank_ = m.rank ∧ S.AtHand m := by
  subst hu
  obtain ⟨hi, hp, m, hm, hsize, hrank, hhand⟩ := h.contents.reading h.meets hbarriers hresets hb
  exact ⟨hi, hp, h.knows, m, hm, hsize, hrank, hhand⟩

/-- A local pointer of `recvMessg` is the member's. -/
theorem pointed {c : Address} (h : Inv D R n i S) (hc : S.user.holds = some c) : S.passive_msg_ptr_ = some c := by
  have hbetween : S.user.atBarrier = false ∧ S.user.barriers = 1 ∧ S.user.resets = 0 := by
    cases hu : S.user with
    | waitForNotification Data rank b => exact ⟨rfl, rfl, rfl⟩
    | memcpy Data rank b => exact ⟨rfl, rfl, rfl⟩
    | _ => rw [hu] at hc; cases hc
  obtain ⟨hb, hbarriers, hresets⟩ := hbetween
  obtain ⟨-, -, -, -, -, -, -, b, hptr, hholds, -⟩ := h.reading rfl hb hbarriers hresets
  rw [hptr, hholds c hc]

/-- A step that changes members or buffers while the message is offered. -/
theorem offered_step {pc₀ : UserPc} {S' : State} {m : Message} (h : Inv D R n i S) (hu : S.user = pc₀)
    (hb : pc₀.atBarrier = false) (hfwd : S'.passive_fwd_recv = S.passive_fwd_recv) (hpassive : S'.passive = S.passive)
    (hbarriers : S'.user.barriers = pc₀.barriers) (hp : S.passive = .first ∨ S.passive = .second)
    (hm : D[i]? = some m) (ho : S'.Offers R.length i m) (hknows : S'.user.Knows D[R.length]?) :
    Inv D R n i S' := by
  subst hu
  refine
    { received := by rw [hpassive]; exact h.received
      small := h.small
      stores := by rw [hpassive]; exact h.stores
      meets := h.meets.ofUser hb hfwd hpassive (by rw [hbarriers])
      contents := .of_offers (by rw [hpassive]; exact hp) hm ho
      knows := hknows
      results := h.results }

theorem recvMessg (h : Inv D R n i S) (hu : S.user = .outside) : Inv D R n i { S with user := .first } :=
  h.local_step hu rfl rfl rfl rfl (fun _ hc => by cases hc) trivial

theorem resize (h : Inv D R n i S) (hu : S.user = .resize) :
    0 ≤ S.passive_msg_size_ ∧
      Inv D R n i { S with user := .rank (List.replicate S.passive_msg_size_.toNat 0) } := by
  obtain ⟨-, -, -, m, hm, hsize, -, -⟩ := h.reading hu rfl rfl rfl
  refine ⟨by omega, h.local_step hu rfl rfl rfl rfl (fun _ hc => by cases hc) ⟨m, hm, ?_⟩⟩
  rw [List.length_replicate, hsize, Int.toNat_natCast]

theorem rank_step (h : Inv D R n i S) (hu : S.user = .rank Data) :
    Inv D R n i { S with user := .ptr Data S.passive_msg_rank_ } := by
  obtain ⟨-, -, ⟨m', hm', hlen⟩, m, hm, -, hrank, -⟩ := h.reading hu rfl rfl rfl
  obtain rfl := Option.some.inj (hm.symm.trans hm')
  exact h.local_step hu rfl rfl rfl rfl (fun _ hc => by cases hc) ⟨m, hm, hlen, hrank⟩

theorem ptr (h : Inv D R n i S) (hu : S.user = .ptr Data rank) :
    Inv D R n i { S with user := .deref S.passive_msg_ptr_ (.waitForNotification Data rank) } := by
  obtain ⟨-, -, hknows, -, -, -, -, b, hb, -, -⟩ := h.reading hu rfl rfl rfl
  have hderef : UserPc.deref S.passive_msg_ptr_ (.waitForNotification Data rank) = .waitForNotification Data rank b := by
    rw [hb]; rfl
  rw [hderef]
  exact h.local_step hu rfl rfl rfl rfl (fun _ hc => hb.trans hc) hknows

theorem address (h : Inv D R n i S) (hu : S.user = .address Data rank) :
    Inv D R n i { S with user := .deref S.passive_msg_ptr_ (.memcpy Data rank) } := by
  obtain ⟨-, -, hknows, -, -, -, -, b, hb, -, -⟩ := h.reading hu rfl rfl rfl
  have hderef : UserPc.deref S.passive_msg_ptr_ (.memcpy Data rank) = .memcpy Data rank b := by
    rw [hb]; rfl
  rw [hderef]
  exact h.local_step hu rfl rfl rfl rfl (fun _ hc => hb.trans hc) hknows

theorem waitForNotification {b : Address} (h : Inv D R n i S) (hu : S.user = .waitForNotification Data rank b)
    (arrived : S.requested.notified b = true) :
    Inv D R n i { S with user := .address Data rank, requested := S.requested.waitForNotification b } := by
  obtain ⟨rfl, hp, hknows, m, hm, hsize, hrank, c, hc, -, hbuffer⟩ := h.reading hu rfl rfl rfl
  rw [hu] at hbuffer
  obtain ⟨-, hdue⟩ | ⟨hcon, -⟩ := hbuffer
  · obtain ⟨rfl, htaken⟩ := hdue.waitForNotification arrived
    exact h.offered_step hu rfl rfl rfl rfl hp hm
      ⟨hsize, hrank, .inr ⟨rfl, b, hc, fun _ hd => (by cases hd), .inr ⟨rfl, htaken⟩⟩⟩ hknows
  · cases hcon

/-- The copied bytes are the message: the size is its length, and so is `Data`'s. -/
theorem memcpy {b : Address} (h : Inv D R n i S) (hu : S.user = .memcpy Data rank b) :
    Inv D R n i
      { S with
        user := .reset
          ((S.requested.memory b).take S.passive_msg_size_.toNat ++ Data.drop S.passive_msg_size_.toNat) rank } := by
  obtain ⟨-, -, ⟨m', hm', hlen, hr⟩, m, hm, hsize, hrank, c, hc, hholds, hbuffer⟩ := h.reading hu rfl rfl rfl
  obtain rfl := Option.some.inj (hm.symm.trans hm')
  rw [hu] at hbuffer hholds
  obtain rfl := hholds b rfl
  obtain ⟨hcon, -⟩ | ⟨-, -, hmem⟩ := hbuffer
  · cases hcon
  · have hcopied : (S.requested.memory b).take S.passive_msg_size_.toNat ++ Data.drop S.passive_msg_size_.toNat =
        m.bytes := by
      rw [hsize, Int.toNat_natCast, hmem, ← hlen, List.drop_length, List.append_nil]
    rw [hcopied]
    exact h.local_step hu rfl rfl rfl rfl (fun _ hd => by cases hd) ⟨m, hm, rfl, hr⟩

theorem reset (h : Inv D R n i S) (hu : S.user = .reset Data rank) :
    Inv D R n i
      { S with
        user := .second Data rank
        passive_msg_ptr_ := none
        requested := S.requested.release S.passive_msg_ptr_ } := by
  obtain ⟨rfl, hp, hknows, m, hm, hsize, hrank, c, hc, -, hbuffer⟩ := h.reading hu rfl rfl rfl
  rw [hu] at hbuffer
  obtain ⟨hcon, -⟩ | ⟨-, hquiet, -⟩ := hbuffer
  · cases hcon
  · exact h.offered_step hu rfl rfl rfl rfl hp hm ⟨hsize, hrank, .inl ⟨rfl, rfl, hquiet.release _⟩⟩ hknows

/-- The next message has been returned. -/
theorem returns (h : Inv D R n i S) (hu : S.user = .returns Data rank) :
    Inv D (R ++ [(Data, rank)]) n i { S with user := .outside } := by
  have hknows := h.knows
  rw [hu] at hknows
  obtain ⟨m, hm, rfl, rfl⟩ := hknows
  have hlen : (R ++ [m.result]).length = R.length + 1 := by simp
  have hb : S.user.atBarrier = false := by rw [hu]; rfl
  have hbarriers : S.user.barriers = 2 := by rw [hu]; rfl
  have hresets : S.user.resets = 1 := by rw [hu]; rfl
  refine ⟨h.received, h.small, h.stores, ?_, ?_, trivial, ?_⟩
  · refine h.meets.ofUser hb rfl rfl ?_
    rw [hbarriers]
    exact congrArg (2 * ·) hlen
  · refine h.contents.ofUser S.passive_fwd_recv .outside ?_ (by rw [hu]; rfl) (fun _ hc => by cases hc)
    rw [hresets]
    exact hlen
  · have hget : (D.map Message.result)[R.length]? = some m.result := by rw [List.getElem?_map, hm]; rfl
    exact prefix_snoc h.results hget

/-! ### The passive thread -/

/-- Nothing of the message in hand has been read while the passive thread is away
from its barriers. -/
theorem not_reading (h : Inv D R n i S) (hb : S.passive.atBarrier = false) :
    S.user.holds = none ∧ S.user.consumed = false := by
  have hbetween : S.user.barriers = 1 → S.user.atBarrier = false → False := by
    intro hbarriers hu
    obtain ⟨-, hp | hp⟩ := h.meets.reading hbarriers hu
    · rw [hp] at hb; cases hb
    · rw [hp] at hb; cases hb
  cases hu : S.user with
  | waitForNotification Data rank b => rw [hu] at hbetween; exact (hbetween rfl rfl).elim
  | address Data rank => rw [hu] at hbetween; exact (hbetween rfl rfl).elim
  | memcpy Data rank b => rw [hu] at hbetween; exact (hbetween rfl rfl).elim
  | reset Data rank => rw [hu] at hbetween; exact (hbetween rfl rfl).elim
  | _ => exact ⟨rfl, rfl⟩

theorem receive (h : Inv D R n i S) (hp : S.passive = .recvPassive) (m : Message)
    (hm : m.handedOver = true → m.bytes.length < 2 ^ 31) :
    Inv (D ++ if m.handedOver then [m] else []) R n i { S with passive := .dispatch m } := by
  have hlen : D.length = i := by
    have := h.received
    rw [hp] at this
    exact this
  have hcontents := h.contents
  unfold State.Contents at hcontents
  rw [hp] at hcontents
  have hstores : ∀ f, n f = i + (PassivePc.dispatch m).storesDone f := by
    intro f
    have hn := h.stores f
    rw [hp] at hn
    rw [hn]
    unfold PassivePc.dispatch
    cases m.tag <;> rfl
  have hmeets : State.Meets { S with passive := .dispatch m } R.length i := by
    refine h.meets.ofPassive (by rw [hp]; rfl) rfl rfl ?_
    show (PassivePc.dispatch m).barriers = 0
    unfold PassivePc.dispatch
    cases m.tag <;> rfl
  cases hd : m.handedOver with
  | true =>
    have hdispatch : PassivePc.dispatch m = .request m := by
      unfold Message.handedOver at hd
      unfold PassivePc.dispatch
      obtain ht | ht : m.tag = .DATP ∨ m.tag = .DATE := by simpa using hd
      · rw [ht]
      · rw [ht]
    have hget : (D ++ [m])[i]? = some m := by rw [← hlen, List.getElem?_concat_length]
    rw [hdispatch] at hstores hmeets ⊢
    refine
      { received := by rw [if_pos rfl, List.length_append, hlen]; rfl
        small := fun m' hm' => ?_
        stores := hstores
        meets := hmeets
        contents := ⟨hget, hcontents⟩
        knows := ?_
        results := ?_ }
    · obtain hold | hnew := List.mem_append.mp hm'
      · exact h.small m' hold
      · obtain rfl := List.mem_singleton.mp hnew
        exact hm hd
    · exact h.knows.mono fun m' hm' => List.getElem?_append_left (List.getElem?_eq_some_iff.mp hm').1 ▸ hm'
    · rw [List.map_append]
      exact h.results.trans (List.prefix_append _ _)
  | false =>
    have hdispatch : PassivePc.dispatch m = .recvPassive ∨ PassivePc.dispatch m = .finished := by
      unfold Message.handedOver at hd
      unfold PassivePc.dispatch
      cases ht : m.tag <;> simp [ht] at hd ⊢
    have hnil : (D ++ if false = true then [m] else []) = D := List.append_nil D
    rw [hnil]
    obtain hdispatch | hdispatch := hdispatch
    · rw [hdispatch] at hstores hmeets ⊢
      exact ⟨hlen, h.small, hstores, hmeets, hcontents, h.knows, h.results⟩
    · rw [hdispatch] at hstores hmeets ⊢
      exact ⟨hlen, h.small, hstores, hmeets, hcontents, h.knows, h.results⟩

theorem request {m : Message} (h : Inv D R n i S) (hp : S.passive = .request m) (b : Address) :
    Inv D R n i { S with passive := .store .tag m b, requested := S.requested.request b m.bytes } := by
  have hcontents := h.contents
  unfold State.Contents at hcontents
  rw [hp] at hcontents
  obtain ⟨hm, hptr, hquiet⟩ := hcontents
  have hreceived := h.received
  have hstores := h.stores
  rw [hp] at hreceived hstores
  exact
    { received := hreceived
      small := h.small
      stores := fun f => by rw [hstores f]; cases f <;> rfl
      meets := h.meets.ofPassive (by rw [hp]; rfl) rfl rfl rfl
      contents := ⟨hm, hptr, hquiet.request b m.bytes, fun hi => absurd hi (by decide), fun hi => absurd hi (by decide)⟩
      knows := h.knows
      results := h.results }

theorem store {f : Field} {m : Message} {b : Address} (h : Inv D R n i S) (hp : S.passive = .store f m b) :
    Inv D R (fun g => n g + if f = g then 1 else 0) i { S.store f m b with passive := .stored f m b } := by
  have hb : S.passive.atBarrier = false := by rw [hp]; rfl
  have hcontents := h.contents
  unfold State.Contents at hcontents
  rw [hp] at hcontents
  obtain ⟨hm, hptr, hdue, hsize, hrank⟩ := hcontents
  have hreceived := h.received
  have hstores := h.stores
  rw [hp] at hreceived hstores
  have hsmall : m.bytes.length < 2 ^ 31 := h.small m (List.mem_of_getElem? hm)
  have hk : R.length + S.user.resets = i := h.meets.storing hb
  obtain ⟨hholds, hconsumed⟩ := h.not_reading hb
  refine
    { received := hreceived.trans (by rw [PassivePc.stored_pending]; rfl)
      small := h.small
      stores := fun g => by rw [hstores g, Nat.add_assoc, ← PassivePc.storesDone_stored]
      meets := h.meets.ofPassive hb (S.store_fwd f m b) (S.store_user f m b) (PassivePc.stored_barriers f m b)
      contents := ?_
      knows := (S.store_user f m b).symm ▸ h.knows
      results := h.results }
  cases f with
  | tag => exact ⟨hm, hptr, hdue, fun hi => absurd hi (by decide), fun hi => absurd hi (by decide)⟩
  | size => exact ⟨hm, hptr, hdue, fun _ => toInt_eq hsmall, fun hi => absurd hi (by decide)⟩
  | rank => exact ⟨hm, hptr, hdue, fun _ => hsize (by decide), fun _ => rfl⟩
  | ptr =>
    refine ⟨m, hm, hsize (by decide), hrank (by decide), .inr ⟨hk, b, rfl, fun c hc => ?_, .inl ⟨hconsumed, ?_⟩⟩⟩
    · exact absurd (hholds.symm.trans hc) (by simp)
    · exact hdue.release _

/-- The bytes of the sender arrive at any time. -/
theorem deliver {before after : List (Address × List UInt8)} {b : Address} {bytes : List UInt8}
    (h : Inv D R n i S) (hf : S.requested.inFlight = before ++ (b, bytes) :: after) :
    Inv D R n i { S with requested := S.requested.deliver b bytes (before ++ after) } := by
  have hoffers : ∀ {m}, S.Offers R.length i m →
      State.Offers { S with requested := S.requested.deliver b bytes (before ++ after) } R.length i m := by
    rintro m ⟨hsize, hrank, ⟨-, -, hquiet⟩ | ⟨hk, c, hc, hholds, ⟨hcon, hdue⟩ | ⟨-, hquiet, -⟩⟩⟩
    · exact (hquiet.no_delivery hf).elim
    · exact ⟨hsize, hrank, .inr ⟨hk, c, hc, hholds, .inl ⟨hcon, hdue.deliver hf⟩⟩⟩
    · exact (hquiet.no_delivery hf).elim
  refine
    { received := h.received
      small := h.small
      stores := h.stores
      meets := ⟨h.meets.balanced, h.meets.atBarrier⟩
      contents := ?_
      knows := h.knows
      results := h.results }
  have hcontents := h.contents
  unfold State.Contents at hcontents ⊢
  dsimp only
  split at hcontents
  · exact (hcontents.2.no_delivery hf).elim
  · exact (hcontents.2.no_delivery hf).elim
  · exact (hcontents.2.2.no_delivery hf).elim
  · obtain ⟨hm, hptr, hdue, hfields⟩ := hcontents
    exact ⟨hm, hptr, hdue.deliver hf, hfields⟩
  · obtain ⟨m, hm, ho⟩ := hcontents
    exact ⟨m, hm, hoffers ho⟩
  · obtain ⟨m, hm, ho⟩ := hcontents
    exact ⟨m, hm, hoffers ho⟩

/-! ### The barriers -/

theorem passed_done {p : Party} (hat : S.atBarrier p = true) :
    S.done i p + (S.passed p).passive.pending = i + S.passive.pending ∧
      ∀ f, S.done i p + (S.passed p).passive.storesDone f = i + S.passive.storesDone f := by
  cases p with
  | user => exact ⟨rfl, fun _ => rfl⟩
  | passive =>
    unfold State.done State.passed
    dsimp only
    obtain hp | hp := PassivePc.atBarrier_cases hat
    · rw [hp]; exact ⟨rfl, fun _ => rfl⟩
    · rw [hp]; exact ⟨rfl, fun _ => rfl⟩

/-- Through a barrier; behind its second one the passive thread is done with the
message, which the user has read by then. -/
theorem passed {p : Party} (h : Inv D R n i S) (hat : S.atBarrier p = true) (fwd : Rendezvous Party)
    (hm : (State.passed { S with passive_fwd_recv := fwd } p).Meets R.length (S.done i p)) :
    Inv D R n (S.done i p) (State.passed { S with passive_fwd_recv := fwd } p) := by
  obtain ⟨hpending, hstores⟩ := passed_done (i := i) hat
  have hpassive : (State.passed { S with passive_fwd_recv := fwd } p).passive = (S.passed p).passive := by
    cases p <;> rfl
  refine
    { received := by rw [hpassive, hpending, h.received]
      small := h.small
      stores := fun f => by rw [hpassive, hstores f, h.stores f]
      meets := hm
      contents := ?_
      knows := ?_
      results := h.results }
  · cases p with
    | user =>
      refine h.contents.ofUser fwd S.user.passed ?_ ?_ ?_
      · cases S.user <;> rfl
      · cases S.user <;> rfl
      · intro c hc
        have hnone : S.user.passed.holds = none := by
          cases hu : S.user with
          | first => rfl
          | second Data rank => rfl
          | _ =>
            have hat' : S.user.atBarrier = true := hat
            rw [hu] at hat'; cases hat'
        rw [hnone] at hc; cases hc
    | passive =>
      obtain hp | hp := PassivePc.atBarrier_cases hat
      · obtain ⟨m, hget, ho⟩ := h.contents.offers (.inl hp)
        have hi : S.done i .passive = i := by unfold State.done; rw [hp]; rfl
        rw [hi]
        refine State.Contents.of_offers (.inr ?_) hget ⟨ho.size, ho.rank, ho.buffer⟩
        unfold State.passed
        dsimp only
        rw [hp]; rfl
      · obtain ⟨m, hget, ho⟩ := h.contents.offers (.inr hp)
        have hi : S.done i .passive = i + 1 := by unfold State.done; rw [hp]; rfl
        have hnext : (State.passed { S with passive_fwd_recv := fwd } .passive).passive = .recvPassive := by
          unfold State.passed
          dsimp only
          rw [hp]; rfl
        have hread : R.length + S.user.resets = i + 1 := by
          have hk := hm.storing (by rw [hnext]; rfl)
          rw [hi] at hk
          exact hk
        unfold State.Contents
        rw [hnext]
        obtain ⟨-, hquiet⟩ | ⟨hk, -⟩ := ho.buffer
        · exact hquiet
        · omega
  · cases p with
    | user => exact h.knows.passed
    | passive => exact h.knows

theorem enter {p : Party} (h : Inv D R n i S) (hat : S.atBarrier p = true)
    (hout : S.passive_fwd_recv.place p = .out) : ∃ i', Inv D R n i' (S.enter p) := by
  cases hflag : S.passive_fwd_recv.flag with
  | true =>
    have hmeets := h.meets.enter_set hat hout hflag
    refine ⟨S.done i p, ?_⟩
    unfold State.enter at hmeets ⊢
    rw [if_pos hflag] at hmeets ⊢
    exact h.passed hat _ hmeets
  | false =>
    have hmeets := h.meets.enter_clear hat hout hflag
    refine ⟨i, ?_⟩
    unfold State.enter at hmeets ⊢
    rw [if_neg (by rw [hflag]; decide)] at hmeets ⊢
    exact
      { received := h.received
        small := h.small
        stores := h.stores
        meets := hmeets
        contents := h.contents.ofUser _ S.user rfl rfl fun c hc => h.pointed hc
        knows := h.knows
        results := h.results }

theorem leave {p : Party} (h : Inv D R n i S) (hs : S.passive_fwd_recv.place p = .signalled) :
    Inv D R n (S.done i p) (S.leave p) :=
  h.passed (h.meets.atBarrier p (by rw [hs]; decide)) _ (h.meets.leave hs)

/-! ### A step -/

/-- How often a step stores a member. -/
def stored : Label → Field → Nat
  | .stores f, g => if f = g then 1 else 0
  | _, _ => 0

/-- Nothing is received, returned or stored. -/
theorem silent {l : Label} (h : Inv D R n i S) (hd : l.date = none) (hr : l.returned = none)
    (hs : ∀ f, stored l f = 0) :
    Inv (D ++ l.date.toList) (R ++ l.returned.toList) (fun f => n f + stored l f) i S := by
  have hn : (fun f => n f + stored l f) = n := by
    funext f
    rw [hs f, Nat.add_zero]
  rw [hd, hr, hn]
  exact (List.append_nil D).symm ▸ (List.append_nil R).symm ▸ h

theorem step {l : Label} {S' : State} (h : Inv D R n i S) (hs : Step S l S') (hl : l.Regular) :
    ∃ i', Inv (D ++ l.date.toList) (R ++ l.returned.toList) (fun f => n f + stored l f) i' S' := by
  cases hs with
  | recvMessg hu => exact ⟨i, (h.recvMessg hu).silent rfl rfl fun _ => rfl⟩
  | enter p hat hout =>
    obtain ⟨i', h'⟩ := h.enter hat hout
    exact ⟨i', h'.silent rfl rfl fun _ => rfl⟩
  | leave p hs => exact ⟨_, (h.leave hs).silent rfl rfl fun _ => rfl⟩
  | spurious p hs => exact hl.elim
  | resize hu _ => exact ⟨i, (h.resize hu).2.silent rfl rfl fun _ => rfl⟩
  | resizeThrows hu hneg =>
    have hsize := (h.resize hu).1
    omega
  | rank hu => exact ⟨i, (h.rank_step hu).silent rfl rfl fun _ => rfl⟩
  | ptr hu => exact ⟨i, (h.ptr hu).silent rfl rfl fun _ => rfl⟩
  | waitForNotification hu arrived => exact ⟨i, (h.waitForNotification hu arrived).silent rfl rfl fun _ => rfl⟩
  | address hu => exact ⟨i, (h.address hu).silent rfl rfl fun _ => rfl⟩
  | memcpy hu => exact ⟨i, (h.memcpy hu).silent rfl rfl fun _ => rfl⟩
  | reset hu => exact ⟨i, (h.reset hu).silent rfl rfl fun _ => rfl⟩
  | @returns Data rank hu =>
    have hD : D ++ (Label.returns Data rank).date.toList = D := List.append_nil D
    rw [hD]
    exact ⟨i, h.returns hu⟩
  | receive m hp =>
    have hR : R ++ (Label.receives m).returned.toList = R := List.append_nil R
    have hdate : (Label.receives m).date.toList = if m.handedOver then [m] else [] := by
      unfold Label.date
      dsimp only
      cases m.handedOver <;> rfl
    rw [hR, hdate]
    exact ⟨i, h.receive hp m hl⟩
  | request hp _ => exact ⟨i, (h.request hp _).silent rfl rfl fun _ => rfl⟩
  | @store f m b hp =>
    have hD : D ++ (Label.stores f).date.toList = D := List.append_nil D
    have hR : R ++ (Label.stores f).returned.toList = R := List.append_nil R
    rw [hD, hR]
    exact ⟨i, h.store hp⟩
  | deliver hf => exact ⟨i, (h.deliver hf).silent rfl rfl fun _ => rfl⟩

end Inv

/-! ## The runs -/

section

variable {tag size rank : Int} {allocated : Finset Address} {memory : Address → List UInt8} {ls : List Label}
  {S S' : State}

theorem run_inv (h : Trace Step (.constructed tag size rank allocated memory) ls S) (hl : ∀ l ∈ ls, l.Regular) :
    ∃ i, Inv (dates ls) (returned ls) (fun f => ls.count (.stores f)) i S := by
  refine h.history
    (P := fun ls S => (∀ l ∈ ls, l.Regular) → ∃ i, Inv (dates ls) (returned ls) (fun f => ls.count (.stores f)) i S)
    (fun _ => ⟨0, .constructed ..⟩) ?_ hl
  intro ls S l S' ih hs hl
  obtain ⟨i, hi⟩ := ih fun k hk => hl k (List.mem_append_left _ hk)
  obtain ⟨i', hi'⟩ := hi.step hs (hl l (by simp))
  have hdates : dates (ls ++ [l]) = dates ls ++ l.date.toList := by
    unfold dates
    rw [List.filterMap_append]
    cases hd : l.date <;> simp [hd]
  have hreturned : returned (ls ++ [l]) = returned ls ++ l.returned.toList := by
    unfold returned
    rw [List.filterMap_append]
    cases hr : l.returned <;> simp [hr]
  have hcount : (fun f => (ls ++ [l]).count (.stores f)) = fun f => ls.count (.stores f) + Inv.stored l f := by
    funext f
    rw [List.count_append, List.count_singleton]
    cases l <;> simp [Inv.stored]
  rw [hdates, hreturned, hcount]
  exact ⟨i', hi'⟩

/-- The members are read between the two barriers. -/
theorem Step.reading {f : Field} (hs : Step S (.reads f) S') :
    S.user.barriers = 1 ∧ S.user.atBarrier = false := by
  cases hs with
  | resize hu => rw [hu]; exact ⟨rfl, rfl⟩
  | rank hu => rw [hu]; exact ⟨rfl, rfl⟩
  | ptr hu => rw [hu]; exact ⟨rfl, rfl⟩
  | address hu => rw [hu]; exact ⟨rfl, rfl⟩
  | memcpy hu => rw [hu]; exact ⟨rfl, rfl⟩
  | reset hu => rw [hu]; exact ⟨rfl, rfl⟩

/-- In every run whose waits end by signals and whose sizes fit: the user reads
each member after its store for the current message and before the next one, and
the k-th `recvMessg` returns the k-th message. -/
theorem recvMessg_handOver (h : Trace Step (.constructed tag size rank allocated memory) ls S)
    (hl : ∀ l ∈ ls, l.Regular) : HandOver ls := by
  obtain ⟨i, hi⟩ := run_inv h hl
  refine ⟨?_, hi.results⟩
  rintro before after f rfl
  obtain ⟨S0, S1, hbefore, hs, -⟩ := h.split_cons
  obtain ⟨j, hj⟩ := run_inv hbefore fun l hmem => hl l (List.mem_append_left _ hmem)
  obtain ⟨hbarriers, hb⟩ := hs.reading
  obtain ⟨rfl, hp⟩ := hj.meets.reading hbarriers hb
  have hstored : S0.passive.storesDone f = 1 := by
    obtain hp | hp := hp <;> (rw [hp]; rfl)
  rw [hj.stores f, hstored]

/-- The user comes first and waits for its one message. -/
def oneMessage : List Label :=
  [.recvMessg, .enter .user, .receives ⟨.DATE, 2, [7]⟩, .requests 0,
    .stores .tag, .stores .size, .stores .rank, .stores .ptr, .enter .passive, .leave .user,
    .reads .size, .reads .rank, .reads .ptr, .delivers 0, .waitForNotification,
    .reads .ptr, .reads .size, .reads .ptr, .enter .user, .enter .passive, .leave .user, .returns [7] 2]

theorem recvMessg_handOver_one :
    ∃ S, Trace Step (.constructed 0 0 0 ∅ fun _ => []) oneMessage S ∧
      returned oneMessage = [([7], 2)] ∧ HandOver oneMessage := by
  have waiting : Trace Step (.constructed 0 0 0 ∅ fun _ => []) _ _ :=
    (Trace.single (.recvMessg _ rfl)).snoc (.enter _ .user rfl rfl)
  have requested := (waiting.snoc (.receive _ ⟨.DATE, 2, [7]⟩ rfl)).snoc (.request _ (b := 0) rfl (by decide))
  have stored := (((requested.snoc (.store _ rfl)).snoc (.store _ rfl)).snoc (.store _ rfl)).snoc (.store _ rfl)
  have met := (stored.snoc (.enter _ .passive rfl rfl)).snoc (.leave _ .user rfl)
  have fields := ((met.snoc (.resize _ rfl (by decide))).snoc (.rank _ rfl)).snoc (.ptr _ rfl)
  have arrived := (fields.snoc (.deliver _ (show _ = [] ++ (0, [7]) :: [] from rfl))).snoc
    (.waitForNotification _ rfl rfl)
  have copied := ((arrived.snoc (.address _ rfl)).snoc (.memcpy _ rfl)).snoc (.reset _ rfl)
  have again := (copied.snoc (.enter _ .user rfl rfl)).snoc (.enter _ .passive rfl rfl)
  have whole : Trace Step _ oneMessage _ :=
    (again.snoc (.leave _ .user rfl)).snoc (.returns _ (show _ = UserPc.returns [7] 2 from rfl))
  refine ⟨_, whole, rfl, recvMessg_handOver whole ?_⟩
  simp [oneMessage, Label.Regular]

/-- The passive thread wakes from its first barrier without a signal, and again
finds the flag it has set itself: it goes on to the second message. -/
def skipping : List Label :=
  [.receives ⟨.DATE, 1, [6]⟩, .requests 0, .stores .tag, .stores .size, .stores .rank, .stores .ptr,
    .enter .passive, .spurious .passive, .enter .passive,
    .receives ⟨.DATE, 2, [7]⟩, .requests 1, .stores .tag, .stores .size, .stores .rank, .stores .ptr,
    .enter .passive, .recvMessg, .enter .user,
    .reads .size, .reads .rank, .reads .ptr, .delivers 1, .waitForNotification,
    .reads .ptr, .reads .size, .reads .ptr, .enter .user, .leave .passive, .enter .passive,
    .leave .user, .returns [7] 2]

/-- The first `recvMessg` returns the second message. -/
theorem recvMessg_skips :
    ∃ S, Trace Step (.constructed 0 0 0 ∅ fun _ => []) skipping S ∧
      dates skipping = [⟨.DATE, 1, [6]⟩, ⟨.DATE, 2, [7]⟩] ∧ returned skipping = [([7], 2)] ∧
      ¬ HandOver skipping := by
  have requested : Trace Step (.constructed 0 0 0 ∅ fun _ => []) _ _ :=
    (Trace.single (.receive _ ⟨.DATE, 1, [6]⟩ rfl)).snoc (.request _ (b := 0) rfl (by decide))
  have stored := (((requested.snoc (.store _ rfl)).snoc (.store _ rfl)).snoc (.store _ rfl)).snoc (.store _ rfl)
  have woken := (stored.snoc (.enter _ .passive rfl rfl)).snoc (.spurious _ .passive rfl)
  have through := woken.snoc (.enter _ .passive rfl rfl)
  have requested' := (through.snoc (.receive _ ⟨.DATE, 2, [7]⟩ rfl)).snoc (.request _ (b := 1) rfl (by decide))
  have stored' := (((requested'.snoc (.store _ rfl)).snoc (.store _ rfl)).snoc (.store _ rfl)).snoc (.store _ rfl)
  have waiting := stored'.snoc (.enter _ .passive rfl rfl)
  have met := (waiting.snoc (.recvMessg _ rfl)).snoc (.enter _ .user rfl rfl)
  have fields := ((met.snoc (.resize _ rfl (by decide))).snoc (.rank _ rfl)).snoc (.ptr _ rfl)
  have arrived := (fields.snoc (.deliver _ (show _ = [(0, [6])] ++ (1, [7]) :: [] from rfl))).snoc
    (.waitForNotification _ rfl rfl)
  have copied := ((arrived.snoc (.address _ rfl)).snoc (.memcpy _ rfl)).snoc (.reset _ rfl)
  have again := ((copied.snoc (.enter _ .user rfl rfl)).snoc (.leave _ .passive rfl)).snoc (.enter _ .passive rfl rfl)
  have whole : Trace Step _ skipping _ :=
    (again.snoc (.leave _ .user rfl)).snoc (.returns _ (show _ = UserPc.returns [7] 2 from rfl))
  refine ⟨_, whole, rfl, rfl, fun h => ?_⟩
  have hprefix : [([7], 2)] <+: [([6], 1), (([7], 2) : List UInt8 × Int)] := h.2
  revert hprefix
  decide

end

end GaspiCxx.Passive.RecvMessg
