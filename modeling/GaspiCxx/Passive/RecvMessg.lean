import GaspiCxx.Runs.Rendezvous
import GaspiCxx.Runs.Trace

/-!
# The hand-over of `recvMessg`

The thread of `passive_thread_func_` receives the messages sent to this rank. For
a `DATE` it requests a buffer, tells the sender where it is, stores size, rank
and buffer in the members `passive_msg_*_` and meets the caller of `recvMessg`
twice: once when they are stored, once when they have been read. In between
`recvMessg` reads them, waits for the sender's data and takes it out of the buffer.

Each of the four barriers is a locked section that may end in
`pthread_cond_wait`; `Runs.Rendezvous` is the flag, the mutex and the condition
variable. A wait returns when it was signalled (`Step.leave`), or without a
signal (`Step.spurious`). Every read and every store of a member is a step.
-/

namespace GaspiCxx.Passive.RecvMessg

open Runs

/-- An offset into the segment. -/
abbrev Address := Nat

/-- `MSG_TAG_t` -/
inductive MsgTag where
  | IDLE | GERR | FNSH | DATP | DATE | RTBD
  deriving DecidableEq, Repr

/-- A message to this rank: `DATE` announces the bytes that `sendMessg` writes. -/
structure Message where
  tag : MsgTag
  rank : Int
  bytes : List UInt8
  deriving DecidableEq, Repr

/-- `DATP` falls through to `DATE`. -/
def Message.handedOver (m : Message) : Bool := m.tag = .DATP ∨ m.tag = .DATE

/-- What `recvMessg` returns for a message: `Data` and `rank`. -/
def Message.result (m : Message) : List UInt8 × Int := (m.bytes, m.rank)

/-- A `size_t` stored to an `int`: the lower 32 bits as a signed number. -/
def toInt (n : Nat) : Int :=
  if n % 2 ^ 32 < 2 ^ 31 then (n % 2 ^ 32 : Nat) else (n % 2 ^ 32 : Nat) - 2 ^ 32

theorem toInt_eq {n : Nat} (h : n < 2 ^ 31) : toInt n = n := by
  have hmod : n % 2 ^ 32 = n := Nat.mod_eq_of_lt (by omega)
  unfold toInt
  rw [hmod, if_pos h]

/-! ## The requested buffers -/

/-- The buffers for the senders: `inFlight` is what they write, not yet arrived. -/
structure Requested where
  allocated : Finset Address
  memory : Address → List UInt8
  notified : Address → Bool
  inFlight : List (Address × List UInt8)

namespace Requested

/-- A fresh buffer whose description went to the sender of `bytes`. -/
def request (N : Requested) (b : Address) (bytes : List UInt8) : Requested :=
  { N with allocated := insert b N.allocated, inFlight := N.inFlight ++ [(b, bytes)] }

/-- The bytes arrive, then the notification; `rest` is still in flight. -/
def deliver (N : Requested) (b : Address) (bytes : List UInt8) (rest : List (Address × List UInt8)) : Requested :=
  { N with
    memory := Function.update N.memory b (bytes ++ (N.memory b).drop bytes.length)
    notified := Function.update N.notified b true
    inFlight := rest }

/-- The reset of `waitForNotification`. -/
def waitForNotification (N : Requested) (b : Address) : Requested :=
  { N with notified := Function.update N.notified b false }

/-- What `reset` or a move assignment destroys. -/
def release (N : Requested) (ptr : Option Address) : Requested :=
  { N with allocated := N.allocated \ ptr.toFinset }

end Requested

/-! ## The two threads -/

inductive Party where
  | user
  | passive
  deriving DecidableEq, Repr

def Party.other : Party → Party
  | .user => .passive
  | .passive => .user

def parties : Pair Party where
  other := Party.other
  other_ne p := by cases p <;> decide
  eq_or_other p q := by cases p <;> cases q <;> decide

inductive Field where
  | tag | size | rank | ptr
  deriving DecidableEq, Repr

/-- The position in the stores of `case DATE`. -/
def Field.index : Field → Nat
  | .tag => 0
  | .size => 1
  | .rank => 2
  | .ptr => 3

/-- `recvMessg`: the two barriers and what stands between them, one read of a
member at a time. `finished` is set in the first round of the loop. -/
inductive UserPc where
  | outside
  | first
  | resize
  | rank (Data : List UInt8)
  | ptr (Data : List UInt8) (rank : Int)
  | waitForNotification (Data : List UInt8) (rank : Int) (b : Address)
  | address (Data : List UInt8) (rank : Int)
  | memcpy (Data : List UInt8) (rank : Int) (address : Address)
  | reset (Data : List UInt8) (rank : Int)
  | second (Data : List UInt8) (rank : Int)
  | returns (Data : List UInt8) (rank : Int)
  | crashed
  deriving DecidableEq, Repr

/-- `passive_thread_func_`: `store f` is about to store the member `f`. -/
inductive PassivePc where
  | recvPassive
  | request (m : Message)
  | store (f : Field) (m : Message) (b : Address)
  | first
  | second
  | finished
  deriving DecidableEq, Repr

namespace UserPc

def atBarrier : UserPc → Bool
  | first => true
  | second _ _ => true
  | _ => false

/-- Behind the barrier. -/
def passed : UserPc → UserPc
  | first => resize
  | second Data sender => returns Data sender
  | pc => pc

/-- `passive_msg_ptr_->`, which a null pointer does not survive. -/
def deref (ptr : Option Address) (next : Address → UserPc) : UserPc :=
  match ptr with
  | some b => next b
  | none => crashed

end UserPc

namespace PassivePc

def atBarrier : PassivePc → Bool
  | first => true
  | second => true
  | _ => false

def passed : PassivePc → PassivePc
  | first => second
  | second => recvPassive
  | pc => pc

/-- The switch over the tag; the other cases leave the hand-over alone. -/
def dispatch (m : Message) : PassivePc :=
  match m.tag with
  | .FNSH => finished
  | .DATP => request m
  | .DATE => request m
  | _ => recvPassive

/-- After the store of a member. -/
def stored (f : Field) (m : Message) (b : Address) : PassivePc :=
  match f with
  | .tag => store .size m b
  | .size => store .rank m b
  | .rank => store .ptr m b
  | .ptr => first

end PassivePc

structure State where
  /-- `passive_fwd_recv_bool_`, `passive_fwd_recv_cond_` and who waits there -/
  passive_fwd_recv : Rendezvous Party
  passive_msg_tag_ : Int
  passive_msg_size_ : Int
  passive_msg_rank_ : Int
  passive_msg_ptr_ : Option Address
  requested : Requested
  user : UserPc
  passive : PassivePc

namespace State

/-- After the constructor; `tag`, `size` and `rank` are not initialized. -/
def constructed (tag size rank : Int) (allocated : Finset Address) (memory : Address → List UInt8) : State where
  passive_fwd_recv := ⟨false, fun _ => .out⟩
  passive_msg_tag_ := tag
  passive_msg_size_ := size
  passive_msg_rank_ := rank
  passive_msg_ptr_ := none
  requested := ⟨allocated, memory, fun _ => false, []⟩
  user := .outside
  passive := .recvPassive

def atBarrier (S : State) : Party → Bool
  | .user => S.user.atBarrier
  | .passive => S.passive.atBarrier

def passed (S : State) : Party → State
  | .user => { S with user := S.user.passed }
  | .passive => { S with passive := S.passive.passed }

/-- The locked section of a barrier up to the wait, or through it. -/
def enter (S : State) (p : Party) : State :=
  let S' := { S with passive_fwd_recv := S.passive_fwd_recv.enter parties p }
  if S.passive_fwd_recv.flag then S'.passed p else S'

/-- The return from `pthread_cond_wait`. -/
def leave (S : State) (p : Party) : State :=
  { S with passive_fwd_recv := S.passive_fwd_recv.leave p }.passed p

/-- The stores of `case DATE`; the last one destroys the buffer held before. -/
def store (S : State) (f : Field) (m : Message) (b : Address) : State :=
  match f with
  | .tag => { S with passive_msg_tag_ := -1 }
  | .size => { S with passive_msg_size_ := toInt m.bytes.length }
  | .rank => { S with passive_msg_rank_ := m.rank }
  | .ptr => { S with passive_msg_ptr_ := some b, requested := S.requested.release S.passive_msg_ptr_ }

@[simp] theorem store_fwd (S : State) (f : Field) (m : Message) (b : Address) :
    (S.store f m b).passive_fwd_recv = S.passive_fwd_recv := by
  cases f <;> rfl

@[simp] theorem store_user (S : State) (f : Field) (m : Message) (b : Address) : (S.store f m b).user = S.user := by
  cases f <;> rfl

end State

inductive Label where
  | recvMessg
  | enter (p : Party)
  | leave (p : Party)
  | spurious (p : Party)
  | reads (f : Field)
  | waitForNotification
  | throws
  | returns (Data : List UInt8) (rank : Int)
  | receives (m : Message)
  | requests (b : Address)
  | stores (f : Field)
  | delivers (b : Address)
  deriving DecidableEq, Repr

inductive Step : State → Label → State → Prop where
  | recvMessg (S : State) (h : S.user = .outside) :
      Step S .recvMessg { S with user := .first }
  | enter (S : State) (p : Party) (h : S.atBarrier p = true) (out : S.passive_fwd_recv.place p = .out) :
      Step S (.enter p) (S.enter p)
  | leave (S : State) (p : Party) (h : S.passive_fwd_recv.place p = .signalled) :
      Step S (.leave p) (S.leave p)
  | spurious (S : State) (p : Party) (h : S.passive_fwd_recv.place p = .waiting) :
      Step S (.spurious p) (S.leave p)
  -- a negative size is a huge `size_t`, and `resize` throws `length_error`
  | resize (S : State) (h : S.user = .resize) (size : 0 ≤ S.passive_msg_size_) :
      Step S (.reads .size) { S with user := .rank (List.replicate S.passive_msg_size_.toNat 0) }
  | resizeThrows (S : State) (h : S.user = .resize) (size : S.passive_msg_size_ < 0) :
      Step S .throws { S with user := .outside }
  | rank (S : State) {Data : List UInt8} (h : S.user = .rank Data) :
      Step S (.reads .rank) { S with user := .ptr Data S.passive_msg_rank_ }
  | ptr (S : State) {Data : List UInt8} {rank : Int} (h : S.user = .ptr Data rank) :
      Step S (.reads .ptr) { S with user := .deref S.passive_msg_ptr_ (.waitForNotification Data rank) }
  | waitForNotification (S : State) {Data : List UInt8} {rank : Int} {b : Address}
      (h : S.user = .waitForNotification Data rank b) (arrived : S.requested.notified b = true) :
      Step S .waitForNotification
        { S with user := .address Data rank, requested := S.requested.waitForNotification b }
  | address (S : State) {Data : List UInt8} {rank : Int} (h : S.user = .address Data rank) :
      Step S (.reads .ptr) { S with user := .deref S.passive_msg_ptr_ (.memcpy Data rank) }
  | memcpy (S : State) {Data : List UInt8} {rank : Int} {address : Address}
      (h : S.user = .memcpy Data rank address) :
      Step S (.reads .size)
        { S with
          user := .reset
            ((S.requested.memory address).take S.passive_msg_size_.toNat ++ Data.drop S.passive_msg_size_.toNat)
            rank }
  | reset (S : State) {Data : List UInt8} {rank : Int} (h : S.user = .reset Data rank) :
      Step S (.reads .ptr)
        { S with
          user := .second Data rank
          passive_msg_ptr_ := none
          requested := S.requested.release S.passive_msg_ptr_ }
  | returns (S : State) {Data : List UInt8} {rank : Int} (h : S.user = .returns Data rank) :
      Step S (.returns Data rank) { S with user := .outside }
  | receive (S : State) (m : Message) (h : S.passive = .recvPassive) :
      Step S (.receives m) { S with passive := .dispatch m }
  | request (S : State) {m : Message} {b : Address} (h : S.passive = .request m)
      (fresh : b ∉ S.requested.allocated) :
      Step S (.requests b)
        { S with passive := .store .tag m b, requested := S.requested.request b m.bytes }
  | store (S : State) {f : Field} {m : Message} {b : Address} (h : S.passive = .store f m b) :
      Step S (.stores f) { S.store f m b with passive := .stored f m b }
  | deliver (S : State) {before after : List (Address × List UInt8)} {b : Address} {bytes : List UInt8}
      (h : S.requested.inFlight = before ++ (b, bytes) :: after) :
      Step S (.delivers b) { S with requested := S.requested.deliver b bytes (before ++ after) }

/-! ## What a run is asked -/

namespace Label

def date : Label → Option Message
  | receives m => if m.handedOver then some m else none
  | _ => none

def returned : Label → Option (List UInt8 × Int)
  | returns Data rank => some (Data, rank)
  | _ => none

/-- No wait ends without a signal, and the size fits the `int` it is stored to. -/
def Regular : Label → Prop
  | spurious _ => False
  | receives m => m.handedOver → m.bytes.length < 2 ^ 31
  | _ => True

end Label

/-- The messages received for the hand-over, and what `recvMessg` returned. -/
def dates (ls : List Label) : List Message := ls.filterMap Label.date

def returned (ls : List Label) : List (List UInt8 × Int) := ls.filterMap Label.returned

/-- Whatever the user reads of a member, it has been stored for the message that
comes after all returned ones and for no later one; and the calls return the
messages in their order. -/
def HandOver (ls : List Label) : Prop :=
  (∀ before after f, ls = before ++ .reads f :: after →
    before.count (.stores f) = (returned before).length + 1) ∧
  returned ls <+: (dates ls).map Message.result

end GaspiCxx.Passive.RecvMessg
