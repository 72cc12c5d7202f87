import GaspiCxx.Collectives.Exchange.Model

/-!
# What holds in every state of an exchange

The counters of the channels are events of the members' programs: an `Event` is a
member and an instruction, `count` how often it has happened. `view_tick` is the
one place where instructions and counters meet.

`Inv` ties the memory, the descriptions and the logs to the events. What is on its
way to a target notification was written in the call its member is in
(`Inv.partner`, `Inv.under_way`), so a notification that comes in stands for the
data of this call and no other.
-/

namespace GaspiCxx.Collectives.Exchange

open OneSided Passive

variable {n : Nat}

/-! ## Events -/

abbrev Event (n : Nat) := Fin n × Instr n

def count (s : State n) (e : Event n) : Nat := (s.progress e.1).passed e.2.position

/-- Where a port comes into use. -/
def opening : Handle n → Event n
  | .send c => (c.1, .newBuffer .src c.2)
  | .recv c => (c.2, .newBuffer .rcv c.1)
  | .other q => (q.member, .acquire_notification q.side q.i)

/-- Where it goes out of use. -/
def closing : Handle n → Event n
  | .send c => (c.1, .deleteBuffer .src c.2)
  | .recv c => (c.2, .deleteBuffer .rcv c.1)
  | .other q => (q.member, .release_notification q.side q.i)

def waiting : Handle n → Event n
  | .send c => (c.1, .waitForNotification .src c.2)
  | .recv c => (c.2, .waitForNotification .rcv c.1)
  | .other q => (q.member, .waitForBufferNotification q.side q.i)

def posting : Role → Fin n × Fin n → Event n
  | .src, c => (c.1, .post .src c.2)
  | .rcv, c => (c.2, .post .rcv c.1)

/-- What notifies a description: the acknowledgement of the source, the write to the target. -/
def sending : Local n → Event n
  | ⟨.source, m, i⟩ => (i, .notify m)
  | ⟨.target, m, i⟩ => (i, .write m)

/-- The members' programs as users of the channels. -/
def view (s : State n) (packet : Fin n × Fin n → Nat → Descriptions) :
    View (Fin n × Fin n) (Local n) Descriptions where
  base := s.others
  blocks := s.otherBlocks
  held := s.held
  made c := count s (c.1, .serialize c.2)
  posts role c := count s (posting role c)
  taken p := count s (waiting p)
  sent q := count s (sending q)
  packet := packet

/-- The counters after member `m` has passed `J`. -/
def ticked (w : View (Fin n × Fin n) (Local n) Descriptions) (m : Fin n) (J : Instr n) :
    View (Fin n × Fin n) (Local n) Descriptions :=
  { w with
    made := match J with
      | .serialize i => bump w.made (m, i)
      | _ => w.made
    posts := match J with
      | .post role i => bumpPosts w.posts role (channel role m i)
      | _ => w.posts
    taken := match J with
      | .waitForNotification role i => bump w.taken (buffer role m i)
      | .waitForBufferNotification side i => bump w.taken (.other ⟨side, m, i⟩)
      | _ => w.taken
    sent := match J with
      | .write i => bump w.sent ⟨.target, i, m⟩
      | .notify i => bump w.sent ⟨.source, i, m⟩
      | _ => w.sent }

section

variable {s : State n} {m i : Fin n} {I J : Instr n} {role : Role} {side : Side} {p : Handle n}

theorem count_tick (hJ : (s.progress m).steps = J.position) (e : Event n) :
    count (s.tick m) e = count s e + if e = (m, J) then 1 else 0 := by
  unfold count State.tick
  simp only
  rw [passed_tick hJ]
  congr 1
  simp only [Prod.ext_iff]

theorem count_anti (h : I.position ≤ J.position) : count s (m, J) ≤ count s (m, I) :=
  Progress.passed_anti h

theorem run_le_count (s : State n) (e : Event n) : (s.progress e.1).run ≤ count s e :=
  Progress.run_le_passed _ _

theorem count_le_run (s : State n) (e : Event n) : count s e ≤ (s.progress e.1).run + 1 :=
  Progress.passed_le _ _

theorem other_ne_buffer {q : Local n} : (.other q : Handle n) ≠ buffer role m i := (port_ne_other _ _ _).symm

theorem opening_buffer : opening (buffer role m i) = (m, .newBuffer role i) := by cases role <;> rfl

theorem closing_buffer : closing (buffer role m i) = (m, .deleteBuffer role i) := by cases role <;> rfl

theorem waiting_buffer : waiting (buffer role m i) = (m, .waitForNotification role i) := by cases role <;> rfl

theorem posting_channel : posting role (channel role m i) = (m, .post role i) := by cases role <;> rfl

theorem opening_buffer_iff : opening p = (m, .newBuffer role i) ↔ p = buffer role m i := by
  constructor
  · intro h
    cases p <;> cases role <;> simp [opening, buffer, channel, Role.port, Prod.ext_iff] at h ⊢ <;> tauto
  · rintro rfl; exact opening_buffer

theorem closing_buffer_iff : closing p = (m, .deleteBuffer role i) ↔ p = buffer role m i := by
  constructor
  · intro h
    cases p <;> cases role <;> simp [closing, buffer, channel, Role.port, Prod.ext_iff] at h ⊢ <;> tauto
  · rintro rfl; exact closing_buffer

theorem opening_other_iff : opening p = (m, .acquire_notification side i) ↔ p = .other ⟨side, m, i⟩ := by
  cases p with
  | send c => simp [opening]
  | recv c => simp [opening]
  | other q => obtain ⟨side', m', i'⟩ := q; simp [opening]; tauto

theorem closing_other_iff : closing p = (m, .release_notification side i) ↔ p = .other ⟨side, m, i⟩ := by
  cases p with
  | send c => simp [closing]
  | recv c => simp [closing]
  | other q => obtain ⟨side', m', i'⟩ := q; simp [closing]; tauto

theorem opening_ne (hb : ∀ role i, J ≠ .newBuffer role i) (hn : ∀ side i, J ≠ .acquire_notification side i)
    (p : Handle n) : opening p ≠ (m, J) := by
  intro h
  obtain ⟨-, rfl⟩ := Prod.mk.inj h
  cases p with
  | send c => exact hb .src c.2 rfl
  | recv c => exact hb .rcv c.1 rfl
  | other q => exact hn q.side q.i rfl

theorem closing_ne (hb : ∀ role i, J ≠ .deleteBuffer role i) (hn : ∀ side i, J ≠ .release_notification side i)
    (p : Handle n) : closing p ≠ (m, J) := by
  intro h
  obtain ⟨-, rfl⟩ := Prod.mk.inj h
  cases p with
  | send c => exact hb .src c.2 rfl
  | recv c => exact hb .rcv c.1 rfl
  | other q => exact hn q.side q.i rfl

theorem posting_eq {role' : Role} {c : Fin n × Fin n} :
    posting role c = (m, .post role' i) ↔ role = role' ∧ c = channel role' m i := by
  cases role <;> cases role' <;> simp [posting, channel, Prod.ext_iff]
  exact and_comm

theorem waiting_eq :
    waiting p = (m, .waitForNotification role i) ↔ p = buffer role m i := by
  cases p <;> cases role <;> simp [waiting, buffer, channel, Role.port, Prod.ext_iff]
  exact and_comm

theorem waiting_other_eq :
    waiting p = (m, .waitForBufferNotification side i) ↔ p = .other ⟨side, m, i⟩ := by
  cases p with
  | send c => simp [waiting]
  | recv c => simp [waiting]
  | other q =>
    obtain ⟨side', q, k⟩ := q
    simp only [waiting, Prod.mk.injEq, Instr.waitForBufferNotification.injEq, Port.other.injEq, Local.mk.injEq]
    exact and_left_comm

theorem sending_write_eq {q : Local n} : sending q = (m, .write i) ↔ q = ⟨.target, i, m⟩ := by
  obtain ⟨side, q, k⟩ := q
  cases side <;> simp [sending]
  exact and_comm

theorem sending_notify_eq {q : Local n} : sending q = (m, .notify i) ↔ q = ⟨.source, i, m⟩ := by
  obtain ⟨side, q, k⟩ := q
  cases side <;> simp [sending]
  exact and_comm

theorem view_tick (hJ : (s.progress m).steps = J.position) (packet : Fin n × Fin n → Nat → Descriptions) :
    view (s.tick m) packet = ticked (view s packet) m J := by
  unfold view ticked
  simp only [count_tick hJ, View.mk.injEq, and_true]
  refine ⟨rfl, rfl, rfl, ?_, ?_, ?_, ?_⟩
  · funext c
    cases J <;> simp [bump_apply, Prod.ext_iff]
  · funext role c
    cases J with
    | post role' i => simp only [posting_eq, bumpPosts_apply]
    | _ => cases role <;> simp [posting]
  · funext p
    cases J with
    | waitForNotification role i => simp only [waiting_eq, bump_apply]
    | waitForBufferNotification side i => simp only [waiting_other_eq, bump_apply]
    | _ => cases p <;> simp [waiting]
  · funext q
    cases J with
    | write i => simp only [sending_write_eq, bump_apply]
    | notify i => simp only [sending_notify_eq, bump_apply]
    | _ =>
      obtain ⟨side, q, k⟩ := q
      cases side <;> simp [sending]

end

/-! ## The invariant -/

section

variable (group : Group n) (calls : Nat → Call n) (s : State n)

/-- `data` is what member `i` supplied for member `m` in call `k`. -/
def Supplied (k : Nat) (i m : Fin n) (data : List UInt8) : Prop :=
  ∃ e, (s.supplied i)[k]? = some e ∧ data = e.memory.read ((calls k).source i m)

/-- In its current call member `m` has the data of member `i`. -/
def Stored (m i : Fin n) : Prop :=
  Supplied calls s (s.progress m).run i m
    ((s.memory (group.toGlobalRank m)).read ((calls (s.progress m).run).target m i))

/-- `d` is description `q` of call `k`. -/
structure Describes (k : Nat) (q : Local n) (d : BufferDescription) : Prop where
  rank : d.rank = group.toGlobalRank q.member
  part : part d = (calls k).part q

/-- What may be on its way to description `q`: to a source the acknowledgement, to a
target the data of the call its member is in. -/
def Good (q : Local n) (op : Op Descriptions Data) : Prop :=
  match q.side, op with
  | .source, op => op = .bare
  | .target, .packet _ _ => False
  | .target, .bare => Stored group calls s q.member q.i
  | .target, .user (.posted source target) =>
    Describes group calls (s.progress q.member).run ⟨.source, q.i, q.member⟩ source ∧
      Describes group calls (s.progress q.member).run q target
  | .target, .user (.bytes target data) =>
    Describes group calls (s.progress q.member).run q target ∧
      Supplied calls s (s.progress q.member).run q.i q.member data

def Here (q : Local n) : Prop :=
  match q.side with
  | .source => True
  | .target => Stored group calls s q.member q.i

/-- The call a member returned from with `r` was complete. -/
structure Complete (m : Fin n) (k : Nat) (r : Snapshot) : Prop where
  segments : ∃ e, (s.supplied m)[k]? = some e ∧ r.live = e.live ∧ r.allocated = e.allocated
  data : ∀ i, Supplied calls s k i m (r.memory.read ((calls k).target m i))

end

/-- The target or the source description of a message. -/
def Side.pick : Side → Descriptions → BufferDescription
  | .target, v => v.1
  | .source, v => v.2

structure Inv (D : Serialization.Typedefs) (group : Group n) (calls : Nat → Call n) (s : State n)
    (packet : Fin n × Fin n → Nat → Descriptions) (posted : Handle n → Nat) : Prop where
  consistent : Consistent (layout D group) (Good group calls s) (Here group calls s) (view s packet) s.net posted
  bound : ∀ m, (s.progress m).steps < length n
  inUse : ∀ p, (s.held p).isSome ↔ count s (closing p) < count s (opening p)
  described : ∀ q d, s.held (.other q) = some d → Describes group calls (s.progress q.member).run q d
  /-- What a send buffer says about a description, as long as there is one. -/
  told : ∀ side m i d, s.held (.other ⟨side, m, i⟩) = some d →
    count s (m, .serialize i) = count s (m, .release_notification side i) + 1 →
    d = side.pick (packet (m, i) (count s (m, .release_notification side i)))
  remote : ∀ m i k, count s (m, .waitForNotification .rcv i) = k + 1 → s.remote (m, i) = packet (i, m) k
  entered : ∀ m, (s.supplied m).length = count s (m, .enter)
  /-- Inside a call, the source and what else is taken are as they were. -/
  source : ∀ m i, 0 < (s.progress m).steps → Supplied calls s (s.progress m).run m i
    ((s.memory (group.toGlobalRank m)).read ((calls (s.progress m).run).source m i))
  base : ∀ m e, 0 < (s.progress m).steps → (s.supplied m)[(s.progress m).run]? = some e →
    s.others (group.toGlobalRank m) = e.live ∧ s.otherBlocks (group.toGlobalRank m) = e.allocated
  stored : ∀ m i, (s.progress m).run < count s (m, .waitForBufferNotification .target i) → Stored group calls s m i
  left : ∀ m, (s.returned m).length = (s.progress m).run
  complete : ∀ m k r, (s.returned m)[k]? = some r → Complete calls s m k r

section

variable {D : Serialization.Typedefs} {group : Group n} {calls : Nat → Call n} {s s' : State n}
  {packet : Fin n × Fin n → Nat → Descriptions} {posted : Handle n → Nat} {m i : Fin n} {I : Instr n} {side : Side}

/-! ## Who is where -/

theorem count_of_lt (h : I.position < (s.progress m).steps) : count s (m, I) = (s.progress m).run + 1 :=
  Progress.passed_of_lt h

theorem count_of_le (h : (s.progress m).steps ≤ I.position) : count s (m, I) = (s.progress m).run :=
  Progress.passed_of_le h

theorem lt_of_run_lt (h : (s.progress m).run < count s (m, I)) : I.position < (s.progress m).steps := by
  by_contra hle
  rw [count_of_le (by omega)] at h
  omega

/-- A member that has received the descriptions of `i` in this call: `i` has posted them. -/
theorem Inv.recv_le (hinv : Inv D group calls s packet posted) (role : Role) :
    count s (m, .waitForNotification .rcv i) ≤ count s (posting role (i, m)) :=
  hinv.consistent.recv_le role (i, m)

theorem Inv.wait_le (hinv : Inv D group calls s packet posted) (q : Local n) :
    count s (waiting (.other q)) ≤ count s (sending q) :=
  hinv.consistent.taken_other_le q

/-- A member is sent no more than it has asked for. -/
theorem Inv.sending_le (hinv : Inv D group calls s packet posted) (side : Side) (m i : Fin n) :
    count s (sending ⟨side, m, i⟩) ≤ (s.progress m).run + 1 := by
  have hrecv : count s (i, .waitForNotification .rcv m) ≤ count s (m, .post .src i) := hinv.recv_le .src
  have hle : count s (sending ⟨side, m, i⟩) ≤ count s (i, .waitForNotification .rcv m) := by
    cases side
    · exact count_anti (by simp only [Instr.position]; omega)
    · exact count_anti (by simp only [Instr.position]; omega)
  exact hle.trans (hrecv.trans (count_le_run s _))

/-- Having received the descriptions of `i`, and with `i` waiting for what is yet to
be sent, both are in the same call, and the description is one `i` has. -/
theorem Inv.partner (hinv : Inv D group calls s packet posted) (side : Side)
    (hrecv : (Instr.waitForNotification .rcv i).position < (s.progress m).steps)
    (hwait : count s (i, .waitForBufferNotification side m) ≤ (s.progress m).run) :
    (s.progress i).run = (s.progress m).run ∧ (Instr.post .src m).position < (s.progress i).steps ∧
      (s.progress i).steps ≤ (Instr.waitForBufferNotification side m).position ∧
      s.held (.other ⟨side, i, m⟩) = some (side.pick (s.remote (m, i))) := by
  have hin : count s (m, .waitForNotification .rcv i) = (s.progress m).run + 1 := count_of_lt hrecv
  have hpost : count s (m, .waitForNotification .rcv i) ≤ count s (i, .post .src m) := hinv.recv_le .src
  have hle : count s (i, .waitForBufferNotification side m) ≤ count s (i, .post .src m) :=
    count_anti (by cases side <;> simp only [Instr.position] <;> omega)
  have hwait' := run_le_count s (i, .waitForBufferNotification side m)
  have hpost' := count_le_run s (i, .post .src m)
  simp only at hwait' hpost'
  have hrun : (s.progress i).run = (s.progress m).run := by omega
  have hsteps : (Instr.post .src m).position < (s.progress i).steps := lt_of_run_lt (by omega)
  have hsteps' : (s.progress i).steps ≤ (Instr.waitForBufferNotification side m).position := by
    by_contra hlt
    rw [count_of_lt (by omega)] at hwait
    omega
  refine ⟨hrun, hsteps, hsteps', ?_⟩
  have hacquire : count s (i, .acquire_notification side m) = (s.progress i).run + 1 := by
    refine count_of_lt (Nat.lt_trans ?_ hsteps)
    cases side <;> simp only [Instr.position] <;> omega
  have hserialize : count s (i, .serialize m) = (s.progress i).run + 1 := by
    refine count_of_lt (Nat.lt_trans ?_ hsteps)
    simp only [Instr.position]; omega
  have hrelease : count s (i, .release_notification side m) = (s.progress i).run := by
    refine count_of_le (Nat.le_trans hsteps' ?_)
    cases side <;> simp only [Instr.position] <;> omega
  have huse := hinv.inUse (.other ⟨side, i, m⟩)
  simp only [opening, closing, hacquire, hrelease] at huse
  obtain ⟨d, hd⟩ := Option.isSome_iff_exists.mp (huse.mpr (Nat.lt_succ_self _))
  rw [hd, hinv.told side i m d hd (by omega), hinv.remote m i (s.progress m).run hin, hrelease, hrun]

/-- While data is on its way to a target, both members are in the same call. -/
theorem Inv.under_way (hinv : Inv D group calls s packet posted)
    (hsent : count s (i, .write m) = count s (m, .waitForBufferNotification .target i) + 1) :
    (s.progress i).run = (s.progress m).run ∧ (Instr.post .src i).position < (s.progress m).steps ∧
      (s.progress m).steps ≤ (Instr.waitForBufferNotification .target i).position ∧
      (Instr.write m).position < (s.progress i).steps ∧
      (s.progress i).steps ≤ (Instr.waitForBufferNotification .source m).position := by
  have h1 : count s (i, .write m) ≤ count s (i, .waitForNotification .rcv m) :=
    count_anti (by simp only [Instr.position]; omega)
  have h2 : count s (i, .waitForNotification .rcv m) ≤ count s (m, .post .src i) := hinv.recv_le .src
  have h3 : count s (i, .waitForBufferNotification .source m) ≤ count s (m, .notify i) :=
    hinv.wait_le ⟨.source, i, m⟩
  have h4 : count s (m, .notify i) ≤ count s (m, .waitForBufferNotification .target i) :=
    count_anti (by simp only [Instr.position]; omega)
  unfold count Progress.passed at hsent h1 h2 h3 h4
  simp only at hsent h1 h2 h3 h4
  refine ⟨?_, ?_, ?_, ?_, ?_⟩ <;> grind

end

end GaspiCxx.Collectives.Exchange
