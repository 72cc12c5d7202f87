import GaspiCxx.Collectives.Exchange.Preserved
import GaspiCxx.Passive.Settling

/-!
# What an exchange promises

Every call that is over is complete: its target holds what all members supplied to
this same call, and nothing is left in the segments. No write still reads the
memory of a member outside its calls. With nothing on its way, the member that is
behind all others goes on; what is on its way can arrive, so all members can
complete all calls.
-/

namespace GaspiCxx.Collectives.Exchange

open OneSided Passive

variable {n : Nat} {D : Serialization.Typedefs} {group : Group n} {calls : Nat → Call n} {s : State n}
  {packet : Fin n × Fin n → Nat → Descriptions} {posted : Handle n → Nat} {m i : Fin n} {J : Instr n}

/-! ## Reachable states -/

theorem Inv.initial (live : Rank → Finset Slot) (allocated : Rank → Finset Block)
    (blocks : Rank × Block → Descriptions) (memory : Rank → Memory) (remote : Fin n × Fin n → Descriptions)
    (packet : Fin n × Fin n → Nat → Descriptions) :
    Inv D group calls (State.initial live allocated blocks memory remote) packet fun _ => 0 := by
  have hzero : ∀ e : Event n, count (State.initial live allocated blocks memory remote) e = 0 := fun _ => rfl
  refine { consistent := ?_, bound := fun _ => Nat.succ_pos _, inUse := fun p => ?_, described := nofun,
           told := nofun, remote := fun m i k h => ?_, entered := fun _ => rfl, source := fun m i h => ?_,
           base := fun m e h => ?_, stored := fun m i h => ?_, left := fun _ => rfl,
           complete := fun m k r h => ?_ }
  · exact Consistent.quiet (layout D group) _ _ live allocated blocks packet
  · rw [hzero, hzero]; simp [State.initial]
  · rw [hzero] at h; cases h
  · cases h
  · cases h
  · rw [hzero] at h; cases h
  · simp [State.initial] at h

theorem Reachable.trans {s' : State n} (hs : Reachable D group calls s)
    (h : Relation.ReflTransGen (Step D group calls) s s') : Reachable D group calls s' := by
  obtain ⟨live, allocated, blocks, memory, remote, hrun⟩ := hs
  exact ⟨live, allocated, blocks, memory, remote, Relation.ReflTransGen.trans hrun h⟩

theorem Reachable.inv (hs : Reachable D group calls s) : ∃ packet posted, Inv D group calls s packet posted := by
  obtain ⟨live, allocated, blocks, memory, remote, hrun⟩ := hs
  induction hrun with
  | refl => exact ⟨fun _ _ => (⟨0, 0, 0, 0, 0⟩, ⟨0, 0, 0, 0, 0⟩), _, Inv.initial ..⟩
  | tail _ hstep ih =>
    obtain ⟨packet, posted, hinv⟩ := ih
    exact hinv.step hstep

/-- A complete call, with what each member entered it with. -/
theorem Complete.entries {k : Nat} {r : Snapshot} (h : Complete calls s m k r) :
    ∃ e : Fin n → Snapshot, (∀ i, (s.supplied i)[k]? = some (e i)) ∧ r.live = (e m).live ∧
      r.allocated = (e m).allocated ∧
      ∀ i, r.memory.read ((calls k).target m i) = (e i).memory.read ((calls k).source i m) := by
  obtain ⟨⟨em, hem, hlive, hblocks⟩, hdata⟩ := h
  choose e he hread using hdata
  have hm : em = e m := Option.some.inj (hem.symm.trans (he m))
  exact ⟨e, he, hm ▸ hlive, hm ▸ hblocks, hread⟩

/-- A write reads its source only between its post and its acknowledgement. -/
theorem Inv.flushed (hinv : Inv D group calls s packet posted)
    (hm : ∀ i : Fin n, (Instr.write i).position < (s.progress m).steps →
      (Instr.waitForBufferNotification .source i).position < (s.progress m).steps) :
    Flushed s (group.toGlobalRank m) := by
  intro a source target hop hrank
  obtain ⟨before, after, hf⟩ := List.append_of_mem hop
  obtain ⟨m', i', d, -, -, hway, hsource, -⟩ := hinv.of_user hf
  obtain ⟨-, -, -, hwrite, hle⟩ := hinv.under_way hway
  obtain rfl : i' = m := group.inj _ _ (hsource.rank.symm.trans hrank)
  exact absurd (hm m' hwrite) (Nat.not_lt.mpr hle)

/-! ## Nobody waits for ever -/

theorem free_of_delivered (hN : s.net.Delivered) (r : Rank) (th : Thread) : s.net.Free r th := by
  intro key
  refine ⟨fun t ht => ?_, fun d hd => ?_⟩
  · rw [hN.inHand] at ht; cases ht
  · rw [hN.written] at hd; cases hd

theorem exists_fresh (D : Serialization.Typedefs) (s : State n) (r : Rank) : ∃ d, Fresh D s r d := by
  obtain ⟨k, hk⟩ := Infinite.exists_notMem_finset ((s.net.live r).image Prod.snd)
  obtain ⟨b, hb⟩ := Infinite.exists_notMem_finset ((s.net.allocated r).image Prod.snd)
  refine ⟨⟨r, 0, b, descriptionsSize D, k⟩, rfl, rfl, fun hx => hk ?_, fun hx => hb ?_⟩
  · exact Finset.mem_image_of_mem Prod.snd hx
  · exact Finset.mem_image_of_mem Prod.snd hx

theorem exists_described (s : State n) (r : Rank) (P : Part) : ∃ d, Described s r P d := by
  obtain ⟨k, hk⟩ := Infinite.exists_notMem_finset ((s.net.live r).image Prod.snd)
  refine ⟨⟨r, P.segmentId, P.offset, P.size, k⟩, rfl, rfl, fun hx => hk ?_⟩
  exact Finset.mem_image_of_mem Prod.snd hx

/-- With nothing on its way, a notification that was sent for has come. -/
theorem waits (hinv : Inv D group calls s packet posted) (hN : s.net.Delivered) {p : Handle n}
    {d : BufferDescription} (hd : s.held p = some d) (hlt : count s (waiting p) < posted p) :
    ∃ net, s.net.waitForNotification d = some net := by
  have hheld : (view s packet).held p = some d := hd
  have hf := hinv.consistent.flag_of_lt hheld hlt (hN.flight _)
  unfold Net.waitForNotification
  rw [if_pos hf]
  exact ⟨_, rfl⟩

/-- A port between its two instructions is in use. -/
theorem Inv.held_some (hinv : Inv D group calls s packet posted) (p : Handle n)
    (hopen : (opening p).2.position < (s.progress (opening p).1).steps)
    (hclose : (s.progress (opening p).1).steps ≤ (closing p).2.position) : ∃ d, s.held p = some d := by
  refine Option.isSome_iff_exists.mp ((hinv.inUse p).mpr ?_)
  have h1 : count s (opening p) = (s.progress (opening p).1).run + 1 := count_of_lt hopen
  rw [opening_member] at hclose
  have h2 : count s (closing p) = (s.progress (closing p).1).run := count_of_le hclose
  rw [h1, h2, opening_member]
  exact Nat.lt_succ_self _

/-- A member that is behind `i` has not passed more. -/
theorem count_behind (h : (s.progress m).Behind (s.progress i)) (I : Instr n) : count s (m, I) ≤ count s (i, I) :=
  h.passed_le _

/-- Both have posted: the buffer of either role has its notification. -/
theorem Inv.posted_buffer (hinv : Inv D group calls s packet posted) (hN : s.net.Delivered) (role : Role)
    (hsrc : (s.progress m).run < count s (posting .src (channel role m i)))
    (hrcv : (s.progress m).run < count s (posting .rcv (channel role m i))) :
    (s.progress m).run < posted (buffer role m i) := by
  obtain ⟨h1, h2⟩ := hinv.consistent.settled hN (channel role m i)
  have h2 : posted (.recv (channel role m i)) =
      min (count s (posting .src (channel role m i))) (count s (posting .rcv (channel role m i))) := h2
  cases role with
  | src => simp only [buffer, Role.port]; omega
  | rcv => simp only [buffer, Role.port]; omega

/-- The member that is behind all others goes on. -/
theorem goes_on (hinv : Inv D group calls s packet posted) (hN : s.net.Delivered)
    (hbehind : ∀ i, (s.progress m).Behind (s.progress i)) :
    ∃ s', Step D group calls s s' ∧ s'.progress = Progress.tick (length n) s.progress m := by
  have hfree := free_of_delivered hN (group.toGlobalRank m) .user
  obtain ⟨J, hJ⟩ := Instr.exists_position (hinv.bound m)
  have hat : At group s m J := ⟨hJ.symm, hfree⟩
  have hpassed : ∀ {I : Instr n} (i : Fin n), I.position < J.position → (s.progress m).run < count s (i, I) := by
    intro I i hlt
    refine Nat.lt_of_lt_of_le ?_ (count_behind (hbehind i) I)
    rw [count_of_lt (hat.steps ▸ hlt)]
    exact Nat.lt_succ_self _
  have hheld : ∀ p : Handle n, (opening p).1 = m → (opening p).2.position < J.position →
      J.position ≤ (closing p).2.position → ∃ d, s.held p = some d := by
    intro p hp hlo hhi
    refine hinv.held_some p ?_ ?_
    · rw [hp, hat.steps]; exact hlo
    · rw [hp, hat.steps]; exact hhi
  cases J with
  | enter => exact ⟨_, .enter s m hat, rfl⟩
  | acquire_notification side i =>
    obtain ⟨d, hd⟩ := exists_described s (group.toGlobalRank m) ((calls (s.progress m).run).part ⟨side, m, i⟩)
    exact ⟨_, .acquire_notification s m i side d hat hd, rfl⟩
  | newBuffer role i =>
    obtain ⟨d, hd⟩ := exists_fresh D s (group.toGlobalRank m)
    exact ⟨_, .newBuffer s m i role d hat hd, rfl⟩
  | serialize i =>
    obtain ⟨d, hd⟩ := hheld (.send (m, i)) rfl (by simp only [opening, Instr.position]; omega)
      (by simp only [closing, Instr.position]; omega)
    obtain ⟨t, ht⟩ := hheld (.other ⟨.target, m, i⟩) rfl (by simp only [opening, Instr.position]; omega)
      (by simp only [closing, Instr.position]; omega)
    obtain ⟨u, hu⟩ := hheld (.other ⟨.source, m, i⟩) rfl (by simp only [opening, Instr.position]; omega)
      (by simp only [closing, Instr.position]; omega)
    exact ⟨_, .serialize s m i d t u hat hd ht hu, rfl⟩
  | post role i =>
    cases role with
    | src =>
      obtain ⟨d, hd⟩ := hheld (.send (m, i)) rfl (by simp only [opening, Instr.position]; omega)
        (by simp only [closing, Instr.position]; omega)
      exact ⟨_, .iSendTagMessg s m i d hat hd, rfl⟩
    | rcv =>
      obtain ⟨d, hd⟩ := hheld (.recv (i, m)) rfl (by simp only [opening, Instr.position]; omega)
        (by simp only [closing, Instr.position]; omega)
      exact ⟨_, .iRecvTagMessg s m i d hat hd, rfl⟩
  | waitForNotification role i =>
    cases role with
    | src =>
      obtain ⟨d, hd⟩ := hheld (.send (m, i)) rfl (by simp only [opening, Instr.position]; omega)
        (by simp only [closing, Instr.position]; omega)
      have hpost := hinv.posted_buffer (m := m) (i := i) hN .src
        (hpassed m (by simp only [Instr.position]; omega)) (hpassed i (by simp only [Instr.position]; omega))
      have htaken : count s (m, .waitForNotification .src i) = (s.progress m).run := count_of_le (Nat.le_of_eq hJ.symm)
      obtain ⟨net, hnet⟩ := waits hinv hN hd (htaken ▸ hpost)
      exact ⟨_, .waitSend s m i d net hat hd hnet, rfl⟩
    | rcv =>
      obtain ⟨d, hd⟩ := hheld (.recv (i, m)) rfl (by simp only [opening, Instr.position]; omega)
        (by simp only [closing, Instr.position]; omega)
      have hpost := hinv.posted_buffer (m := m) (i := i) hN .rcv
        (hpassed i (by simp only [Instr.position]; omega)) (hpassed m (by simp only [Instr.position]; omega))
      have htaken : count s (m, .waitForNotification .rcv i) = (s.progress m).run := count_of_le (Nat.le_of_eq hJ.symm)
      obtain ⟨net, hnet⟩ := waits hinv hN hd (htaken ▸ hpost)
      exact ⟨_, .waitRecv s m i d net hat hd hnet, rfl⟩
  | deleteBuffer role i =>
    obtain ⟨d, hd⟩ := hheld (buffer role m i) (by rw [opening_buffer])
      (by rw [opening_buffer]; cases role <;> simp only [Instr.position] <;> omega)
      (by rw [closing_buffer])
    exact ⟨_, .deleteBuffer s m i role d hat hd, rfl⟩
  | write i =>
    obtain ⟨d, hd⟩ := hheld (.other ⟨.source, m, i⟩) rfl (by simp only [opening, Instr.position]; omega)
      (by simp only [closing, Instr.position]; omega)
    exact ⟨_, .write s m i d hat hd, rfl⟩
  | waitForBufferNotification side i =>
    obtain ⟨d, hd⟩ := hheld (.other ⟨side, m, i⟩) rfl
      (by cases side <;> simp only [opening, Instr.position] <;> omega)
      (by cases side <;> simp only [closing, Instr.position] <;> omega)
    have hsent : (s.progress m).run < count s (sending ⟨side, m, i⟩) := by
      cases side with
      | source => exact hpassed i (by simp only [Instr.position]; omega)
      | target => exact hpassed i (by simp only [Instr.position]; omega)
    have hpost : posted (.other ⟨side, m, i⟩) = count s (sending ⟨side, m, i⟩) := hinv.consistent.sent _
    have htaken : count s (m, .waitForBufferNotification side i) = (s.progress m).run :=
      count_of_le (Nat.le_of_eq hJ.symm)
    obtain ⟨net, hnet⟩ := waits hinv hN hd (by rw [hpost]; exact htaken ▸ hsent)
    exact ⟨_, .waitForBufferNotification s m i side d net hat hd hnet, rfl⟩
  | notify i => exact ⟨_, .notify s m i hat, rfl⟩
  | release_notification side i =>
    obtain ⟨d, hd⟩ := hheld (.other ⟨side, m, i⟩) rfl
      (by cases side <;> simp only [opening, Instr.position] <;> omega) (Nat.le_refl _)
    exact ⟨_, .release_notification s m i side d hat hd, rfl⟩
  | leave =>
    refine ⟨_, .leave s m hat fun a source target hop => ?_, rfl⟩
    rw [hN.flight] at hop
    cases hop

/-! ## Everybody comes home -/

/-- The steps a write is away from its end. -/
def Data.steps : Data → Nat
  | .posted _ _ => 3
  | .bytes _ _ => 2

theorem bounded_write {N : ExchangeNet} (hN : N.Bounded) (source target : BufferDescription) :
    (ExchangeNet.write N source target).Bounded := by
  unfold ExchangeNet.write
  split
  · exact hN.post _ _
  · exact hN.throw _

theorem Step.bounded {s' : State n} (h : Step D group calls s s') (hN : s.net.Bounded) : s'.net.Bounded := by
  cases h with
  | enter | leave | compute => exact hN
  | acquire_notification | newBuffer | serialize | deleteBuffer | release_notification | take | allocate | giveBack
  | deallocate =>
    exact ⟨hN.flight, hN.msgs, hN.inHand, hN.written⟩
  | iSendTagMessg => exact hN.handle ..
  | iRecvTagMessg => exact hN.iRecvTagMessg ..
  | waitRecv m i d net hat hd hnet => exact hN.waitForNotification hnet
  | waitSend m i d net hat hd hnet => exact hN.waitForNotification hnet
  | waitForBufferNotification m i side d net hat hd hnet => exact hN.waitForNotification hnet
  | write => exact bounded_write hN ..
  | notify => exact hN.post ..
  | net net hnet => exact hN.step hnet
  | fetch | store => exact ⟨hN.flight.update _ _, hN.msgs, hN.inHand, hN.written⟩

theorem Reachable.bounded (hs : Reachable D group calls s) : s.net.Bounded := by
  obtain ⟨live, allocated, blocks, memory, remote, hrun⟩ := hs
  induction hrun with
  | refl => exact .quiet live allocated blocks
  | tail _ hstep ih => exact hstep.bounded ih

/-- As long as anything is on its way some of it gets on, and no member notices. -/
theorem lighter (D : Serialization.Typedefs) (group : Group n) (calls : Nat → Call n) (hN : s.net.Bounded)
    (hdone : ¬ s.net.Delivered) : ∃ u, Step D group calls s u ∧ u.progress = s.progress ∧
      u.net.load Data.steps < s.net.load Data.steps := by
  obtain ⟨net, hnet, hlt⟩ | ⟨a, x, before, after, hf⟩ := Net.exists_lighter Thread.passive Data.steps hN hdone
  · exact ⟨_, .net s net hnet, rfl, hlt⟩
  · cases x with
    | posted source target =>
      refine ⟨_, .fetch s a source target before after hf, rfl, Net.load_flight hN hf [.user _] ?_ rfl rfl rfl rfl⟩
      exact Nat.lt_succ_self 2
    | bytes target data =>
      refine ⟨_, .store s a target data before after hf, rfl, Net.load_flight hN hf [.bare] ?_ rfl rfl rfl rfl⟩
      exact Nat.lt_succ_self 1

/-- What is on its way can arrive, and no member notices. -/
theorem settles (D : Serialization.Typedefs) (group : Group n) (calls : Nat → Call n) (hN : s.net.Bounded) :
    ∃ s', Relation.ReflTransGen (Step D group calls) s s' ∧ s'.net.Delivered ∧ s'.progress = s.progress := by
  have hlighter : ∀ t : State n, t.net.Bounded ∧ t.progress = s.progress → ¬ t.net.Delivered →
      ∃ u, Relation.ReflTransGen (Step D group calls) t u ∧ (u.net.Bounded ∧ u.progress = s.progress) ∧
        u.net.load Data.steps < t.net.load Data.steps := by
    rintro t ⟨hbounded, hprog⟩ hdone
    obtain ⟨u, hstep, hsame, hlt⟩ := lighter D group calls hbounded hdone
    exact ⟨u, .single hstep, ⟨hstep.bounded hbounded, hsame.trans hprog⟩, hlt⟩
  obtain ⟨s', hrun, ⟨-, hprog⟩, hdel⟩ := exists_reaching _ hlighter ⟨hN, rfl⟩
  exact ⟨s', hrun, hdel, hprog⟩

/-- The member that is behind all others goes on once what is on its way has arrived. -/
theorem Reachable.goes_on (hs : Reachable D group calls s) (hbehind : ∀ i, (s.progress m).Behind (s.progress i)) :
    ∃ s', Relation.ReflTransGen (Step D group calls) s s' ∧ Reachable D group calls s' ∧
      s'.progress = Progress.tick (length n) s.progress m := by
  obtain ⟨u, hsu, hdel, hprog⟩ := settles D group calls hs.bounded
  have hu := hs.trans hsu
  obtain ⟨packet, posted, hinv⟩ := hu.inv
  obtain ⟨s', hstep, htick⟩ := Exchange.goes_on hinv hdel (hprog ▸ hbehind)
  exact ⟨s', hsu.tail hstep, hu.trans (.single hstep), hprog ▸ htick⟩

/-- **All members complete all calls.** -/
theorem exists_calls (D : Serialization.Typedefs) (group : Group n) (calls : Nat → Call n) (K : Nat) :
    ∃ s, Reachable D group calls s ∧ ∀ m, s.progress m = ⟨K, 0⟩ := by
  have hstart : Reachable D group calls
      (State.initial (fun _ => ∅) (fun _ => ∅) (fun _ => (⟨0, 0, 0, 0, 0⟩, ⟨0, 0, 0, 0, 0⟩)) (fun _ _ => 0)
        fun _ => (⟨0, 0, 0, 0, 0⟩, ⟨0, 0, 0, 0, 0⟩)) :=
    ⟨_, _, _, _, _, .refl⟩
  have hgo : ∀ s, Reachable D group calls s → ∀ m ∈ (Finset.univ : Finset (Fin n)),
      (∀ i ∈ (Finset.univ : Finset (Fin n)), (s.progress m).Behind (s.progress i)) →
      ∃ s', Relation.ReflTransGen (Step D group calls) s s' ∧ Reachable D group calls s' ∧
        s'.progress = Progress.tick (length n) s.progress m :=
    fun s hs m _ hbehind => hs.goes_on fun i => hbehind i (Finset.mem_univ i)
  obtain ⟨s, -, hs, hdone⟩ := Progress.exists_runs hgo K hstart (fun _ => Nat.succ_pos _)
    fun _ _ => by simp [State.initial, Progress.total]
  exact ⟨s, hs, fun m => hdone m (Finset.mem_univ m)⟩

/-! ## Two members -/

def pair : Group 2 where
  toGlobalRank m := m
  inj _ _ h := Fin.ext (Int.ofNat.inj h)

/-- Both return from their first two calls. -/
theorem pair_returns (calls : Nat → Call 2) :
    ∃ s, Reachable Serialization.gaspi pair calls s ∧ ∀ m, (s.returned m).length = 2 := by
  obtain ⟨s, hs, hdone⟩ := exists_calls Serialization.gaspi pair calls 2
  obtain ⟨packet, posted, hinv⟩ := hs.inv
  exact ⟨s, hs, fun m => (hinv.left m).trans (congrArg Progress.run (hdone m))⟩

end GaspiCxx.Collectives.Exchange
