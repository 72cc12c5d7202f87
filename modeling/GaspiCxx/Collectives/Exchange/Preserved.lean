import GaspiCxx.Collectives.Exchange.Invariant

/-!
# Every step keeps the invariant

`Inv.move` is what is left to show when a member goes on inside its call; the
instructions that take and give back notifications and buffers, those that post and
those that wait are then one lemma each about the channels. Entering, leaving and
the network's work on the data change the memory or the logs, and have lemmas of
their own.
-/

namespace GaspiCxx.Collectives.Exchange

open OneSided Passive

variable {n : Nat} {D : Serialization.Typedefs} {group : Group n} {calls : Nat → Call n} {s s' : State n}
  {packet packet' : Fin n × Fin n → Nat → Descriptions} {posted posted' : Handle n → Nat} {m i : Fin n}
  {I J : Instr n} {side : Side} {role : Role} {p : Handle n} {q : Local n} {d : BufferDescription}

/-! ## What the conditions depend on -/

theorem getElem?_of_prefix {A : Type} {l l' : List A} {k : Nat} {a : A} (h : l <+: l') (ha : l[k]? = some a) :
    l'[k]? = some a := by
  obtain ⟨rest, rfl⟩ := h
  obtain ⟨hk, -⟩ := List.getElem?_eq_some_iff.mp ha
  rw [List.getElem?_append_left hk, ha]

theorem Supplied.mono {k : Nat} {data : List UInt8} (h : Supplied calls s k i m data)
    (hs : ∀ i, s.supplied i <+: s'.supplied i) : Supplied calls s' k i m data := by
  obtain ⟨e, he, hdata⟩ := h
  exact ⟨e, getElem?_of_prefix (hs i) he, hdata⟩

theorem Stored.congr (h : Stored group calls s m i) (hs : ∀ i, s.supplied i <+: s'.supplied i)
    (hrun : (s'.progress m).run = (s.progress m).run)
    (hmem : (s'.memory (group.toGlobalRank m)).read ((calls (s.progress m).run).target m i) =
      (s.memory (group.toGlobalRank m)).read ((calls (s.progress m).run).target m i)) :
    Stored group calls s' m i := by
  unfold Stored
  rw [hrun, hmem]
  exact Supplied.mono h hs

/-- What is on its way stays good as long as its member's call goes on and its data is not touched. -/
theorem Good.congr {op : Op Descriptions Data} (h : Good group calls s q op)
    (hs : ∀ i, s.supplied i <+: s'.supplied i) (hrun : (s'.progress q.member).run = (s.progress q.member).run)
    (hstored : Stored group calls s q.member q.i → Stored group calls s' q.member q.i) :
    Good group calls s' q op := by
  obtain ⟨side, m, i⟩ := q
  unfold Good at h ⊢
  simp only at hrun hstored h ⊢
  rw [hrun]
  split at h
  · exact h
  · exact h
  · exact hstored h
  · exact h
  · exact ⟨h.1, h.2.mono hs⟩

theorem Here.congr (h : Here group calls s q)
    (hstored : Stored group calls s q.member q.i → Stored group calls s' q.member q.i) : Here group calls s' q := by
  obtain ⟨side, m, i⟩ := q
  cases side with
  | source => trivial
  | target => exact hstored h

theorem Complete.mono {k : Nat} {r : Snapshot} (h : Complete calls s m k r)
    (hs : ∀ i, s.supplied i <+: s'.supplied i) : Complete calls s' m k r := by
  obtain ⟨⟨e, he, hsame⟩, hdata⟩ := h
  exact ⟨⟨e, getElem?_of_prefix (hs m) he, hsame⟩, fun i => (hdata i).mono hs⟩

/-! ## A member goes on inside its call -/

/-- Nothing is taken and nothing given back: no port comes into use or goes out of use. -/
def Instr.Keeps : Instr n → Prop
  | .acquire_notification _ _ | .newBuffer _ _ | .deleteBuffer _ _ | .release_notification _ _ => False
  | _ => True

/-- Nothing is taken, given back, told or learnt. -/
def Instr.Quiet : Instr n → Prop
  | .post _ _ | .write _ | .waitForBufferNotification _ _ | .notify _ => True
  | .waitForNotification role _ => role = .src
  | _ => False

theorem Instr.Quiet.keeps (hq : J.Quiet) : J.Keeps := by
  cases J <;> trivial

theorem count_closing_le (s : State n) (p : Handle n) : count s (closing p) ≤ count s (opening p) := by
  cases p with
  | send c => exact count_anti (by simp only [Instr.position]; omega)
  | recv c => exact count_anti (by simp only [Instr.position]; omega)
  | other q =>
    obtain ⟨side, m, i⟩ := q
    apply count_anti
    cases side <;> simp only [Instr.position] <;> omega

theorem count_opening_le (s : State n) (p : Handle n) : count s (opening p) ≤ count s (closing p) + 1 := by
  have hm : (opening p).1 = (closing p).1 := by cases p <;> rfl
  have h1 := count_le_run s (opening p)
  have h2 := run_le_count s (closing p)
  rw [hm] at h1
  omega

/-- Member `m` goes on inside its call, from `J`. -/
theorem Inv.move (hinv : Inv D group calls s packet posted) (hJ : (s.progress m).steps = J.position)
    (he : J ≠ .enter) (hl : J ≠ .leave) {net : ExchangeNet} {held : Handle n → Option BufferDescription}
    {remote : Fin n × Fin n → Descriptions}
    (hc : Consistent (layout D group) (Good group calls s) (Here group calls s)
      { ticked (view s packet) m J with held := held, packet := packet' } net posted')
    (huse : ∀ p, (held p).isSome ↔ count (s.tick m) (closing p) < count (s.tick m) (opening p))
    (hdesc : ∀ q d, held (.other q) = some d → Describes group calls (s.progress q.member).run q d)
    (htold : ∀ side m' i' d, held (.other ⟨side, m', i'⟩) = some d →
      count (s.tick m) (m', .serialize i') = count (s.tick m) (m', .release_notification side i') + 1 →
      d = side.pick (packet' (m', i') (count (s.tick m) (m', .release_notification side i'))))
    (hremote : ∀ m' i' k, count (s.tick m) (m', .waitForNotification .rcv i') = k + 1 →
      remote (m', i') = packet' (i', m') k)
    (hstored : ∀ i', J = .waitForBufferNotification .target i' → Stored group calls s m i') :
    Inv D group calls { s.tick m with net := net, held := held, remote := remote } packet' posted' := by
  have hrun : ∀ m', (Progress.tick (length n) s.progress m m').run = (s.progress m').run := by
    intro m'
    rw [run_tick hJ, if_neg fun h => hl h.2, Nat.add_zero]
  have hsteps : ∀ m', 0 < (Progress.tick (length n) s.progress m m').steps → 0 < (s.progress m').steps := by
    intro m' h
    by_cases hm : m' = m
    · subst hm
      rw [hJ]
      exact Nat.pos_of_ne_zero fun h0 => he (Instr.position_inj h0)
    · rwa [Progress.tick_ne hm] at h
  have hsame : ∀ m' i', Stored group calls s m' i' →
      Stored group calls { s.tick m with net := net, held := held, remote := remote } m' i' :=
    fun m' i' h => h.congr (fun _ => List.prefix_refl _) (hrun m') rfl
  refine { consistent := ?_, bound := ?_, inUse := huse, described := ?_, told := htold, remote := hremote,
           entered := ?_, source := ?_, base := ?_, stored := ?_, left := ?_,
           complete := fun m' k r h => (hinv.complete m' k r h).mono fun _ => List.prefix_refl _ }
  · have hview : view { s.tick m with net := net, held := held, remote := remote } packet' =
        { ticked (view s packet) m J with held := held, packet := packet' } := by
      rw [← view_tick hJ packet]
      rfl
    rw [hview]
    refine hc.imp (fun q d _ _ op h => ?_) (fun q d _ _ h => ?_)
    · exact h.congr (fun _ => List.prefix_refl _) (hrun _) (hsame _ _)
    · exact h.congr (hsame _ _)
  · exact Progress.tick_steps_lt hinv.bound
  · intro q d hd
    exact (hrun q.member).symm ▸ hdesc q d hd
  · intro m'
    refine (hinv.entered m').trans ?_
    have := count_tick hJ (m', .enter)
    rw [if_neg fun h => he (congrArg Prod.snd h).symm] at this
    exact this.symm
  · intro m' i' h
    have := hinv.source m' i' (hsteps m' h)
    exact (hrun m').symm ▸ this
  · intro m' e h hentry
    exact hinv.base m' e (hsteps m' h) (hrun m' ▸ hentry)
  · intro m' i' h
    apply hsame m' i'
    have hcount := count_tick hJ (m', .waitForBufferNotification .target i')
    have h' : (s.progress m').run < count (s.tick m) (m', .waitForBufferNotification .target i') := hrun m' ▸ h
    rw [hcount] at h'
    split at h'
    · next heq =>
      obtain ⟨rfl, hJ'⟩ := Prod.mk.inj heq
      exact hstored i' hJ'.symm
    · exact hinv.stored m' i' h'
  · intro m'
    exact (hinv.left m').trans (hrun m').symm

/-- What a member has been told, and has told, at an instruction that neither fills a
send buffer nor changes the descriptions. -/
theorem Inv.told_same (hinv : Inv D group calls s packet posted) (hJ : (s.progress m).steps = J.position)
    (hser : ∀ i, J ≠ .serialize i) (hrel : ∀ side i, J ≠ .release_notification side i) {side : Side} {m' i' : Fin n}
    (hd : s.held (.other ⟨side, m', i'⟩) = some d)
    (hc : count (s.tick m) (m', .serialize i') = count (s.tick m) (m', .release_notification side i') + 1) :
    d = side.pick (packet (m', i') (count (s.tick m) (m', .release_notification side i'))) := by
  rw [count_tick hJ, if_neg fun h => hser i' (congrArg Prod.snd h).symm, Nat.add_zero] at hc
  rw [count_tick hJ, if_neg fun h => hrel side i' (congrArg Prod.snd h).symm, Nat.add_zero] at hc ⊢
  exact hinv.told side m' i' d hd hc

theorem Inv.remote_same (hinv : Inv D group calls s packet posted) (hJ : (s.progress m).steps = J.position)
    (hwait : ∀ i, J ≠ .waitForNotification .rcv i) {m' i' : Fin n} {k : Nat}
    (hc : count (s.tick m) (m', .waitForNotification .rcv i') = k + 1) : s.remote (m', i') = packet (i', m') k := by
  rw [count_tick hJ, if_neg fun h => hwait i' (congrArg Prod.snd h).symm, Nat.add_zero] at hc
  exact hinv.remote m' i' k hc

theorem Inv.inUse_same (hinv : Inv D group calls s packet posted) (hJ : (s.progress m).steps = J.position)
    (hk : J.Keeps) (p : Handle n) :
    (s.held p).isSome ↔ count (s.tick m) (closing p) < count (s.tick m) (opening p) := by
  have hopen : opening p ≠ (m, J) := by
    refine opening_ne ?_ ?_ p
    · rintro role i rfl; exact hk
    · rintro side i rfl; exact hk
  have hclose : closing p ≠ (m, J) := by
    refine closing_ne ?_ ?_ p
    · rintro role i rfl; exact hk
    · rintro side i rfl; exact hk
  rw [count_tick hJ, if_neg hclose, count_tick hJ, if_neg hopen]
  exact hinv.inUse p

/-- Member `m` posts, or goes on with nothing new to remember. -/
theorem Inv.move_quiet (hinv : Inv D group calls s packet posted) (hJ : (s.progress m).steps = J.position)
    (hq : J.Quiet) {net : ExchangeNet}
    (hc : Consistent (layout D group) (Good group calls s) (Here group calls s) (ticked (view s packet) m J) net
      posted')
    (hstored : ∀ i', J = .waitForBufferNotification .target i' → Stored group calls s m i') :
    Inv D group calls { s.tick m with net := net } packet posted' := by
  have hser : ∀ i, J ≠ .serialize i := by rintro i rfl; exact hq
  have hrel : ∀ side i, J ≠ .release_notification side i := by rintro side i rfl; exact hq
  have hwait : ∀ i, J ≠ .waitForNotification .rcv i := by rintro i rfl; cases hq
  refine hinv.move hJ ?_ ?_ hc (hinv.inUse_same hJ hq.keeps) hinv.described
    (fun _ _ _ _ => hinv.told_same hJ hser hrel) (fun _ _ _ => hinv.remote_same hJ hwait) hstored
  · rintro rfl; exact hq
  · rintro rfl; exact hq

theorem Inv.inUse_open (hinv : Inv D group calls s packet posted) (hJ : (s.progress m).steps = J.position)
    (hopen : ∀ p', opening p' = (m, J) ↔ p' = p) (hclose : ∀ p, closing p ≠ (m, J)) (d : BufferDescription)
    (p' : Handle n) :
    (Function.update s.held p (some d) p').isSome ↔
      count (s.tick m) (closing p') < count (s.tick m) (opening p') := by
  rw [count_tick hJ, if_neg (hclose p'), count_tick hJ]
  by_cases hp : p' = p
  · subst hp
    have := count_closing_le s p'
    rw [Function.update_self, if_pos ((hopen p').mpr rfl)]
    simp only [Option.isSome_some, true_iff]
    omega
  · rw [Function.update_of_ne hp, if_neg fun h => hp ((hopen p').mp h)]
    exact hinv.inUse p'

theorem Inv.inUse_close (hinv : Inv D group calls s packet posted) (hJ : (s.progress m).steps = J.position)
    (hopen : ∀ p, opening p ≠ (m, J)) (hclose : ∀ p', closing p' = (m, J) ↔ p' = p) (p' : Handle n) :
    (Function.update s.held p none p').isSome ↔
      count (s.tick m) (closing p') < count (s.tick m) (opening p') := by
  rw [count_tick hJ, count_tick hJ, if_neg (hopen p')]
  by_cases hp : p' = p
  · subst hp
    have := count_opening_le s p'
    rw [Function.update_self, if_pos ((hclose p').mpr rfl)]
    simp only [Option.isSome_none, Bool.false_eq_true, false_iff]
    omega
  · rw [Function.update_of_ne hp, if_neg fun h => hp ((hclose p').mp h)]
    exact hinv.inUse p'

/-- Before a port comes into use it is not. -/
theorem Inv.held_none (hinv : Inv D group calls s packet posted) (hle : (s.progress m).steps ≤ J.position)
    (hopen : opening p = (m, J)) : s.held p = none := by
  have huse := hinv.inUse p
  have h1 := count_closing_le s p
  have h2 := run_le_count s (closing p)
  have hm : (closing p).1 = m := by
    have : (closing p).1 = (opening p).1 := by cases p <;> rfl
    rw [this, hopen]
  rw [hm] at h2
  rw [hopen, count_of_le hle] at huse
  cases hp : s.held p with
  | none => rfl
  | some d =>
    rw [hp] at huse
    have := huse.mp rfl
    omega

/-! ## Notifications and buffers -/

theorem Inv.acquire_notification (hinv : Inv D group calls s packet posted)
    (hat : At group s m (.acquire_notification side i))
    (hd : Described s (group.toGlobalRank m) ((calls (s.progress m).run).part ⟨side, m, i⟩) d) :
    Inv D group calls
      { s.tick m with
        net := s.net.acquire_notification d
        held := Function.update s.held (.other ⟨side, m, i⟩) (some d) } packet posted := by
  have hJ := hat.steps
  have hnone : (view s packet).held (.other ⟨side, m, i⟩) = none := hinv.held_none (Nat.le_of_eq hJ) rfl
  have hc := hinv.consistent.acquire_notification hnone hd.rank (hd.rank ▸ hd.slot)
  refine hinv.move hJ (by simp) (by simp) hc
    (hinv.inUse_open hJ (fun _ => opening_other_iff) (closing_ne (by simp) (by simp)) d)
    (fun q e he => ?_) (fun side' m' i' e he htold => ?_) (fun _ _ _ => hinv.remote_same hJ (by simp)) (by simp)
  · obtain ⟨hq, hde⟩ | ⟨-, he⟩ := update_eq_some he
    · obtain rfl := Port.other.inj hq
      obtain rfl := Option.some.inj hde
      exact ⟨hd.rank, hd.part⟩
    · exact hinv.described q e he
  · obtain ⟨hq, -⟩ | ⟨-, he⟩ := update_eq_some he
    · -- it has not been told yet
      obtain ⟨rfl, rfl, rfl⟩ := Local.mk.inj (Port.other.inj hq)
      rw [count_tick hJ, count_tick hJ, if_neg (by simp), if_neg (by simp), count_of_le, count_of_le] at htold
      · omega
      · rw [hJ]; cases side' <;> simp only [Instr.position] <;> omega
      · rw [hJ]; cases side' <;> simp only [Instr.position] <;> omega
    · exact hinv.told_same hJ (by simp) (by simp) he htold

theorem Inv.newBuffer (hinv : Inv D group calls s packet posted) (hat : At group s m (.newBuffer role i))
    (hd : Fresh D s (group.toGlobalRank m) d) :
    Inv D group calls
      { s.tick m with
        net := s.net.newBuffer d
        held := Function.update s.held (buffer role m i) (some d) } packet posted := by
  have hJ := hat.steps
  have hnone : s.held (buffer role m i) = none := hinv.held_none (Nat.le_of_eq hJ) opening_buffer
  have hrank : d.rank = (layout D group).owner (buffer role m i) := by
    rw [hd.rank]
    cases role <;> rfl
  have hposts : count s (posting role (channel role m i)) = count s (waiting (buffer role m i)) := by
    rw [posting_channel, waiting_buffer, count_of_le, count_of_le]
    · rw [hJ]; cases role <;> simp only [Instr.position] <;> omega
    · rw [hJ]; cases role <;> simp only [Instr.position] <;> omega
  have hc := hinv.consistent.newBuffer role hnone hrank hd.size (hd.rank ▸ hd.slot) (hd.rank ▸ hd.block) hposts
  refine hinv.move hJ (by simp) (by simp) hc
    (hinv.inUse_open hJ (fun _ => opening_buffer_iff) (closing_ne (by simp) (by simp)) d)
    (fun q e he => ?_) (fun side' m' i' e he htold => ?_) (fun _ _ _ => hinv.remote_same hJ (by simp)) (by simp)
  · rw [Function.update_of_ne other_ne_buffer] at he
    exact hinv.described q e he
  · rw [Function.update_of_ne other_ne_buffer] at he
    exact hinv.told_same hJ (by simp) (by simp) he htold

theorem Inv.deleteBuffer (hinv : Inv D group calls s packet posted) (hat : At group s m (.deleteBuffer role i))
    (hd : s.held (buffer role m i) = some d) :
    Inv D group calls
      { s.tick m with
        net := s.net.deleteBuffer d
        held := Function.update s.held (buffer role m i) none } packet posted := by
  have hJ := hat.steps
  have hposts : count s (posting role (channel role m i)) = count s (waiting (buffer role m i)) := by
    rw [posting_channel, waiting_buffer, count_of_lt, count_of_lt]
    · rw [hJ]; cases role <;> simp only [Instr.position] <;> omega
    · rw [hJ]; cases role <;> simp only [Instr.position] <;> omega
  have hmade : role = .src →
      count s ((channel role m i).1, .serialize (channel role m i).2) =
        count s (waiting (.send (channel role m i))) := by
    rintro rfl
    simp only [channel, waiting]
    rw [count_of_lt, count_of_lt]
    · rw [hJ]; simp only [Instr.position]; omega
    · rw [hJ]; simp only [Instr.position]; omega
  have hc := hinv.consistent.deleteBuffer role hd hposts hmade
  refine hinv.move hJ (by simp) (by simp) hc
    (hinv.inUse_close hJ (opening_ne (by simp) (by simp)) (fun _ => closing_buffer_iff))
    (fun q e he => ?_) (fun side' m' i' e he htold => ?_) (fun _ _ _ => hinv.remote_same hJ (by simp)) (by simp)
  · rw [Function.update_of_ne other_ne_buffer] at he
    exact hinv.described q e he
  · rw [Function.update_of_ne other_ne_buffer] at he
    exact hinv.told_same hJ (by simp) (by simp) he htold

theorem Inv.release_notification (hinv : Inv D group calls s packet posted)
    (hat : At group s m (.release_notification side i)) (hd : s.held (.other ⟨side, m, i⟩) = some d) :
    Inv D group calls
      { s.tick m with
        net := s.net.release_notification d
        held := Function.update s.held (.other ⟨side, m, i⟩) none } packet posted := by
  have hJ := hat.steps
  -- all that was sent in this call has been taken
  have hsent : count s (sending ⟨side, m, i⟩) = count s (waiting (.other ⟨side, m, i⟩)) := by
    have hwait := hinv.wait_le ⟨side, m, i⟩
    have hle := hinv.sending_le side m i
    have hpassed : count s (waiting (.other ⟨side, m, i⟩)) = (s.progress m).run + 1 := by
      apply count_of_lt
      rw [hJ]; cases side <;> simp only [Instr.position] <;> omega
    omega
  have hheld : (view s packet).held (.other ⟨side, m, i⟩) = some d := hd
  have hc := hinv.consistent.release_notification hheld hsent
  refine hinv.move hJ (by simp) (by simp) hc
    (hinv.inUse_close hJ (opening_ne (by simp) (by simp)) (fun _ => closing_other_iff))
    (fun q e he => ?_) (fun side' m' i' e he htold => ?_) (fun _ _ _ => hinv.remote_same hJ (by simp)) (by simp)
  · obtain ⟨-, hde⟩ | ⟨-, he⟩ := update_eq_some he
    · cases hde
    · exact hinv.described q e he
  · obtain ⟨-, hde⟩ | ⟨hne, he⟩ := update_eq_some he
    · cases hde
    · have hrel : ((m', .release_notification side' i') : Event n) ≠ (m, .release_notification side i) := by
        intro h
        exact hne (closing_other_iff.mp h)
      rw [count_tick hJ, count_tick hJ, if_neg (by simp), if_neg hrel] at htold
      rw [count_tick hJ, if_neg hrel]
      exact hinv.told side' m' i' e he htold

/-! ## Telling and being told -/

theorem Inv.serialize (hinv : Inv D group calls s packet posted) {localTarget localSource : BufferDescription}
    (hat : At group s m (.serialize i)) (hd : s.held (buffer .src m i) = some d)
    (ht : s.held (.other ⟨.target, m, i⟩) = some localTarget)
    (hs : s.held (.other ⟨.source, m, i⟩) = some localSource) :
    ∃ packet', Inv D group calls { s.tick m with net := s.net.serialize d (localTarget, localSource) } packet'
      posted := by
  have hJ := hat.steps
  have hser : count s (m, .serialize i) = (s.progress m).run := count_of_le (Nat.le_of_eq hJ)
  have hwait : count s (m, .waitForNotification .src i) = (s.progress m).run := by
    apply count_of_le
    rw [hJ]; simp only [Instr.position]; omega
  have hheld : (view s packet).held (.send (m, i)) = some d := hd
  have hc := hinv.consistent.serialize hheld (hser.trans hwait.symm) (localTarget, localSource)
  refine ⟨_, hinv.move hJ (by simp) (by simp) hc (hinv.inUse_same hJ trivial)
    hinv.described (fun side m' i' e he htold => ?_) (fun m' i' k hk => ?_) (by simp)⟩
  · rw [count_tick hJ (m', .release_notification side i'), if_neg (by simp)] at htold ⊢
    by_cases hmi : (m', i') = (m, i)
    · obtain ⟨rfl, rfl⟩ := Prod.mk.inj hmi
      have hrel : count s (m', .release_notification side i') = (s.progress m').run := by
        apply count_of_le
        rw [hJ]; cases side <;> simp only [Instr.position] <;> omega
      have hval : record (view s packet).packet (m', i') ((view s packet).made (m', i')) (localTarget, localSource)
          (m', i') (count s (m', .release_notification side i')) = (localTarget, localSource) := by
        rw [hrel, ← hser]
        exact record_self _ _
      rw [Nat.add_zero, hval]
      cases side with
      | target => exact (Option.some.inj (ht.symm.trans he)).symm
      | source => exact (Option.some.inj (hs.symm.trans he)).symm
    · rw [count_tick hJ, if_neg fun h => hmi (by simpa using h)] at htold
      rw [record_ne _ _ fun h => absurd h hmi]
      exact hinv.told side m' i' e he htold
  · have hk' : count s (m', .waitForNotification .rcv i') = k + 1 := by
      rw [count_tick hJ, if_neg (by simp)] at hk
      exact hk
    have hpost : count s (m', .waitForNotification .rcv i') ≤ count s (i', .post .src m') := hinv.recv_le .src
    have hle : count s (i', .post .src m') ≤ count s (i', .serialize m') :=
      count_anti (by simp only [Instr.position]; omega)
    refine (hinv.remote m' i' k hk').trans (record_ne _ _ fun h => ?_).symm
    obtain ⟨rfl, rfl⟩ := Prod.mk.inj h
    simp only [view]
    omega

theorem Inv.iSendTagMessg (hinv : Inv D group calls s packet posted) (hat : At group s m (.post .src i))
    (hd : s.held (buffer .src m i) = some d) :
    Inv D group calls
      { s.tick m with
        net := s.net.iSendTagMessg (group.toGlobalRank m) .user (group.toGlobalRank i) (m.val : Int) d }
      packet posted := by
  have hJ := hat.steps
  have hpost : count s (m, .post .src i) = (s.progress m).run := count_of_le (Nat.le_of_eq hJ)
  have hwait : count s (m, .waitForNotification .src i) = (s.progress m).run := by
    apply count_of_le
    rw [hJ]; simp only [Instr.position]; omega
  have hser : count s (m, .serialize i) = (s.progress m).run + 1 := by
    apply count_of_lt
    rw [hJ]; simp only [Instr.position]; omega
  have hheld : (view s packet).held (.send (m, i)) = some d := hd
  have hc := hinv.consistent.iSendTagMessg .user hheld (hpost.trans hwait.symm)
    (hser.trans (congrArg (· + 1) hwait.symm))
  exact hinv.move_quiet hJ trivial hc (by simp)

theorem Inv.iRecvTagMessg (hinv : Inv D group calls s packet posted) (hat : At group s m (.post .rcv i))
    (hd : s.held (buffer .rcv m i) = some d) :
    Inv D group calls
      { s.tick m with
        net := s.net.iRecvTagMessg (group.toGlobalRank m) .user (group.toGlobalRank i) (i.val : Int) d }
      packet posted := by
  have hJ := hat.steps
  have hpost : count s (m, .post .rcv i) = (s.progress m).run := count_of_le (Nat.le_of_eq hJ)
  have hwait : count s (m, .waitForNotification .rcv i) = (s.progress m).run := by
    apply count_of_le
    rw [hJ]; simp only [Instr.position]; omega
  have hheld : (view s packet).held (.recv (i, m)) = some d := hd
  have hc := hinv.consistent.iRecvTagMessg .user hheld (hpost.trans hwait.symm)
  exact hinv.move_quiet hJ trivial hc (by simp)

/-- What a member receives from `i` is what `i` told it in this call. -/
theorem Inv.waitRecv (hinv : Inv D group calls s packet posted) {net : ExchangeNet}
    (hat : At group s m (.waitForNotification .rcv i)) (hd : s.held (buffer .rcv m i) = some d)
    (hN : s.net.waitForNotification d = some net) :
    Inv D group calls
      { s.tick m with
        net := net
        remote := Function.update s.remote (m, i) (net.deserialize d) } packet posted := by
  have hJ := hat.steps
  have hheld : (view s packet).held (.recv (i, m)) = some d := hd
  obtain ⟨hhere, -, hc⟩ := hinv.consistent.take hheld hN
  have hread : net.deserialize d = packet (i, m) (count s (m, .waitForNotification .rcv i)) := by
    obtain ⟨-, rfl⟩ := Net.waitForNotification_some hN
    exact hhere
  refine hinv.move hJ (by simp) (by simp) hc (hinv.inUse_same hJ trivial)
    hinv.described (fun _ _ _ _ => hinv.told_same hJ (by simp) (by simp)) (fun m' i' k hk => ?_) (by simp)
  rw [count_tick hJ] at hk
  by_cases hmi : (m', i') = (m, i)
  · obtain ⟨rfl, rfl⟩ := Prod.mk.inj hmi
    rw [if_pos rfl] at hk
    rw [Function.update_self, hread, Nat.succ.inj hk]
  · rw [if_neg fun h => hmi (by simpa using h)] at hk
    rw [Function.update_of_ne hmi]
    exact hinv.remote m' i' k hk

theorem Inv.waitSend (hinv : Inv D group calls s packet posted) {net : ExchangeNet}
    (hat : At group s m (.waitForNotification .src i)) (hd : s.held (buffer .src m i) = some d)
    (hN : s.net.waitForNotification d = some net) :
    Inv D group calls { s.tick m with net := net } packet posted := by
  have hJ := hat.steps
  have hheld : (view s packet).held (.send (m, i)) = some d := hd
  obtain ⟨-, -, hc⟩ := hinv.consistent.take hheld hN
  exact hinv.move_quiet hJ rfl hc (by simp)

/-! ## Data and acknowledgements -/

/-- A notification that comes in for a target stands for the data of this call. -/
theorem Inv.waitForBufferNotification (hinv : Inv D group calls s packet posted) {net : ExchangeNet}
    (hat : At group s m (.waitForBufferNotification side i)) (hd : s.held (.other ⟨side, m, i⟩) = some d)
    (hN : s.net.waitForNotification d = some net) :
    Inv D group calls { s.tick m with net := net } packet posted := by
  have hJ := hat.steps
  have hheld : (view s packet).held (.other ⟨side, m, i⟩) = some d := hd
  obtain ⟨hhere, -, hc⟩ := hinv.consistent.take hheld hN
  refine hinv.move_quiet hJ trivial hc fun i' h => ?_
  obtain ⟨rfl, rfl⟩ := Instr.waitForBufferNotification.inj h
  exact hhere

theorem Inv.notify (hinv : Inv D group calls s packet posted) (hat : At group s m (.notify i)) :
    ∃ posted', Inv D group calls { s.tick m with net := s.net.notify (s.remote (m, i)).2 } packet posted' := by
  have hJ := hat.steps
  have hnot : count s (m, .notify i) = (s.progress m).run := count_of_le (Nat.le_of_eq hJ)
  have hwait : count s (i, .waitForBufferNotification .source m) ≤ count s (m, .notify i) :=
    hinv.wait_le ⟨.source, i, m⟩
  obtain ⟨hrun, -, hle, hheld⟩ := hinv.partner (m := m) (i := i) .source
    (by rw [hJ]; simp only [Instr.position]; omega) (by omega)
  have hsent : count s (sending ⟨.source, i, m⟩) = count s (waiting (.other ⟨.source, i, m⟩)) :=
    hnot.trans (hrun.symm.trans (count_of_le hle).symm)
  have hheld : (view s packet).held (.other ⟨.source, i, m⟩) = some (s.remote (m, i)).2 := hheld
  have hc := hinv.consistent.post hheld hsent rfl
  exact ⟨_, hinv.move_quiet hJ trivial hc (by simp)⟩

/-- What `write` posts when the sizes agree. -/
theorem write_eq (N : ExchangeNet) {source target : BufferDescription} (h : source.size = target.size) :
    N.write source target =
      N.post target (if 0 < source.size then .user (.posted source target) else .bare) := by
  unfold ExchangeNet.write Passive.write
  rw [if_neg (by omega)]
  by_cases hpos : 0 < source.size
  · rw [if_pos hpos, if_pos hpos]
  · rw [if_neg hpos, if_neg hpos]

/-- What a member has entered a call with. -/
theorem Inv.entry (hinv : Inv D group calls s packet posted) {k : Nat} (h : k < count s (m, .enter)) :
    ∃ e, (s.supplied m)[k]? = some e :=
  ⟨_, List.getElem?_eq_getElem (by rw [hinv.entered m]; exact h)⟩

theorem Inv.write (hinv : Inv D group calls s packet posted) {localSource : BufferDescription}
    (hat : At group s m (.write i)) (hs : s.held (.other ⟨.source, m, i⟩) = some localSource) :
    ∃ posted', Inv D group calls { s.tick m with net := s.net.write localSource (s.remote (m, i)).1 } packet
      posted' := by
  have hJ := hat.steps
  have hwrite : count s (m, .write i) = (s.progress m).run := count_of_le (Nat.le_of_eq hJ)
  have hwait : count s (i, .waitForBufferNotification .target m) ≤ count s (m, .write i) :=
    hinv.wait_le ⟨.target, i, m⟩
  obtain ⟨hrun, -, hle, hheld⟩ := hinv.partner (m := m) (i := i) .target
    (by rw [hJ]; simp only [Instr.position]; omega) (by omega)
  have hsource : Describes group calls (s.progress i).run ⟨.source, m, i⟩ localSource :=
    hrun ▸ hinv.described _ _ hs
  have htarget : Describes group calls (s.progress i).run ⟨.target, i, m⟩ (s.remote (m, i)).1 :=
    hinv.described _ _ hheld
  have hssize : ((calls (s.progress i).run).source m i).size = localSource.size :=
    (congrArg Part.size hsource.part).symm
  have htsize : ((calls (s.progress i).run).target i m).size = (s.remote (m, i)).1.size :=
    (congrArg Part.size htarget.part).symm
  have hsize : localSource.size = (s.remote (m, i)).1.size :=
    hssize.symm.trans (((calls (s.progress i).run).agree m i).trans htsize)
  have hgood : Good group calls s ⟨.target, i, m⟩
      (if 0 < localSource.size then .user (.posted localSource (s.remote (m, i)).1) else .bare) := by
    split
    · exact ⟨hsource, htarget⟩
    · next hzero =>
      -- nothing to send: the target is complete as it is
      obtain ⟨e, he⟩ := hinv.entry (m := m) (k := (s.progress i).run) (by
        rw [hrun, count_of_lt (by rw [hJ]; simp only [Instr.position]; omega)]
        exact Nat.lt_succ_self _)
      exact ⟨e, he, Memory.read_of_size_zero (htsize.trans (by omega)) (hssize.trans (by omega))⟩
  have hsent : count s (sending ⟨.target, i, m⟩) = count s (waiting (.other ⟨.target, i, m⟩)) :=
    hwrite.trans (hrun.symm.trans (count_of_le hle).symm)
  have hheld : (view s packet).held (.other ⟨.target, i, m⟩) = some (s.remote (m, i)).1 := hheld
  have hc := hinv.consistent.post hheld hsent hgood
  rw [write_eq s.net hsize]
  exact ⟨_, hinv.move_quiet hJ trivial hc (by simp)⟩

/-! ## Entering and leaving -/

theorem owner_eq (p : Handle n) : (layout D group).owner p = group.toGlobalRank (opening p).1 := by
  cases p <;> rfl

theorem opening_member (p : Handle n) : (opening p).1 = (closing p).1 := by cases p <;> rfl

/-- A member that has given everything back has what else is taken. -/
theorem Inv.given_back (hinv : Inv D group calls s packet posted)
    (hnone : ∀ p, (opening p).1 = m → s.held p = none) :
    s.net.live (group.toGlobalRank m) = s.others (group.toGlobalRank m) ∧
      s.net.allocated (group.toGlobalRank m) = s.otherBlocks (group.toGlobalRank m) := by
  refine hinv.consistent.live_eq fun p hp => hnone p ?_
  rw [owner_eq] at hp
  exact group.inj _ _ hp

theorem Inv.none_at_enter (hinv : Inv D group calls s packet posted) (h0 : (s.progress m).steps = 0)
    (hp : (opening p).1 = m) : s.held p = none :=
  hinv.held_none (m := m) (J := (opening p).2) (by omega) (by rw [← hp])

theorem passed_at_leave (hJ : (s.progress m).steps = (Instr.leave : Instr n).position) (hI : I ≠ .leave) :
    count s (m, I) = (s.progress m).run + 1 :=
  count_of_lt (hJ ▸ Instr.position_lt_leave hI)

theorem Inv.none_at_leave (hinv : Inv D group calls s packet posted)
    (hJ : (s.progress m).steps = (Instr.leave : Instr n).position) (hp : (opening p).1 = m) : s.held p = none := by
  have hclosed : count s (closing p) = (s.progress m).run + 1 := by
    have hmem : (closing p).1 = m := (opening_member p).symm.trans hp
    have hne : (closing p).2 ≠ .leave := by cases p <;> simp [closing]
    rw [← hmem] at hJ ⊢
    exact passed_at_leave hJ hne
  have hopen := count_le_run s (opening p)
  rw [hp] at hopen
  cases hh : s.held p with
  | none => rfl
  | some d =>
    have := (hinv.inUse p).mp (by rw [hh]; rfl)
    omega

/-- The call a member is about to return from is complete. -/
theorem Inv.complete_at_leave (hinv : Inv D group calls s packet posted)
    (hJ : (s.progress m).steps = (Instr.leave : Instr n).position) :
    Complete calls s m (s.progress m).run (s.snapshot (group.toGlobalRank m)) := by
  have hpassed : ∀ {I : Instr n}, I ≠ .leave → (s.progress m).run < count s (m, I) := by
    intro I hI
    rw [passed_at_leave hJ hI]
    exact Nat.lt_succ_self _
  obtain ⟨e, he⟩ := hinv.entry (hpassed (by simp))
  obtain ⟨hlive, hblocks⟩ := hinv.given_back fun p hp => hinv.none_at_leave hJ hp
  obtain ⟨hbase, hbase'⟩ := hinv.base m e (by rw [hJ]; exact Nat.succ_pos _) he
  exact ⟨⟨e, he, hlive.trans hbase, hblocks.trans hbase'⟩, fun i => hinv.stored m i (hpassed (by simp))⟩

theorem Inv.enter (hinv : Inv D group calls s packet posted) (hat : At group s m .enter) :
    Inv D group calls
      { s.tick m with
        supplied := Function.update s.supplied m (s.supplied m ++ [s.snapshot (group.toGlobalRank m)]) } packet
      posted := by
  have hJ := hat.steps
  have h0 : (s.progress m).steps = 0 := hJ
  have hrun : ∀ m', (Progress.tick (length n) s.progress m m').run = (s.progress m').run := by
    intro m'
    rw [run_tick hJ, if_neg (by simp), Nat.add_zero]
  have hprefix : ∀ i, s.supplied i <+:
      Function.update s.supplied m (s.supplied m ++ [s.snapshot (group.toGlobalRank m)]) i := by
    intro i
    by_cases hi : i = m
    · subst hi; rw [Function.update_self]; exact List.prefix_append _ _
    · rw [Function.update_of_ne hi]
  have hsame : ∀ m' i', Stored group calls s m' i' → Stored group calls
      { s.tick m with
        supplied := Function.update s.supplied m (s.supplied m ++ [s.snapshot (group.toGlobalRank m)]) } m' i' :=
    fun m' i' h => h.congr hprefix (hrun m') rfl
  have hlen : (s.supplied m).length = (s.progress m).run :=
    (hinv.entered m).trans (count_of_le (Nat.le_of_eq hJ))
  have hentry : (Function.update s.supplied m (s.supplied m ++ [s.snapshot (group.toGlobalRank m)]) m)[
      (s.progress m).run]? = some (s.snapshot (group.toGlobalRank m)) := by
    rw [Function.update_self, ← hlen, List.getElem?_concat_length]
  refine { consistent := ?_, bound := Progress.tick_steps_lt hinv.bound,
           inUse := hinv.inUse_same hJ trivial, described := ?_,
           told := fun _ _ _ _ => hinv.told_same hJ (by simp) (by simp),
           remote := fun _ _ _ => hinv.remote_same hJ (by simp),
           entered := ?_, source := ?_, base := ?_, stored := ?_, left := ?_,
           complete := fun m' k r h => (hinv.complete m' k r h).mono hprefix }
  · have hview : view { s.tick m with
        supplied := Function.update s.supplied m (s.supplied m ++ [s.snapshot (group.toGlobalRank m)]) } packet =
        view s packet := view_tick hJ packet
    rw [hview]
    refine hinv.consistent.imp (fun q d _ _ op h => ?_) (fun q d _ _ h => ?_)
    · exact h.congr hprefix (hrun _) (hsame _ _)
    · exact h.congr (hsame _ _)
  · intro q d hd
    exact (hrun q.member).symm ▸ hinv.described q d hd
  · intro m'
    have hcount := count_tick hJ (m', .enter)
    by_cases hm : m' = m
    · subst hm
      rw [if_pos rfl, ← hinv.entered m'] at hcount
      refine Eq.trans ?_ hcount.symm
      simp
    · rw [if_neg fun h => hm (congrArg Prod.fst h), ← hinv.entered m'] at hcount
      refine Eq.trans ?_ hcount.symm
      simp [Function.update_of_ne hm]
  · intro m' i' h
    by_cases hm : m' = m
    · subst hm
      refine (hrun m').symm ▸ ⟨_, hentry, rfl⟩
    · have hsteps : 0 < (s.progress m').steps := by
        simp only [State.tick, Progress.tick_ne hm] at h
        exact h
      exact (hrun m').symm ▸ (hinv.source m' i' hsteps).mono hprefix
  · intro m' e h he
    by_cases hm : m' = m
    · subst hm
      obtain rfl : s.snapshot (group.toGlobalRank m') = e := by
        have he' := (hrun m') ▸ he
        exact Option.some.inj (hentry.symm.trans he')
      obtain ⟨hlive, hblocks⟩ := hinv.given_back fun p hp => hinv.none_at_enter h0 hp
      exact ⟨hlive.symm, hblocks.symm⟩
    · have hsteps : 0 < (s.progress m').steps := by
        simp only [State.tick, Progress.tick_ne hm] at h
        exact h
      apply hinv.base m' e hsteps
      have he' := (hrun m') ▸ he
      simp only [Function.update_of_ne hm] at he'
      exact he'
  · intro m' i' h
    refine hsame m' i' (hinv.stored m' i' ?_)
    have hcount := count_tick hJ (m', .waitForBufferNotification .target i')
    rw [if_neg (by simp), Nat.add_zero] at hcount
    have h' : (s.progress m').run < count (s.tick m) (m', .waitForBufferNotification .target i') := hrun m' ▸ h
    exact hcount ▸ h'
  · intro m'
    exact (hinv.left m').trans (hrun m').symm

theorem Inv.leave (hinv : Inv D group calls s packet posted) (hat : At group s m .leave) :
    Inv D group calls
      { s.tick m with
        returned := Function.update s.returned m (s.returned m ++ [s.snapshot (group.toGlobalRank m)]) } packet
      posted := by
  have hJ := hat.steps
  have hrun : ∀ m', m' ≠ m → (Progress.tick (length n) s.progress m m').run = (s.progress m').run := by
    intro m' hm
    rw [Progress.tick_ne hm]
  have hself : Progress.tick (length n) s.progress m m = ⟨(s.progress m).run + 1, 0⟩ := by
    rw [tick_self hJ, if_pos rfl]
  have hsteps : ∀ m', 0 < (Progress.tick (length n) s.progress m m').steps →
      m' ≠ m ∧ 0 < (s.progress m').steps := by
    intro m' h
    by_cases hm : m' = m
    · subst hm; rw [hself] at h; cases h
    · rw [Progress.tick_ne hm] at h
      exact ⟨hm, h⟩
  have hsame : ∀ m' i', m' ≠ m → Stored group calls s m' i' → Stored group calls
      { s.tick m with
        returned := Function.update s.returned m (s.returned m ++ [s.snapshot (group.toGlobalRank m)]) } m' i' :=
    fun m' i' hm h => h.congr (fun _ => List.prefix_refl _) (hrun m' hm) rfl
  -- nothing is on its way to `m` any more
  have hquiet : ∀ q : Local n, count s (sending q) = count s (waiting (.other q)) + 1 → q.member ≠ m := by
    rintro ⟨side, m', i'⟩ hq rfl
    have hle := hinv.sending_le side m' i'
    have hw : count s (waiting (.other ⟨side, m', i'⟩)) = (s.progress m').run + 1 := passed_at_leave hJ (by simp)
    omega
  refine { consistent := ?_, bound := Progress.tick_steps_lt hinv.bound,
           inUse := hinv.inUse_same hJ trivial, described := ?_,
           told := fun _ _ _ _ => hinv.told_same hJ (by simp) (by simp),
           remote := fun _ _ _ => hinv.remote_same hJ (by simp),
           entered := ?_, source := ?_, base := ?_, stored := ?_, left := ?_, complete := ?_ }
  · have hview : view { s.tick m with
        returned := Function.update s.returned m (s.returned m ++ [s.snapshot (group.toGlobalRank m)]) } packet =
        view s packet := view_tick hJ packet
    rw [hview]
    refine hinv.consistent.imp (fun q d _ hq op h => ?_) (fun q d _ hq h => ?_)
    · exact h.congr (fun _ => List.prefix_refl _) (hrun _ (hquiet q hq)) (hsame _ _ (hquiet q hq))
    · exact h.congr (hsame _ _ (hquiet q hq))
  · intro q d hd
    have hm : q.member ≠ m := by
      intro hm
      have hnone := hinv.none_at_leave hJ (p := .other q) hm
      have hd' : s.held (.other q) = some d := hd
      rw [hnone] at hd'
      cases hd'
    exact (hrun _ hm).symm ▸ hinv.described q d hd
  · intro m'
    have hcount := count_tick hJ (m', .enter)
    rw [if_neg (by simp)] at hcount
    exact (hinv.entered m').trans hcount.symm
  · intro m' i' h
    obtain ⟨hm, hpos⟩ := hsteps m' h
    exact (hrun m' hm).symm ▸ hinv.source m' i' hpos
  · intro m' e h he
    obtain ⟨hm, hpos⟩ := hsteps m' h
    exact hinv.base m' e hpos (hrun m' hm ▸ he)
  · intro m' i' h
    have hcount := count_tick hJ (m', .waitForBufferNotification .target i')
    rw [if_neg (by simp), Nat.add_zero] at hcount
    by_cases hm : m' = m
    · subst hm
      rw [passed_at_leave hJ (I := .waitForBufferNotification .target i') (by simp)] at hcount
      have h' : (Progress.tick (length n) s.progress m' m').run <
        count (s.tick m') (m', .waitForBufferNotification .target i') := h
      rw [hself, hcount] at h'
      exact absurd h' (Nat.lt_irrefl _)
    · have h' : (s.progress m').run < count (s.tick m) (m', .waitForBufferNotification .target i') :=
        hrun m' hm ▸ h
      exact hsame m' i' hm (hinv.stored m' i' (hcount ▸ h'))
  · intro m'
    by_cases hm : m' = m
    · subst hm
      simp only [State.tick, Function.update_self, hself, List.length_append, List.length_singleton, hinv.left]
    · simp only [State.tick, Function.update_of_ne hm, hrun m' hm, hinv.left]
  · intro m' k r hr
    by_cases hm : m' = m
    · subst hm
      simp only [Function.update_self] at hr
      have hlen := hinv.left m'
      by_cases hk : k < (s.returned m').length
      · rw [List.getElem?_append_left hk] at hr
        exact (hinv.complete m' k r hr).mono fun _ => List.prefix_refl _
      · rw [List.getElem?_append_right (by omega)] at hr
        have hk' : k - (s.returned m').length = 0 := by
          by_contra hne
          rw [List.getElem?_eq_none (by simp; omega)] at hr
          cases hr
        obtain rfl : k = (s.progress m').run := by omega
        rw [hk'] at hr
        obtain rfl : s.snapshot (group.toGlobalRank m') = r := by simpa using hr
        exact (hinv.complete_at_leave hJ).mono fun _ => List.prefix_refl _
    · simp only [Function.update_of_ne hm] at hr
      exact (hinv.complete m' k r hr).mono fun _ => List.prefix_refl _

/-! ## What happens while no member goes on -/

/-- The memory of a member inside a call is left alone, but for the data it waits for. -/
theorem Inv.same (hinv : Inv D group calls s packet posted) {net : ExchangeNet} {memory : Rank → Memory}
    {others : Rank → Finset Slot} {otherBlocks : Rank → Finset Block}
    (hc : Consistent (layout D group)
      (Good group calls { s with net := net, memory := memory, others := others, otherBlocks := otherBlocks })
      (Here group calls { s with net := net, memory := memory, others := others, otherBlocks := otherBlocks })
      { view s packet with base := others, blocks := otherBlocks } net posted')
    (hsource : ∀ m i, 0 < (s.progress m).steps →
      (memory (group.toGlobalRank m)).read ((calls (s.progress m).run).source m i) =
        (s.memory (group.toGlobalRank m)).read ((calls (s.progress m).run).source m i))
    (hbase : ∀ m, 0 < (s.progress m).steps → others (group.toGlobalRank m) = s.others (group.toGlobalRank m) ∧
      otherBlocks (group.toGlobalRank m) = s.otherBlocks (group.toGlobalRank m))
    (hstored : ∀ m i, (s.progress m).run < count s (m, .waitForBufferNotification .target i) →
      (memory (group.toGlobalRank m)).read ((calls (s.progress m).run).target m i) =
        (s.memory (group.toGlobalRank m)).read ((calls (s.progress m).run).target m i)) :
    Inv D group calls { s with net := net, memory := memory, others := others, otherBlocks := otherBlocks } packet
      posted' := by
  refine { consistent := hc, bound := hinv.bound, inUse := hinv.inUse, described := hinv.described,
           told := hinv.told, remote := hinv.remote, entered := hinv.entered, source := fun m i h => ?_,
           base := fun m e h he => ?_, stored := fun m i h => ?_, left := hinv.left,
           complete := fun m k r h => (hinv.complete m k r h).mono fun _ => List.prefix_refl _ }
  · simp only [hsource m i h]
    exact hinv.source m i h
  · obtain ⟨h1, h2⟩ := hbase m h
    obtain ⟨h3, h4⟩ := hinv.base m e h he
    exact ⟨h1.trans h3, h2.trans h4⟩
  · exact (hinv.stored m i h).congr (fun _ => List.prefix_refl _) rfl (hstored m i h)

/-- The passive threads, the threads inside `iSendRecvComm`, the network. -/
theorem Inv.net (hinv : Inv D group calls s packet posted) {net : ExchangeNet}
    (hN : Net.Step .passive s.net net) : ∃ posted', Inv D group calls { s with net := net } packet posted' := by
  have hG : ∀ q b v, ¬ Good group calls s q (.packet b v) := by
    rintro ⟨side, m, i⟩ b v h
    cases side with
    | source => exact nomatch (show (Op.packet b v : Op Descriptions Data) = .bare from h)
    | target => exact h
  have hH : ∀ q, Good group calls s q .bare → Here group calls s q := by
    rintro ⟨side, m, i⟩ h
    cases side with
    | source => trivial
    | target => exact h
  obtain ⟨posted', hc⟩ := hinv.consistent.step hG hH hN
  exact ⟨posted', hinv.same hc (fun _ _ _ => rfl) (fun _ _ => ⟨rfl, rfl⟩) fun _ _ _ => rfl⟩

/-- The data of a user on its way: between which members, and that they are in the same call. -/
theorem Inv.of_user (hinv : Inv D group calls s packet posted) {a : Rank × Slot}
    {before after : List (Op Descriptions Data)} {x : Data} (hf : s.net.flight a = before ++ .user x :: after) :
    ∃ m i d, s.held (.other ⟨.target, m, i⟩) = some d ∧ d.address = a ∧
      count s (i, .write m) = count s (m, .waitForBufferNotification .target i) + 1 ∧
      Good group calls s ⟨.target, m, i⟩ (.user x) := by
  obtain ⟨⟨side, m, i⟩, d, hd, ha, hs, hg⟩ := hinv.consistent.user_op hf
  cases side with
  | source => exact nomatch (show (Op.user x : Op Descriptions Data) = .bare from hg)
  | target => exact ⟨m, i, d, hd, ha, hs, hg⟩

/-- The source that is read is as its member supplied it in this call. -/
theorem Inv.fetch (hinv : Inv D group calls s packet posted) {a : Rank × Slot} {source target : BufferDescription}
    {before after : List (Op Descriptions Data)}
    (hf : s.net.flight a = before ++ .user (.posted source target) :: after) :
    Inv D group calls
      { s with
        net := { s.net with
          flight := Function.update s.net.flight a
            (before ++ .user (.bytes target ((s.memory source.rank).read (part source))) :: after) } }
      packet posted := by
  obtain ⟨m, i, d, hd, rfl, hway, hsource, htarget⟩ := hinv.of_user hf
  obtain ⟨hrun, -, -, hwrite, -⟩ := hinv.under_way hway
  have hdata : Supplied calls s (s.progress m).run i m ((s.memory source.rank).read (part source)) := by
    have hsup := hinv.source i m (by omega)
    rw [hrun] at hsup
    rw [hsource.rank, hsource.part]
    exact hsup
  have hheld : (view s packet).held (.other ⟨.target, m, i⟩) = some d := hd
  have hgood : Good group calls s ⟨.target, m, i⟩
      (.user (.bytes target ((s.memory source.rank).read (part source)))) := ⟨htarget, hdata⟩
  have hsame : ∀ q e, q ≠ ⟨.target, m, i⟩ → (view s packet).held (.other q) = some e →
      (view s packet).sent q = (view s packet).taken (.other q) + 1 →
      (∀ op, Good group calls s q op → Good group calls s q op) ∧ (Here group calls s q → Here group calls s q) :=
    fun _ _ _ _ _ => ⟨fun _ h => h, fun h => h⟩
  have hc := hinv.consistent.evolve hheld hf hsame hgood
  exact hinv.same hc (fun _ _ _ => rfl) (fun _ _ => ⟨rfl, rfl⟩) fun _ _ _ => rfl

/-- The data of `i` reaches member `m`, and no other part of what the members use. -/
theorem Inv.store (hinv : Inv D group calls s packet posted) {a : Rank × Slot} {target : BufferDescription}
    {data : List UInt8} {before after : List (Op Descriptions Data)}
    (hf : s.net.flight a = before ++ .user (.bytes target data) :: after) :
    Inv D group calls
      { s with
        memory := Function.update s.memory target.rank
          ((s.memory target.rank).write ⟨target.segmentId, target.offset, data.length⟩ data)
        net := { s.net with flight := Function.update s.net.flight a (before ++ .bare :: after) } } packet posted := by
  obtain ⟨m, i, d, hd, rfl, hway, htarget, hdata⟩ := hinv.of_user hf
  obtain ⟨-, -, hle, -, -⟩ := hinv.under_way hway
  have hlen : data.length = ((calls (s.progress m).run).target m i).size := by
    obtain ⟨e, -, rfl⟩ := hdata
    rw [Memory.read_length]
    exact (calls (s.progress m).run).agree i m
  have hpart : (⟨target.segmentId, target.offset, data.length⟩ : Part) = (calls (s.progress m).run).target m i := by
    have htp : part target = (calls (s.progress m).run).target m i := htarget.part
    rw [hlen, ← htp]
    rfl
  have hrank : target.rank = group.toGlobalRank m := htarget.rank
  rw [hpart, hrank]
  set memory := Function.update s.memory (group.toGlobalRank m)
    ((s.memory (group.toGlobalRank m)).write ((calls (s.progress m).run).target m i) data) with hmemory
  set net : ExchangeNet := { s.net with
    flight := Function.update s.net.flight d.address (before ++ .bare :: after) } with hnet
  -- parts of other members, and parts with no byte in common
  have hread : ∀ m' (Q : Part), (m' = m → ((calls (s.progress m).run).target m i).Apart Q) →
      (memory (group.toGlobalRank m')).read Q = (s.memory (group.toGlobalRank m')).read Q := by
    intro m' Q hQ
    rw [hmemory]
    by_cases hm : m' = m
    · subst hm
      rw [Function.update_self]
      exact Memory.read_write_apart (hQ rfl)
    · rw [Function.update_of_ne fun h => hm (group.inj _ _ h)]
  have htargets : ∀ m' i', (m', i') ≠ (m, i) → (m' = m →
      ((calls (s.progress m).run).target m i).Apart ((calls (s.progress m').run).target m' i')) := by
    rintro m' i' hne rfl
    apply (calls _).targets m' i i'
    rintro rfl
    exact hne rfl
  have hnew : Stored group calls { s with memory := memory, net := net } m i := by
    unfold Stored
    simp only [hmemory, Function.update_self, Memory.read_write hlen]
    exact hdata
  have hstored : ∀ m' i', Stored group calls s m' i' →
      Stored group calls { s with memory := memory, net := net } m' i' := by
    intro m' i' h
    by_cases hmi : (m', i') = (m, i)
    · obtain ⟨rfl, rfl⟩ := Prod.mk.inj hmi
      exact hnew
    · exact h.congr (fun _ => List.prefix_refl _) rfl (hread m' _ (htargets m' i' hmi))
  have hheld : (view s packet).held (.other ⟨.target, m, i⟩) = some d := hd
  have hgood : Good group calls { s with memory := memory, net := net } ⟨.target, m, i⟩ .bare := hnew
  have hsame : ∀ q e, q ≠ ⟨.target, m, i⟩ → (view s packet).held (.other q) = some e →
      (view s packet).sent q = (view s packet).taken (.other q) + 1 →
      (∀ op, Good group calls s q op → Good group calls { s with memory := memory, net := net } q op) ∧
        (Here group calls s q → Here group calls { s with memory := memory, net := net } q) :=
    fun q e _ _ _ => ⟨fun op h => h.congr (fun _ => List.prefix_refl _) rfl (hstored _ _),
      fun h => h.congr (hstored _ _)⟩
  have hc := hinv.consistent.evolve hheld hf hsame hgood
  refine hinv.same hc (fun m' i' _ => hread m' _ ?_) (fun _ _ => ⟨rfl, rfl⟩) fun m' i' h => hread m' _ ?_
  · rintro rfl
    exact ((calls _).sources m' i' i).symm
  · refine htargets m' i' fun hmi => ?_
    obtain ⟨rfl, rfl⟩ := Prod.mk.inj hmi
    rw [count_of_le hle] at h
    exact absurd h (Nat.lt_irrefl _)

/-- A rank outside its calls does as it likes: nothing is on its way to or from its memory. -/
theorem Inv.outside (hinv : Inv D group calls s packet posted) {r : Rank} (hout : Outside group s r)
    {net : ExchangeNet} {memory : Rank → Memory} {others : Rank → Finset Slot}
    {otherBlocks : Rank → Finset Block}
    (hc : Consistent (layout D group) (Good group calls s) (Here group calls s)
      { view s packet with base := others, blocks := otherBlocks } net posted)
    (hmem : ∀ r', r' ≠ r → memory r' = s.memory r') (hothers : ∀ r', r' ≠ r → others r' = s.others r')
    (hblocks : ∀ r', r' ≠ r → otherBlocks r' = s.otherBlocks r') :
    Inv D group calls { s with net := net, memory := memory, others := others, otherBlocks := otherBlocks } packet
      posted := by
  have hne : ∀ m, 0 < (s.progress m).steps → group.toGlobalRank m ≠ r := by
    intro m hm h
    rw [hout m h] at hm
    cases hm
  have hstored : ∀ q : Local n, count s (sending q) = count s (waiting (.other q)) + 1 →
      q.side = .target → Stored group calls s q.member q.i → Stored group calls
        { s with net := net, memory := memory, others := others, otherBlocks := otherBlocks } q.member q.i := by
    rintro ⟨side, m, i⟩ hway rfl h
    have hin := (hinv.under_way (m := m) (i := i) hway).2.1
    refine h.congr (fun _ => List.prefix_refl _) rfl ?_
    simp only [hmem _ (hne m (by omega))]
  refine hinv.same (hc.imp (fun q d _ hway op h => ?_) fun q d _ hway h => ?_) (fun m i hm => ?_)
    (fun m hm => ⟨hothers _ (hne m hm), hblocks _ (hne m hm)⟩) fun m i h => ?_
  · obtain ⟨side, m, i⟩ := q
    cases side with
    | source => exact h
    | target => exact h.congr (fun _ => List.prefix_refl _) rfl (hstored _ hway rfl)
  · obtain ⟨side, m, i⟩ := q
    cases side with
    | source => trivial
    | target => exact hstored _ hway rfl h
  · rw [hmem _ (hne m hm)]
  · rw [hmem _ (hne m (Nat.zero_lt_of_lt (lt_of_run_lt h)))]

/-! ## Every step -/

theorem Inv.step (hinv : Inv D group calls s packet posted) (hs : Step D group calls s s') :
    ∃ packet' posted', Inv D group calls s' packet' posted' := by
  cases hs with
  | enter m hat => exact ⟨packet, posted, hinv.enter hat⟩
  | acquire_notification m i side d hat hd => exact ⟨packet, posted, hinv.acquire_notification hat hd⟩
  | newBuffer m i role d hat hd => exact ⟨packet, posted, hinv.newBuffer hat hd⟩
  | serialize m i d localTarget localSource hat hd ht hs =>
    obtain ⟨packet', h⟩ := hinv.serialize hat hd ht hs
    exact ⟨packet', posted, h⟩
  | iSendTagMessg m i d hat hd => exact ⟨packet, posted, hinv.iSendTagMessg hat hd⟩
  | iRecvTagMessg m i d hat hd => exact ⟨packet, posted, hinv.iRecvTagMessg hat hd⟩
  | waitRecv m i d net hat hd hN => exact ⟨packet, posted, hinv.waitRecv hat hd hN⟩
  | waitSend m i d net hat hd hN => exact ⟨packet, posted, hinv.waitSend hat hd hN⟩
  | deleteBuffer m i role d hat hd => exact ⟨packet, posted, hinv.deleteBuffer hat hd⟩
  | write m i localSource hat hs =>
    obtain ⟨posted', h⟩ := hinv.write hat hs
    exact ⟨packet, posted', h⟩
  | waitForBufferNotification m i side d net hat hd hN =>
    exact ⟨packet, posted, hinv.waitForBufferNotification hat hd hN⟩
  | notify m i hat =>
    obtain ⟨posted', h⟩ := hinv.notify hat
    exact ⟨packet, posted', h⟩
  | release_notification m i side d hat hd => exact ⟨packet, posted, hinv.release_notification hat hd⟩
  | leave m hat hflush => exact ⟨packet, posted, hinv.leave hat⟩
  | net net hN =>
    obtain ⟨posted', h⟩ := hinv.net hN
    exact ⟨packet, posted', h⟩
  | fetch a source target before after hf => exact ⟨packet, posted, hinv.fetch hf⟩
  | store a target data before after hf => exact ⟨packet, posted, hinv.store hf⟩
  | compute r memory hout =>
    exact ⟨packet, posted, hinv.outside hout hinv.consistent (fun _ h => Function.update_of_ne h ..)
      (fun _ _ => rfl) fun _ _ => rfl⟩
  | take r x hout hx =>
    have hc := hinv.consistent
    exact ⟨packet, posted, hinv.outside hout (hc.rebase (hc.slots.base_insert hx) hc.blks) (fun _ _ => rfl)
      (fun _ h => Function.update_of_ne h ..) fun _ _ => rfl⟩
  | allocate r b hout hb =>
    have hc := hinv.consistent
    exact ⟨packet, posted, hinv.outside hout (hc.rebase hc.slots (hc.blks.base_insert hb)) (fun _ _ => rfl)
      (fun _ _ => rfl) fun _ h => Function.update_of_ne h ..⟩
  | giveBack r x hout hx =>
    have hc := hinv.consistent
    exact ⟨packet, posted, hinv.outside hout (hc.rebase (hc.slots.base_erase hx) hc.blks) (fun _ _ => rfl)
      (fun _ h => Function.update_of_ne h ..) fun _ _ => rfl⟩
  | deallocate r b hout hb =>
    have hc := hinv.consistent
    exact ⟨packet, posted, hinv.outside hout (hc.rebase hc.slots (hc.blks.base_erase hb)) (fun _ _ => rfl)
      (fun _ _ => rfl) fun _ h => Function.update_of_ne h ..⟩

end GaspiCxx.Collectives.Exchange
