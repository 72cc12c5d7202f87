import GaspiCxx.Passive.Messaging.Invariant

/-!
# The steps of a call

A call of `sendMessg` that has been announced only touches the buffer it holds or
takes, until it writes to the requested one (`Goes`). So no other call sees it go
on, and the hand-over of the target sees what it saw before.
-/

namespace GaspiCxx.Passive.Messaging

open Runs RecvMessg

/-- Call `k` goes on to `pc`. -/
structure Goes (S : State) (k : Nat) (c : Call) (pc : SendPc) (T : State) : Prop where
  call : S.calls[k]? = some c
  ranks : ∀ q, ∃ N, T.ranks q = { S.ranks q with requested := N }
  date : T.date = S.date
  calls : T.calls = S.calls
  pc : T.pc = Function.update S.pc k pc
  wire : T.wire = S.wire
  memory : ∀ q o a, o ≠ some k → S.block q o = some a → (T.segment q).memory a = (S.segment q).memory a
  notified : ∀ q a, S.block q (some k) ≠ some a → T.block q (some k) ≠ some a →
    (T.segment q).notified a = (S.segment q).notified a
  freed : ∀ q a, S.block q (some k) = some a → T.block q (some k) ≠ some a → (T.segment q).notified a = false
  taken : ∀ q a, T.block q (some k) = some a → S.block q (some k) ≠ some a →
    (S.segment q).notified a = false ∧ (T.segment q).notified a = false

namespace Goes

variable {D : Rank → List Packet} {R : Rank → List (List UInt8 × Int)} {V V' : Service} {S T : State} {q : Rank}
  {p : Packet} {k j : Nat} {c : Call} {pc : SendPc} {a : Address}

theorem pc_self (hg : Goes S k c pc T) : T.pc k = pc := by
  rw [hg.pc, Function.update_self]

theorem pc_of_ne (hg : Goes S k c pc T) (hj : j ≠ k) : T.pc j = S.pc j := by
  rw [hg.pc, Function.update_of_ne hj]

theorem of (hg : Goes S k c pc T) {c' : Call} : T.Of p c' ↔ S.Of p c' := by
  constructor
  · exact fun h => { h with call := hg.calls ▸ h.call }
  · exact fun h => { h with call := hg.calls.symm ▸ h.call }

theorem passive (hg : Goes S k c pc T) (q : Rank) : (T.ranks q).passive = (S.ranks q).passive := by
  obtain ⟨N, hN⟩ := hg.ranks q
  rw [hN]

theorem block_of_ne (hg : Goes S k c pc T) (q : Rank) {o : Option Nat} (ho : o ≠ some k) :
    T.block q o = S.block q o := by
  cases o with
  | none =>
    obtain ⟨N, hN⟩ := hg.ranks q
    unfold State.block
    rw [hN]
    rfl
  | some j =>
    unfold State.block
    dsimp only
    rw [hg.calls, hg.pc_of_ne fun h => ho (congrArg some h)]

theorem block_self (hg : Goes S k c pc T) : T.block c.sender (some k) = pc.block := by
  rw [State.block_call (hg.calls ▸ hg.call), hg.pc_self]

theorem block_elsewhere (hg : Goes S k c pc T) (hq : q ≠ c.sender) :
    S.block q (some k) = none ∧ T.block q (some k) = none := by
  have hnone : ∀ U : State, U.calls[k]? = some c → U.block q (some k) = none := by
    intro U hU
    unfold State.block
    dsimp only
    rw [hU]
    exact if_neg (Ne.symm hq)
  exact ⟨hnone S hg.call, hnone T (hg.calls ▸ hg.call)⟩

theorem block_eq (hg : Goes S k c pc T) : T.block c.sender = Function.update (S.block c.sender) (some k) pc.block := by
  funext o
  by_cases ho : o = some k
  · rw [ho, Function.update_self, hg.block_self]
  · rw [Function.update_of_ne ho, hg.block_of_ne c.sender ho]

theorem block_eq_of_ne (hg : Goes S k c pc T) (hq : q ≠ c.sender) : T.block q = S.block q := by
  funext o
  by_cases ho : o = some k
  · obtain ⟨hS, hT⟩ := hg.block_elsewhere hq
    rw [ho, hS, hT]
  · exact hg.block_of_ne q ho

/-- The announcements stay as they are. -/
theorem posted (hg : Goes S k c pc T) (h : Posted D S) (hoff : ∀ p ∈ S.wire, p.call ≠ k)
    (hann : pc.announced = (S.pc k).announced) : Posted D T where
  wire p hp := by
    rw [hg.wire] at hp
    obtain ⟨c', hc', hpc⟩ := h.wire p hp
    exact ⟨c', hg.of.mpr hc', by rw [hg.pc_of_ne (hoff p hp)]; exact hpc⟩
  received q p hp := by
    obtain ⟨hq, ⟨c', hc'⟩, hp'⟩ := h.received q p hp
    refine ⟨hq, ⟨c', hg.of.mpr hc'⟩, ?_⟩
    by_cases hk : p.call = k
    · rw [hk, hg.pc_self, hann, ← hk]; exact hp'
    · rw [hg.pc_of_ne hk]; exact hp'
  once q := by rw [hg.wire]; exact h.once q
  kept j c' hc' hj' := by
    rw [hg.calls] at hc'
    rw [hg.wire]
    by_cases hj : j = k
    · rw [hj] at hc' hj' ⊢
      rw [hg.pc_self, hann] at hj'
      exact h.kept k c' hc' hj'
    · rw [hg.pc_of_ne hj] at hj'
      exact h.kept j c' hc' hj'

theorem hand (hg : Goes S k c pc T) (h : Inv D R V S) (hcoming : ∀ q, coming (V' q) = coming (V q)) (q : Rank) :
    ∃ N n i, RecvMessg.Inv ((D q).map Packet.message) (R q) n i { T.ranks q with requested := N } ∧
      Sees V' T q N := by
  refine h.hand_congr q (hg.ranks q) (fun b hb => hg.memory q none b (by simp) hb) (hcoming q) ?_
  refine notified_congr (k := k) (fun j hj => hg.block_of_ne q (by simpa using hj)) (hg.notified q) (hg.freed q) ?_
  exact fun a ha ha' => (hg.taken q a ha ha').1

/-- What is notified is a temporary buffer that the call waits for. -/
theorem notified_of (hg : Goes S k c pc T) (h : Inv D R V S)
    (hV : ∀ q p d, V q = some (p, .told d) → p.call ≠ k → V' q = some (p, .told d))
    (hk : ∀ a, pc.block = some a → (T.segment c.sender).notified a = true → False) :
    ∀ j c' a, T.calls[j]? = some c' → (T.pc j).block = some a → (T.segment c'.sender).notified a = true →
      ∃ p d, V' c'.targetRank = some (p, .told d) ∧ p.call = j ∧
        T.pc j = .waitForNotification p.remoteInfoBufferDesc := by
  intro j c' a hc' hblock hnot
  rw [hg.calls] at hc'
  by_cases hj : j = k
  · subst hj
    obtain rfl := Option.some.inj (hc'.symm.trans hg.call)
    rw [hg.pc_self] at hblock
    exact (hk a hblock hnot).elim
  · rw [hg.pc_of_ne hj] at hblock ⊢
    have hold : S.block c'.sender (some j) = some a := (State.block_call hc').trans hblock
    have hkept : (S.segment c'.sender).notified a = true := by
      by_cases hkS : S.block c'.sender (some k) = some a
      · exact absurd rfl ((h.owns _).ne hold hkS (by simpa using hj))
      · by_cases hkT : T.block c'.sender (some k) = some a
        · rw [(hg.taken _ a hkT hkS).2] at hnot; cases hnot
        · rw [← hg.notified _ a hkS hkT]; exact hnot
    obtain ⟨p, d, hp, rfl, hpc⟩ := h.notified j c' a hc' hblock hkept
    exact ⟨p, d, hV _ p d hp hj, rfl, hpc⟩

/-- Other calls keep their bytes. -/
theorem copied (hg : Goes S k c pc T) (h : Inv D R V S)
    (hk : ∀ d s, pc = .write d s → ((T.segment c.sender).memory s).take c.pData.length = c.pData) :
    ∀ j c' d s, T.calls[j]? = some c' → T.pc j = .write d s →
      ((T.segment c'.sender).memory s).take c'.pData.length = c'.pData := by
  intro j c' d s hc' hpc
  rw [hg.calls] at hc'
  by_cases hj : j = k
  · subst hj
    obtain rfl := Option.some.inj (hc'.symm.trans hg.call)
    rw [hg.pc_self] at hpc
    exact hk d s hpc
  · rw [hg.pc_of_ne hj] at hpc
    have hblock : S.block c'.sender (some j) = some s := by
      rw [State.block_call hc', hpc]; rfl
    rw [hg.memory c'.sender (some j) s (by simpa using hj) hblock]
    exact h.copied j c' d s hc' hpc

/-- A description that has arrived for another call is still there. -/
theorem told (hg : Goes S k c pc T) (h : Inv D R V S) {d : BufferDescription} (hV : V q = some (p, .told d))
    (hk : p.call ≠ k) : ∃ rest,
      (T.segment p.remoteInfoBufferDesc.rank).memory p.remoteInfoBufferDesc.offset = d.serialize ++ rest := by
  have hblock := h.temp_waiting hV (.inr (.inr ⟨d, rfl⟩))
  obtain ⟨rest, hrest⟩ := h.told q p d hV
  exact ⟨rest, (hg.memory _ (some p.call) _ (by simpa using hk) hblock).trans hrest⟩

/-- The answers to other calls are where they were. -/
structure Elsewhere (V : Service) (k : Nat) (V' : Service) : Prop where
  coming : ∀ q, coming (V' q) = coming (V q)
  others : ∀ q p ph, p.call ≠ k → (V' q = some (p, ph) ↔ V q = some (p, ph))
  inHand : ∀ q p, V q = some (p, .inHand) → p.call ≠ k
  inHand' : ∀ q p, V' q = some (p, .inHand) → p.call ≠ k

/-- What remains to be shown of a step of call `k`. -/
theorem inv (hg : Goes S k c pc T) (h : Inv D R V S) (hV : Elsewhere V k V')
    (hoff : ∀ p ∈ S.wire, p.call ≠ k) (hann : pc.announced = (S.pc k).announced) (htemp : ∀ d, pc ≠ .sendPassive d)
    (howns : ∀ r, Owns (T.segment r).allocated (T.block r))
    (hserved : ∀ q p ph, V' q = some (p, ph) → p.call = k → p ∈ D q ∧ ph.Agrees p.remoteInfoBufferDesc pc ∧
      ∀ d, ph.buffer = some d → d.rank = q ∧ d.size = p.message.bytes.length ∧ d.Fits)
    (hserving : pc.served = true → ∃ p ph, V' c.targetRank = some (p, ph) ∧ p.call = k)
    (htold : ∀ q p d, V' q = some (p, .told d) → p.call = k → ∃ rest,
      (T.segment p.remoteInfoBufferDesc.rank).memory p.remoteInfoBufferDesc.offset = d.serialize ++ rest)
    (hcopied : ∀ d s, pc = .write d s → ((T.segment c.sender).memory s).take c.pData.length = c.pData)
    (hnotified : ∀ a, pc.block = some a → (T.segment c.sender).notified a = true → False)
    (hflights : ∀ r, ∀ op ∈ (T.segment r).inFlight, Flight V' r op)
    (hsingle : ∀ r, ((T.segment r).inFlight.map Prod.fst).Nodup) (hthrew : pc ≠ .threw) : Inv D R V' T where
  posted := hg.posted h.posted hoff hann
  hand := hg.hand h hV.coming
  owns := howns
  served q p ph hp := by
    by_cases hk : p.call = k
    · obtain ⟨hD, hagrees, hbuffer⟩ := hserved q p ph hp hk
      exact ⟨hD, by rw [hk, hg.pc_self]; exact hagrees, hbuffer⟩
    · rw [hg.pc_of_ne hk]
      exact h.served q p ph ((hV.others q p ph hk).mp hp)
  serving j c' hc' hs := by
    rw [hg.calls] at hc'
    rw [hg.wire]
    by_cases hj : j = k
    · subst hj
      obtain rfl := Option.some.inj (hc'.symm.trans hg.call)
      rw [hg.pc_self] at hs
      exact .inr (hserving hs)
    · rw [hg.pc_of_ne hj] at hs
      obtain hw | ⟨p, ph, hp, rfl⟩ := h.serving j c' hc' hs
      · exact .inl hw
      · exact .inr ⟨p, ph, (hV.others _ p ph hj).mpr hp, rfl⟩
  request q m hm := by
    rw [hg.passive] at hm
    obtain ⟨p, hp, hdate, hmsg⟩ := h.request q m hm
    exact ⟨p, (hV.others q p _ (hV.inHand q p hp)).mpr hp, by rw [hg.date]; exact hdate, hmsg⟩
  inHand q p hp := by
    rw [hg.passive]
    exact h.inHand q p ((hV.others q p _ (hV.inHand' q p hp)).mp hp)
  told q p d hp := by
    by_cases hk : p.call = k
    · exact htold q p d hp hk
    · exact hg.told h ((hV.others q p _ hk).mp hp) hk
  copied := hg.copied h hcopied
  notified := hg.notified_of h (fun q p d hp hk => (hV.others q p _ hk).mpr hp) hnotified
  flights := hflights
  single := hsingle
  small := by rw [hg.calls]; exact h.small
  temp j c' d hc' hpc := by
    rw [hg.calls] at hc'
    by_cases hj : j = k
    · subst hj
      rw [hg.pc_self] at hpc
      exact absurd hpc (htemp d)
    · rw [hg.pc_of_ne hj] at hpc
      exact h.temp j c' d hc' hpc
  threw j := by
    by_cases hj : j = k
    · rw [hj, hg.pc_self]; exact hthrew
    · rw [hg.pc_of_ne hj]; exact h.threw j

end Goes

section

variable {D : Rank → List Packet} {R : Rank → List (List UInt8 × Int)} {V V' : Service} {S T : State} {q : Rank}
  {p : Packet} {k j : Nat} {c : Call} {pc : SendPc} {a s : Address} {d target : BufferDescription} {N : Requested}
  {ph ph' : Phase}

/-- The call changes its own segment. -/
theorem goes_of (hc : S.calls[k]? = some c)
    (hmem : ∀ o a, o ≠ some k → S.block c.sender o = some a → N.memory a = (S.segment c.sender).memory a)
    (hnot : ∀ a, (S.pc k).block ≠ some a → pc.block ≠ some a → N.notified a = (S.segment c.sender).notified a)
    (hfreed : ∀ a, (S.pc k).block = some a → pc.block ≠ some a → N.notified a = false)
    (htaken : ∀ a, pc.block = some a → (S.pc k).block ≠ some a →
      (S.segment c.sender).notified a = false ∧ N.notified a = false) :
    Goes S k c pc ((S.setSegment c.sender N).setPc k pc) := by
  have hself : ((S.setSegment c.sender N).setPc k pc).segment c.sender = N := S.segment_setSegment c.sender N
  have hother : ∀ q, q ≠ c.sender → ((S.setSegment c.sender N).setPc k pc).segment q = S.segment q :=
    fun q hq => State.segment_setSegment_of_ne hq
  have hblock : ((S.setSegment c.sender N).setPc k pc).block c.sender (some k) = pc.block :=
    (State.block_call (S := (S.setSegment c.sender N).setPc k pc) hc).trans
      (congrArg SendPc.block (Function.update_self ..))
  have hold : S.block c.sender (some k) = (S.pc k).block := State.block_call hc
  have hnone : ∀ q, q ≠ c.sender → S.block q (some k) = none := by
    intro q hq
    unfold State.block
    dsimp only
    rw [hc]
    exact if_neg (Ne.symm hq)
  have hnone' : ∀ q, q ≠ c.sender → ((S.setSegment c.sender N).setPc k pc).block q (some k) = none := by
    intro q hq
    rw [State.block_setPc_of_ne (S := S.setSegment c.sender N) hc hq, State.block_setSegment]
    exact hnone q hq
  refine
    { call := hc
      ranks := S.ranks_setSegment _ _
      date := rfl
      calls := rfl
      pc := rfl
      wire := rfl
      memory := fun q o a ho ha => ?_
      notified := fun q a ha ha' => ?_
      freed := fun q a ha ha' => ?_
      taken := fun q a ha ha' => ?_ }
  · by_cases hq : q = c.sender
    · subst hq
      rw [hself]
      exact hmem o a ho ha
    · rw [hother q hq]
  · by_cases hq : q = c.sender
    · subst hq
      rw [hself]
      exact hnot a (hold ▸ ha) (hblock ▸ ha')
    · rw [hother q hq]
  · by_cases hq : q = c.sender
    · subst hq
      rw [hself]
      exact hfreed a (hold ▸ ha) (hblock ▸ ha')
    · rw [hnone q hq] at ha; cases ha
  · by_cases hq : q = c.sender
    · subst hq
      rw [hself]
      exact htaken a (hblock ▸ ha) (hold ▸ ha')
    · rw [hnone' q hq] at ha; cases ha

/-- The call keeps its buffer, and some segment its memory and notifications. -/
theorem goes_same {r : Rank} (hc : S.calls[k]? = some c) (hmem : N.memory = (S.segment r).memory)
    (hnot : N.notified = (S.segment r).notified) (hpc : pc.block = (S.pc k).block) :
    Goes S k c pc ((S.setSegment r N).setPc k pc) := by
  have hblock : ((S.setSegment r N).setPc k pc).block = S.block := by
    funext q
    rw [State.block_setPc_same (S := S.setSegment r N) hc hpc, State.block_setSegment]
  exact
    { call := hc
      ranks := S.ranks_setSegment r N
      date := rfl
      calls := rfl
      pc := rfl
      wire := rfl
      memory := fun q o a _ _ => congrFun (State.setSegment_same Requested.memory hmem q) a
      notified := fun q a _ _ => congrFun (State.setSegment_same Requested.notified hnot q) a
      freed := fun q a ha ha' => absurd ha (hblock ▸ ha')
      taken := fun q a ha ha' => absurd (hblock ▸ ha) ha' }

theorem elsewhere_same (hV : V q = some (p, ph)) (hph : ph ≠ .inHand) (h : Inv D R V S) :
    Goes.Elsewhere V p.call V := by
  have hne : ∀ q' p', V q' = some (p', .inHand) → p'.call ≠ p.call := by
    intro q' p' hp' hcall
    exact hph (h.unique hp' hV hcall).2.2.symm
  exact ⟨fun _ => rfl, fun _ _ _ _ => .rfl, hne, hne⟩

/-- The answer goes on to `ph'`. -/
theorem elsewhere_update (hV : V q = some (p, ph)) (h : Inv D R V S) (hbuffer : ph'.buffer = ph.buffer)
    (hph : ph ≠ .inHand) (hph' : ph' ≠ .inHand) :
    Goes.Elsewhere V p.call (Function.update V q (some (p, ph'))) where
  coming q' := by
    by_cases hq : q' = q
    · rw [hq, Function.update_self, hV]
      unfold coming
      dsimp only
      rw [hbuffer]
    · rw [Function.update_of_ne hq]
  others q' p' ph'' hp := by
    by_cases hq : q' = q
    · rw [hq, Function.update_self, hV]
      constructor
      · intro heq
        cases heq
        exact absurd rfl hp
      · intro heq
        cases heq
        exact absurd rfl hp
    · rw [Function.update_of_ne hq]
  inHand q' p' hp' hcall := hph (h.unique hp' hV hcall).2.2.symm
  inHand' q' p' hp' hcall := by
    by_cases hq : q' = q
    · rw [hq, Function.update_self] at hp'
      cases hp'
      exact hph' rfl
    · rw [Function.update_of_ne hq] at hp'
      exact hq (h.unique hp' hV hcall).1

end

end GaspiCxx.Passive.Messaging
