import GaspiCxx.Passive.Messaging.Preserved

/-!
# The receiving side, and what arrives

The steps that leave the calls alone. `RecvMessg.Inv` follows the hand-over: its
`receive` and `request` for the two steps of the passive thread that other ranks
are part of, its `deliver` when the bytes arrive, and its `step` for everything
the two threads do on their own.
-/

namespace GaspiCxx.Passive.Messaging

open Runs RecvMessg

variable {D : Rank → List Packet} {R : Rank → List (List UInt8 × Int)} {V : Service} {S T : State} {q r : Rank}
  {p : Packet} {k : Nat} {c : Call} {a s : Address} {d : BufferDescription} {N : Requested}

theorem Posted.congr (h : Posted D S) (hcalls : T.calls = S.calls) (hpc : T.pc = S.pc) (hwire : T.wire = S.wire) :
    Posted D T where
  wire p hp := by
    rw [hwire] at hp
    rw [hpc]
    obtain ⟨c, hc, hw⟩ := h.wire p hp
    exact ⟨c, { hc with call := by rw [hcalls]; exact hc.call }, hw⟩
  received q p hp := by
    rw [hpc]
    obtain ⟨hq, ⟨c, hc⟩, hann⟩ := h.received q p hp
    exact ⟨hq, ⟨c, { hc with call := by rw [hcalls]; exact hc.call }⟩, hann⟩
  once q := by rw [hwire]; exact h.once q
  kept k c hc hann := by
    rw [hcalls] at hc
    rw [hpc] at hann
    rw [hwire]
    exact h.kept k c hc hann

namespace Inv

/-- A rank whose passive thread waits for a message answers none. -/
theorem not_serving (h : Inv D R V S) (hp : (S.ranks q).passive = .recvPassive) : V q = none := by
  cases hV : V q with
  | none => rfl
  | some x =>
    obtain ⟨p, ph⟩ := x
    have hbuffer : ph.buffer = none := by
      obtain ⟨N, n, i, hi, hs⟩ := h.hand q
      have hquiet : N.inFlight = [] := (hi.idle (.inl hp)).2.1
      cases hb : ph.buffer with
      | none => rfl
      | some d =>
        rw [hs.inFlight, hV, coming_of_buffer hb] at hquiet
        cases hquiet
    cases ph with
    | inHand =>
      have hin := h.inHand q p hV
      rw [hp] at hin; cases hin
    | replied d => cases hbuffer
    | told d => cases hbuffer
    | known d => cases hbuffer
    | flying d => cases hbuffer

theorem recvPassive {before after : List Packet} (h : Inv D R V S) (hw : S.wire = before ++ p :: after)
    (hp : (S.ranks p.targetRank).passive = .recvPassive) :
    ∃ V', Inv (Function.update D p.targetRank (D p.targetRank ++ [p])) R V'
      { S with
        ranks := Function.update S.ranks p.targetRank
          { S.ranks p.targetRank with passive := .dispatch p.message }
        date := Function.update S.date p.targetRank (some p)
        wire := before ++ after } := by
  have hnone := h.not_serving hp
  obtain ⟨c, hof, hwaits⟩ := h.posted.wire p (by rw [hw]; simp)
  have hdispatch : PassivePc.dispatch p.message = .request p.message := by rw [hof.message]; rfl
  rw [hdispatch]
  generalize hT : ({ S with
    ranks := Function.update S.ranks p.targetRank { S.ranks p.targetRank with passive := .request p.message }
    date := Function.update S.date p.targetRank (some p)
    wire := before ++ after } : State) = T
  have hcalls : T.calls = S.calls := by rw [← hT]
  have hpc : T.pc = S.pc := by rw [← hT]
  have hwire : T.wire = before ++ after := by rw [← hT]
  have hself : T.ranks p.targetRank = { S.ranks p.targetRank with passive := .request p.message } := by
    rw [← hT]; exact Function.update_self ..
  have hother : ∀ q, q ≠ p.targetRank → T.ranks q = S.ranks q := by
    intro q hq
    rw [← hT]; exact Function.update_of_ne hq ..
  have hsegment : T.segment = S.segment := by
    funext r
    unfold State.segment
    by_cases hr : r = p.targetRank
    · rw [hr, hself]
    · rw [hother r hr]
  have hblock : T.block = S.block := by
    funext r o
    cases o with
    | some k =>
      unfold State.block
      dsimp only
      rw [hcalls, hpc]
    | none =>
      show (T.ranks r).held = (S.ranks r).held
      by_cases hr : r = p.targetRank
      · rw [hr, hself, RecvMessg.State.held_of_ne (by simp), RecvMessg.State.held_of_ne (by rw [hp]; simp)]
      · rw [hother r hr]
  have hOf : ∀ {p' c'}, S.Of p' c' → T.Of p' c' := fun hc => { hc with call := by rw [hcalls]; exact hc.call }
  have hsub : ∀ p' ∈ before ++ after, p' ∈ S.wire := by
    intro p' hp'
    rw [hw]
    obtain hp' | hp' := List.mem_append.mp hp'
    · exact List.mem_append_left _ hp'
    · exact List.mem_append_right _ (List.mem_cons_of_mem _ hp')
  have hsame : ∀ {q x}, V q = some x → Function.update V p.targetRank (some (p, .inHand)) q = some x := by
    intro q x hx
    rw [Function.update_of_ne]
    · exact hx
    · rintro rfl
      rw [hnone] at hx; cases hx
  have hD : ∀ {q p'}, p' ∈ D q → p' ∈ Function.update D p.targetRank (D p.targetRank ++ [p]) q := by
    intro q p' hp'
    by_cases hq : q = p.targetRank
    · subst hq
      rw [Function.update_self]
      exact List.mem_append_left _ hp'
    · rw [Function.update_of_ne hq]; exact hp'
  have hlast : p ∈ Function.update D p.targetRank (D p.targetRank ++ [p]) p.targetRank := by
    rw [Function.update_self]
    exact List.mem_append_right _ List.mem_cons_self
  have hmoved : ∀ {k : Nat} {c' : Call}, S.calls[k]? = some c' → (∃ p' ∈ S.wire, p'.call = k) →
      (∃ p' ∈ before ++ after, p'.call = k) ∨ p.call = k ∧ c'.targetRank = p.targetRank := by
    rintro k c' hc' ⟨p', hp', rfl⟩
    rw [hw] at hp'
    obtain hp' | hp' := List.mem_append.mp hp'
    · exact .inl ⟨p', List.mem_append_left _ hp', rfl⟩
    · obtain rfl | hp' := List.mem_cons.mp hp'
      · obtain rfl := Option.some.inj (hof.call.symm.trans hc')
        exact .inr ⟨rfl, hof.targetRank.symm⟩
      · exact .inl ⟨p', List.mem_append_right _ hp', rfl⟩
  refine ⟨Function.update V p.targetRank (some (p, .inHand)),
    { posted := ⟨fun p' hp' => ?_, fun q p' hp' => ?_, fun q => ?_, fun k c' hc' hann => ?_⟩
      hand := fun q => ?_
      owns := fun r => by rw [hsegment, hblock]; exact h.owns r
      served := fun q p' ph hV => ?_
      serving := fun k c' hc' hs => ?_
      request := fun q m hm => ?_
      inHand := fun q p' hV => ?_
      told := fun q p' t hV => ?_
      copied := fun k c' t s hc' ht => by
        rw [hsegment]; exact h.copied k c' t s (hcalls ▸ hc') (hpc ▸ ht)
      notified := fun k c' a hc' ha hnot => ?_
      flights := fun r op hop => ?_
      single := fun r => by rw [hsegment]; exact h.single r
      temp := fun k c' t hc' ht => h.temp k c' t (hcalls ▸ hc') (hpc ▸ ht)
      small := by rw [hcalls]; exact h.small
      threw := by rw [hpc]; exact h.threw }⟩
  · rw [hwire] at hp'
    rw [hpc]
    obtain ⟨c', hc', hw'⟩ := h.posted.wire p' (hsub p' hp')
    exact ⟨c', hOf hc', hw'⟩
  · rw [hpc]
    have hold : p' ∈ D q → p'.targetRank = q ∧ (∃ c', T.Of p' c') ∧ (S.pc p'.call).announced = true := by
      intro hp'
      obtain ⟨hq, ⟨c', hc'⟩, hann⟩ := h.posted.received q p' hp'
      exact ⟨hq, ⟨c', hOf hc'⟩, hann⟩
    by_cases hq : q = p.targetRank
    · subst hq
      rw [Function.update_self] at hp'
      obtain hp' | hp' := List.mem_append.mp hp'
      · exact hold hp'
      · obtain rfl := List.mem_singleton.mp hp'
        exact ⟨rfl, ⟨c, hOf hof⟩, by rw [hwaits]; rfl⟩
    · rw [Function.update_of_ne hq] at hp'
      exact hold hp'
  · rw [hwire]
    have honce := h.posted.once q
    rw [hw] at honce
    by_cases hq : q = p.targetRank
    · subst hq
      rw [Function.update_self]
      have hperm : (before ++ after ++ (D p.targetRank ++ [p])).Perm (before ++ p :: after ++ D p.targetRank) := by
        rw [List.append_assoc, List.append_assoc, List.cons_append]
        refine List.Perm.append_left before ?_
        rw [← List.append_assoc]
        exact List.perm_append_singleton p _
      exact (hperm.map Packet.call).nodup_iff.mpr honce
    · rw [Function.update_of_ne hq]
      refine honce.sublist (List.Sublist.map _ ?_)
      exact ((List.Sublist.refl before).append (List.sublist_cons_self p after)).append (List.Sublist.refl _)
  · rw [hcalls] at hc'
    rw [hpc] at hann
    rw [hwire]
    obtain hold | ⟨p', hp', hcall⟩ := h.posted.kept k c' hc' hann
    · obtain hwire' | ⟨hcall, htarget⟩ := hmoved hc' hold
      · exact .inl hwire'
      · exact .inr ⟨p, htarget ▸ hlast, hcall⟩
    · exact .inr ⟨p', hD hp', hcall⟩
  · by_cases hq : q = p.targetRank
    · subst hq
      obtain ⟨N, n, i, hi, hs⟩ := h.hand p.targetRank
      have hsmall : p.message.handedOver = true → p.message.bytes.length < 2 ^ 31 := by
        intro _
        rw [hof.message]
        exact h.small c (List.mem_of_getElem? hof.call)
      have hreceived := hi.receive hp p.message hsmall
      have hmap : (Function.update D p.targetRank (D p.targetRank ++ [p]) p.targetRank).map Packet.message =
          (D p.targetRank).map Packet.message ++ if p.message.handedOver then [p.message] else [] := by
        have hhanded : p.message.handedOver = true := by rw [hof.message]; rfl
        rw [Function.update_self, List.map_append, hhanded, if_pos rfl]; rfl
      refine ⟨N, n, i, ?_, ?_, ?_, ?_⟩
      · rw [hmap, hself, ← hdispatch]
        exact hreceived
      · rw [hsegment]; exact hs.memory
      · rw [hs.inFlight, Function.update_self, hnone]; rfl
      · rw [hsegment, hblock]; exact hs.notified
    · rw [Function.update_of_ne hq]
      refine h.hand_congr q ⟨(S.ranks q).requested, hother q hq⟩ (fun b _ => by rw [hsegment]) ?_ fun a => ?_
      · rw [Function.update_of_ne hq]
      · rw [hsegment, hblock]
  · rw [hpc]
    by_cases hq : q = p.targetRank
    · subst hq
      rw [Function.update_self] at hV
      cases hV
      exact ⟨hlast, hwaits, fun _ hd => by cases hd⟩
    · rw [Function.update_of_ne hq] at hV
      obtain ⟨hp', hrest⟩ := h.served q p' ph hV
      exact ⟨hD hp', hrest⟩
  · rw [hcalls] at hc'
    rw [hpc] at hs
    rw [hwire]
    obtain hold | ⟨p', ph, hV, hcall⟩ := h.serving k c' hc' hs
    · obtain hwire' | ⟨hcall, htarget⟩ := hmoved hc' hold
      · exact .inl hwire'
      · exact .inr ⟨p, .inHand, by rw [htarget, Function.update_self], hcall⟩
    · exact .inr ⟨p', ph, hsame hV, hcall⟩
  · by_cases hq : q = p.targetRank
    · subst hq
      rw [hself] at hm
      injection hm with hm
      refine ⟨p, Function.update_self .., ?_, hm⟩
      rw [← hT]; exact Function.update_self ..
    · rw [hother q hq] at hm
      obtain ⟨p', hV, hdate, hmsg⟩ := h.request q m hm
      refine ⟨p', hsame hV, ?_, hmsg⟩
      rw [← hT]
      exact (Function.update_of_ne hq ..).trans hdate
  · by_cases hq : q = p.targetRank
    · subst hq
      rw [Function.update_self] at hV
      cases hV
      rw [hself]
    · rw [Function.update_of_ne hq] at hV
      rw [hother q hq]
      exact h.inHand q p' hV
  · rw [hsegment]
    by_cases hq : q = p.targetRank
    · subst hq
      rw [Function.update_self] at hV
      cases hV
    · rw [Function.update_of_ne hq] at hV
      exact h.told q p' t hV
  · rw [hpc] at ha ⊢
    rw [hsegment] at hnot
    obtain ⟨p', t, hV, hrest⟩ := h.notified k c' a (hcalls ▸ hc') ha hnot
    exact ⟨p', t, hsame hV, hrest⟩
  · rw [hsegment] at hop
    obtain ⟨q, p', t, hV, hrest⟩ | ⟨p', t, hV, hrest⟩ := h.flights r op hop
    · exact .inl ⟨q, p', t, hsame hV, hrest⟩
    · exact .inr ⟨p', t, hsame hV, hrest⟩

end Inv

/-! ## The answer -/

/-- Rank `q` has requested the buffer `d` and written its description to where `p` says. -/
structure Replies (S : State) (q : Rank) (p : Packet) (d : BufferDescription) (s : Address) (T : State) : Prop where
  calls : T.calls = S.calls
  pc : T.pc = S.pc
  wire : T.wire = S.wire
  date : T.date = S.date
  self : ∃ N, T.ranks q = { S.ranks q with passive := .store .tag p.message d.offset, requested := N }
  others : ∀ x, x ≠ q → ∃ N, T.ranks x = { S.ranks x with requested := N }
  memory : ∀ x a, (x = q → a ≠ s) → (T.segment x).memory a = (S.segment x).memory a
  notified : ∀ x, (T.segment x).notified = (S.segment x).notified
  allocated : (T.segment q).allocated = insert d.offset (S.segment q).allocated
  allocated_of_ne : ∀ x, x ≠ q → (T.segment x).allocated = (S.segment x).allocated
  inFlight : (T.segment p.remoteInfoBufferDesc.rank).inFlight =
    (S.segment p.remoteInfoBufferDesc.rank).inFlight ++ [(p.remoteInfoBufferDesc.offset, d.serialize)]
  inFlight_of_ne : ∀ x, x ≠ p.remoteInfoBufferDesc.rank → (T.segment x).inFlight = (S.segment x).inFlight

theorem replies (S : State) (q : Rank) (p : Packet) (d : BufferDescription) (s : Address) {S' : State}
    (hS' : S' = { S with
      ranks := Function.update S.ranks q
        { S.ranks q with
          passive := .store .tag p.message d.offset
          requested := ((S.segment q).allocate d.offset).copy s d.serialize } }) :
    Replies S q p d s
      (S'.setSegment p.remoteInfoBufferDesc.rank
        ((S'.segment p.remoteInfoBufferDesc.rank).write p.remoteInfoBufferDesc.offset d.serialize)) := by
  have hself : S'.ranks q = { S.ranks q with
      passive := .store .tag p.message d.offset
      requested := ((S.segment q).allocate d.offset).copy s d.serialize } := by
    rw [hS']; exact Function.update_self ..
  have hother : ∀ x, x ≠ q → S'.ranks x = S.ranks x := by
    intro x hx
    rw [hS']; exact Function.update_of_ne hx ..
  have hsegment : S'.segment q = ((S.segment q).allocate d.offset).copy s d.serialize := by
    unfold State.segment at *
    rw [hself]
  have hsegment' : ∀ x, x ≠ q → S'.segment x = S.segment x := by
    intro x hx
    unfold State.segment
    rw [hother x hx]
  have hflight : ∀ x, (S'.segment x).inFlight = (S.segment x).inFlight := by
    intro x
    by_cases hx : x = q
    · rw [hx, hsegment]; rfl
    · rw [hsegment' x hx]
  generalize hN : (S'.segment p.remoteInfoBufferDesc.rank).write p.remoteInfoBufferDesc.offset d.serialize = N
  have hsame : ∀ {α : Type} (f : Requested → α), f N = f (S'.segment p.remoteInfoBufferDesc.rank) → ∀ x,
      f ((S'.setSegment p.remoteInfoBufferDesc.rank N).segment x) = f (S'.segment x) :=
    fun f hf x => State.setSegment_same f hf x
  have hmemory := hsame Requested.memory (by rw [← hN]; rfl)
  have hnotified := hsame Requested.notified (by rw [← hN]; rfl)
  have hallocated := hsame Requested.allocated (by rw [← hN]; rfl)
  refine
    { calls := by rw [hS']; rfl
      pc := by rw [hS']; rfl
      wire := by rw [hS']; rfl
      date := by rw [hS']; rfl
      self := ?_
      others := fun x hx => ?_
      memory := fun x a ha => ?_
      notified := fun x => ?_
      allocated := by rw [hallocated, hsegment]; rfl
      allocated_of_ne := fun x hx => by rw [hallocated, hsegment' x hx]
      inFlight := by rw [State.segment_setSegment, ← hN, ← hflight]; rfl
      inFlight_of_ne := fun x hx => by rw [State.segment_setSegment_of_ne hx, hflight] }
  · obtain ⟨N', hN'⟩ := S'.ranks_setSegment p.remoteInfoBufferDesc.rank N q
    exact ⟨N', by rw [hN', hself]⟩
  · obtain ⟨N', hN'⟩ := S'.ranks_setSegment p.remoteInfoBufferDesc.rank N x
    exact ⟨N', by rw [hN', hother x hx]⟩
  · rw [hmemory]
    by_cases hx : x = q
    · rw [hx, hsegment]
      exact Function.update_of_ne (ha hx) ..
    · rw [hsegment' x hx]
  · rw [hnotified]
    by_cases hx : x = q
    · rw [hx, hsegment]; rfl
    · rw [hsegment' x hx]

namespace Inv

/-- The passive thread requests a buffer and tells the sender. -/
theorem request_step {m : Message} (h : Inv D R V S) (hp : (S.ranks q).passive = .request m)
    (hdate : S.date q = some p) (new : S.New q m.bytes.length d)
    (fresh : s ∉ insert d.offset (S.segment q).allocated) (hm : m = p.message → Replies S q p d s T) :
    Inv D R (Function.update V q (some (p, .replied d))) T := by
  obtain ⟨p', hV, hdate', rfl⟩ := h.request q m hp
  obtain rfl : p = p' := Option.some.inj (hdate.symm.trans hdate')
  have hr := hm rfl
  have hsd : s ≠ d.offset := fun heq => fresh (heq ▸ Finset.mem_insert_self ..)
  have hs : s ∉ (S.segment q).allocated := fun hmem => fresh (Finset.mem_insert_of_mem hmem)
  have hmem : ∀ x o a, S.block x o = some a → (T.segment x).memory a = (S.segment x).memory a := by
    intro x o a ha
    refine hr.memory x a ?_
    rintro rfl rfl
    exact hs ((h.owns x).allocated o a ha)
  have hcall : ∀ x k, T.block x (some k) = S.block x (some k) := by
    intro x k
    unfold State.block
    dsimp only
    rw [hr.calls, hr.pc]
  have hothers : ∀ x, x ≠ q → T.block x = S.block x := by
    intro x hx
    funext o
    cases o with
    | some k => exact hcall x k
    | none =>
      obtain ⟨N, hN⟩ := hr.others x hx
      show (T.ranks x).held = (S.ranks x).held
      rw [hN]; rfl
  have hheld : T.block q none = some d.offset := by
    obtain ⟨N, hN⟩ := hr.self
    show (T.ranks q).held = some d.offset
    rw [hN]; rfl
  have htemp := h.temp_waiting hV (.inl rfl)
  have hsame : ∀ {q' p' ph}, V q' = some (p', ph) → ph ≠ .inHand →
      Function.update V q (some (p, .replied d)) q' = some (p', ph) := by
    intro q' p' ph hV' hne
    rw [Function.update_of_ne]
    · exact hV'
    · rintro rfl
      rw [hV] at hV'
      cases hV'
      exact hne rfl
  refine
    { posted := h.posted.congr hr.calls hr.pc hr.wire
      hand := fun q' => ?_
      owns := fun x => ?_
      served := fun q' p' ph hV' => ?_
      serving := fun k c hc hs => ?_
      request := fun q' m' hm' => ?_
      inHand := fun q' p' hV' => ?_
      told := fun q' p' t hV' => ?_
      copied := fun k c t s' hc ht => ?_
      notified := fun k c a hc ha hnot => ?_
      flights := fun x op hop => ?_
      single := fun x => ?_
      temp := fun k c t hc ht => h.temp k c t (hr.calls ▸ hc) (hr.pc ▸ ht)
      small := by rw [hr.calls]; exact h.small
      threw := by rw [hr.pc]; exact h.threw }
  · by_cases hq : q' = q
    · subst hq
      obtain ⟨N, n, i, hi, hs⟩ := h.hand q'
      obtain ⟨N', hN'⟩ := hr.self
      have hflight : N.inFlight = [] := by rw [hs.inFlight, hV]; rfl
      refine ⟨{ N.request d.offset p.message.bytes with memory := (T.segment q').memory }, n, i, ?_, rfl, ?_, fun a => ?_⟩
      · rw [hN']
        refine (hi.request hp d.offset).congr (fun b hb => ?_) rfl rfl
        cases hb
        show (T.segment q').memory d.offset = N.memory d.offset
        rw [hs.memory]
        exact hr.memory q' d.offset fun _ => hsd.symm
      · rw [Function.update_self]
        show N.inFlight ++ [(d.offset, p.message.bytes)] = _
        rw [hflight]; rfl
      · rw [hr.notified]
        refine (hs.notified a).trans (and_congr_right fun _ => ?_)
        exact forall_congr' fun k => by rw [hcall]
    · refine h.hand_congr q' (hr.others q' hq) (fun b hb => hmem q' none b hb) ?_ fun a => ?_
      · rw [Function.update_of_ne hq]
      · rw [hr.notified, hothers q' hq]
  · by_cases hx : x = q
    · subst hx
      have hown : T.block x = Function.update (S.block x) none (some d.offset) := by
        funext o
        cases o with
        | none => rw [Function.update_self, hheld]
        | some k => rw [Function.update_of_ne (by simp), hcall]
      rw [hown, hr.allocated]
      exact (h.owns x).take none new.fresh
    · rw [hothers x hx, hr.allocated_of_ne x hx]
      exact h.owns x
  · rw [hr.pc]
    by_cases hq : q' = q
    · subst hq
      rw [Function.update_self] at hV'
      cases hV'
      obtain ⟨hD, hagrees, -⟩ := h.served q' p _ hV
      refine ⟨hD, hagrees, fun t ht => ?_⟩
      cases ht
      exact ⟨new.rank, new.size, new.fits⟩
    · rw [Function.update_of_ne hq] at hV'
      exact h.served q' p' ph hV'
  · rw [hr.calls] at hc
    rw [hr.pc] at hs
    rw [hr.wire]
    obtain hw | ⟨p', ph, hV', hcall'⟩ := h.serving k c hc hs
    · exact .inl hw
    · by_cases hq : c.targetRank = q
      · rw [hq, hV] at hV'
        cases hV'
        exact .inr ⟨p, _, by rw [hq, Function.update_self], hcall'⟩
      · exact .inr ⟨p', ph, by rw [Function.update_of_ne hq]; exact hV', hcall'⟩
  · by_cases hq : q' = q
    · subst hq
      obtain ⟨N, hN⟩ := hr.self
      rw [hN] at hm'; cases hm'
    · obtain ⟨N, hN⟩ := hr.others q' hq
      rw [hN] at hm'
      rw [Function.update_of_ne hq, hr.date]
      exact h.request q' m' hm'
  · by_cases hq : q' = q
    · subst hq
      rw [Function.update_self] at hV'; cases hV'
    · obtain ⟨N, hN⟩ := hr.others q' hq
      rw [Function.update_of_ne hq] at hV'
      rw [hN]
      exact h.inHand q' p' hV'
  · by_cases hq : q' = q
    · subst hq
      rw [Function.update_self] at hV'; cases hV'
    · rw [Function.update_of_ne hq] at hV'
      rw [hmem _ _ _ (h.temp_waiting hV' (.inr (.inr ⟨t, rfl⟩)))]
      exact h.told q' p' t hV'
  · rw [hr.calls] at hc
    rw [hr.pc] at ht
    have hblock : S.block c.sender (some k) = some s' := by
      rw [State.block_call hc, ht]; rfl
    rw [hmem _ _ _ hblock]
    exact h.copied k c t s' hc ht
  · rw [hr.calls] at hc
    rw [hr.pc] at ha ⊢
    rw [hr.notified] at hnot
    obtain ⟨p', t, hV', hrest⟩ := h.notified k c a hc ha hnot
    exact ⟨p', t, hsame hV' (by simp), hrest⟩
  · have hold : op ∈ (S.segment x).inFlight → Flight (Function.update V q (some (p, .replied d))) x op := by
      intro hop
      obtain ⟨q', p', t, hV', hrest⟩ | ⟨p', t, hV', hrest⟩ := h.flights x op hop
      · exact .inl ⟨q', p', t, hsame hV' (by simp), hrest⟩
      · exact .inr ⟨p', t, hsame hV' (by simp), hrest⟩
    by_cases hx : x = p.remoteInfoBufferDesc.rank
    · subst hx
      rw [hr.inFlight] at hop
      obtain hop | hop := List.mem_append.mp hop
      · exact hold hop
      · obtain rfl := List.mem_singleton.mp hop
        exact .inl ⟨q, p, d, Function.update_self .., rfl, rfl⟩
    · rw [hr.inFlight_of_ne x hx] at hop
      exact hold hop
  · by_cases hx : x = p.remoteInfoBufferDesc.rank
    · subst hx
      rw [hr.inFlight, List.map_append, List.nodup_append]
      refine ⟨h.single _, List.nodup_singleton _, fun a ha b hb hab => ?_⟩
      obtain ⟨op, hop, rfl⟩ := List.mem_map.mp ha
      obtain rfl := List.mem_singleton.mp hb
      -- nothing else is on its way to the temporary buffer
      obtain ⟨q', p', t, hV', -, hblock, -⟩ | ⟨p', t, -, hblock, -⟩ := h.flight_owned hop
      · rw [hab] at hblock
        have hcalls := (h.owns _).apart _ _ _ hblock htemp
        injection hcalls with hcalls
        obtain ⟨-, -, hph⟩ := h.unique hV' hV hcalls
        cases hph
      · exact (h.owns _).ne hblock htemp (by simp) hab
    · rw [hr.inFlight_of_ne x hx]
      exact h.single x

/-! ## The two threads on their own -/

theorem thread {l : RecvMessg.Label} {U : RecvMessg.State} (h : Inv D R V S) (hs : RecvMessg.Step (S.ranks q) l U)
    (hown : own l = true) (hl : l.Regular) :
    Inv D (Function.update R q (R q ++ l.returned.toList)) V { S with ranks := Function.update S.ranks q U } := by
  obtain ⟨e, he⟩ := hs.effect hown
  obtain ⟨N, n, i, hi, hsees⟩ := h.hand q
  have hheld := hs.held hown hi
  have hblock : ∀ x k, ({ S with ranks := Function.update S.ranks q U } : State).block x (some k) =
      S.block x (some k) := fun _ _ => rfl
  have hself : ({ S with ranks := Function.update S.ranks q U } : State).ranks q = U := Function.update_self ..
  have hother : ∀ x, x ≠ q → ({ S with ranks := Function.update S.ranks q U } : State).ranks x = S.ranks x :=
    fun x hx => Function.update_of_ne hx ..
  generalize hT : ({ S with ranks := Function.update S.ranks q U } : State) = T at hblock hself hother ⊢
  have hcalls : T.calls = S.calls ∧ T.pc = S.pc ∧ T.wire = S.wire ∧ T.date = S.date := by
    rw [← hT]; exact ⟨rfl, rfl, rfl, rfl⟩
  obtain ⟨hcalls, hpc, hwire, hdate⟩ := hcalls
  have hsegment : T.segment q = e.apply (S.segment q) := by
    unfold State.segment
    rw [hself]; exact he.requested
  have hsegment' : ∀ x, x ≠ q → T.segment x = S.segment x := by
    intro x hx
    unfold State.segment
    rw [hother x hx]
  have hmemory : ∀ x, (T.segment x).memory = (S.segment x).memory := by
    intro x
    by_cases hx : x = q
    · rw [hx, hsegment, Effect.apply_memory]
    · rw [hsegment' x hx]
  have hflight : ∀ x, (T.segment x).inFlight = (S.segment x).inFlight := by
    intro x
    by_cases hx : x = q
    · rw [hx, hsegment, Effect.apply_inFlight]
    · rw [hsegment' x hx]
  -- what the user takes is in the buffer held, of which the calls know nothing
  have htakes : ∀ b, (S.ranks q).user.holds = some b → ∀ k, S.block q (some k) ≠ some b := by
    intro b hb k hk
    have hmine : S.block q none = some b := hi.held_of_holds hb
    exact absurd rfl ((h.owns q).ne hk hmine (by simp))
  have hnotified : ∀ a, (∀ b, e = .take b → a ≠ b) → ∀ M : Requested, (e.apply M).notified a = M.notified a := by
    intro a ha M
    cases e with
    | keep => rfl
    | take b => exact Function.update_of_ne (ha b rfl) ..
    | release ptr => rfl
  have hlowers : ∀ x a, (T.segment x).notified a = true → (S.segment x).notified a = true := by
    intro x a ha
    by_cases hx : x = q
    · subst hx
      rw [hsegment] at ha
      by_cases htake : ∀ b, e = .take b → a ≠ b
      · rw [hnotified a htake] at ha; exact ha
      · push Not at htake
        obtain ⟨b, rfl, rfl⟩ := htake
        have hfalse : ((Effect.take a).apply (S.segment x)).notified a = false := Function.update_self ..
        rw [hfalse] at ha; cases ha
    · rw [hsegment' x hx] at ha; exact ha
  refine
    { posted := h.posted.congr hcalls hpc hwire
      hand := fun q' => ?_
      owns := fun x => ?_
      served := by rw [hpc]; exact h.served
      serving := by rw [hcalls, hpc, hwire]; exact h.serving
      request := fun q' m hm => ?_
      inHand := fun q' p hV => ?_
      told := fun q' p t hV => by rw [hmemory]; exact h.told q' p t hV
      copied := fun k c t s hc ht => by
        rw [hmemory]; exact h.copied k c t s (hcalls ▸ hc) (hpc ▸ ht)
      notified := fun k c a hc ha hnot => ?_
      flights := fun x op hop => h.flights x op (hflight x ▸ hop)
      single := fun x => by rw [hflight]; exact h.single x
      temp := by rw [hcalls, hpc]; exact h.temp
      small := by rw [hcalls]; exact h.small
      threw := by rw [hpc]; exact h.threw }
  · by_cases hq : q' = q
    · subst hq
      have hstep := he.anywhere N hsees.memory fun b hb => by
        have hiff := hsees.notified b
        rw [Bool.eq_iff_iff, hiff]
        exact and_iff_left (htakes b hb)
      obtain ⟨i', hi'⟩ := hi.step hstep hl
      have hnone : l.date = none := by
        cases l with
        | receives m => cases hown
        | _ => rfl
      rw [hnone, Option.toList_none, List.append_nil] at hi'
      refine ⟨e.apply N, fun f => n f + RecvMessg.Inv.stored l f, i', ?_, ?_, ?_, fun a => ?_⟩
      · rw [Function.update_self, hself]; exact hi'
      · rw [Effect.apply_memory, hmemory]; exact hsees.memory
      · rw [Effect.apply_inFlight]; exact hsees.inFlight
      · rw [hsegment]
        by_cases htake : ∀ b, e = .take b → a ≠ b
        · rw [hnotified a htake, hnotified a htake, hsees.notified]
          exact and_congr_right fun _ => forall_congr' fun k => by rw [hblock]
        · push Not at htake
          obtain ⟨b, rfl, rfl⟩ := htake
          have hfalse : ∀ M : Requested, ((Effect.take a).apply M).notified a = false :=
            fun M => Function.update_self ..
          rw [hfalse, hfalse]
          simp
    · rw [Function.update_of_ne hq]
      refine h.hand_congr q' ⟨(S.ranks q').requested, hother q' hq⟩ (fun b _ => by rw [hmemory]) rfl fun a => ?_
      rw [hsegment' q' hq]
      exact and_congr_right fun _ => forall_congr' fun k => by rw [hblock]
  · by_cases hx : x = q
    · subst hx
      have hnone : T.block x none = U.held := congrArg RecvMessg.State.held hself
      have hallocated : (T.segment x).allocated = U.requested.allocated := by
        unfold State.segment
        rw [hself]
      rw [hallocated]
      obtain ⟨hkept, halloc⟩ | ⟨hgone, halloc⟩ := hheld
      · have hown : T.block x = S.block x := by
          funext o
          cases o with
          | none => rw [hnone, hkept]; rfl
          | some k => exact hblock x k
        rw [hown, halloc]
        exact h.owns x
      · have hown : T.block x = Function.update (S.block x) none none := by
          funext o
          cases o with
          | none => rw [hnone, hgone, Function.update_self]
          | some k => rw [Function.update_of_ne (by simp), hblock]
        rw [hown, halloc]
        exact (h.owns x).give none
    · have hown : T.block x = S.block x := by
        funext o
        cases o with
        | none => exact congrArg RecvMessg.State.held (hother x hx)
        | some k => exact hblock x k
      rw [hown, hsegment' x hx]
      exact h.owns x
  · rw [hdate]
    by_cases hq : q' = q
    · subst hq
      rw [hself] at hm
      exact h.request q' m ((he.request m).mp hm)
    · rw [hother q' hq] at hm
      exact h.request q' m hm
  · by_cases hq : q' = q
    · subst hq
      rw [hself]
      exact (he.request _).mpr (h.inHand q' p hV)
    · rw [hother q' hq]
      exact h.inHand q' p hV
  · rw [hpc] at ha ⊢
    exact h.notified k c a (hcalls ▸ hc) ha (hlowers _ a hnot)

/-- A rank that terminates leaves everything as it is. -/
theorem terminates (h : Inv D R V S) (terminated : Rank → Bool) :
    Inv D R V { S with terminated := terminated } where
  posted := h.posted.congr rfl rfl rfl
  hand q := h.hand_congr q ⟨(S.ranks q).requested, rfl⟩ (fun _ _ => rfl) rfl fun _ => .rfl
  owns := h.owns
  served := h.served
  serving := h.serving
  request := h.request
  inHand := h.inHand
  told := h.told
  copied := h.copied
  notified := h.notified
  flights := h.flights
  single := h.single
  temp := h.temp
  small := h.small
  threw := h.threw

/-! ## What arrives -/

/-- Of two writes on their way to a rank, only one goes to a buffer. -/
theorem deliver_others {before after : List (Address × List UInt8)} {b : Address} {bytes : List UInt8}
    (h : Inv D R V S) (hf : (S.segment r).inFlight = before ++ (b, bytes) :: after) :
    (∀ op ∈ before ++ after, op ∈ (S.segment r).inFlight ∧ op.1 ≠ b) ∧ ((before ++ after).map Prod.fst).Nodup := by
  have hsingle := h.single r
  rw [hf, List.map_append, List.map_cons, List.nodup_middle, List.nodup_cons, ← List.map_append] at hsingle
  refine ⟨fun op hop => ⟨?_, ?_⟩, hsingle.2⟩
  · rw [hf]
    obtain hop | hop := List.mem_append.mp hop
    · exact List.mem_append_left _ hop
    · exact List.mem_append_right _ (List.mem_cons_of_mem _ hop)
  · rintro rfl
    exact hsingle.1 (List.mem_map.mpr ⟨op, hop, rfl⟩)

/-- What a delivery changes. -/
theorem deliver_fields {before after : List (Address × List UInt8)} {b : Address} {bytes : List UInt8}
    (hT : T = S.setSegment r ((S.segment r).deliver b bytes (before ++ after))) :
    (∀ x a, (x = r → a ≠ b) → (T.segment x).memory a = (S.segment x).memory a ∧
      (T.segment x).notified a = (S.segment x).notified a) ∧
    (∀ x, (T.segment x).allocated = (S.segment x).allocated) ∧
    (∀ x, x ≠ r → (T.segment x).inFlight = (S.segment x).inFlight) ∧ T.block = S.block := by
  subst hT
  have hsame : ∀ x, ((S.setSegment r ((S.segment r).deliver b bytes (before ++ after))).segment x).allocated =
      (S.segment x).allocated := fun x =>
    State.setSegment_same (N := (S.segment r).deliver b bytes (before ++ after)) Requested.allocated rfl x
  refine ⟨fun x a ha => ?_, hsame, fun x hx => by rw [State.segment_setSegment_of_ne hx], State.block_setSegment ..⟩
  by_cases hx : x = r
  · rw [hx, State.segment_setSegment]
    exact ⟨Function.update_of_ne (ha hx) .., Function.update_of_ne (ha hx) ..⟩
  · rw [State.segment_setSegment_of_ne hx]
    exact ⟨rfl, rfl⟩

/-- A description arrives. -/
theorem deliver_description {before after : List (Address × List UInt8)} (h : Inv D R V S)
    (hV : V q = some (p, .replied d))
    (hf : (S.segment p.remoteInfoBufferDesc.rank).inFlight =
      before ++ (p.remoteInfoBufferDesc.offset, d.serialize) :: after) :
    Inv D R (Function.update V q (some (p, .told d)))
      (S.setSegment p.remoteInfoBufferDesc.rank ((S.segment p.remoteInfoBufferDesc.rank).deliver
        p.remoteInfoBufferDesc.offset d.serialize (before ++ after))) := by
  obtain ⟨hremain, hnodup⟩ := h.deliver_others hf
  have htemp := h.temp_waiting hV (.inr (.inl ⟨d, rfl⟩))
  obtain ⟨c₀, hof, htarget⟩ := h.of hV
  generalize hT : S.setSegment p.remoteInfoBufferDesc.rank ((S.segment p.remoteInfoBufferDesc.rank).deliver
    p.remoteInfoBufferDesc.offset d.serialize (before ++ after)) = T
  obtain ⟨hfield, hallocated, hflight, hblock⟩ := deliver_fields hT.symm
  have hself : T.segment p.remoteInfoBufferDesc.rank = (S.segment p.remoteInfoBufferDesc.rank).deliver
      p.remoteInfoBufferDesc.offset d.serialize (before ++ after) := by rw [← hT, State.segment_setSegment]
  have hcalls : T.calls = S.calls ∧ T.pc = S.pc ∧ T.wire = S.wire ∧ T.date = S.date := by
    rw [← hT]; exact ⟨rfl, rfl, rfl, rfl⟩
  obtain ⟨hcalls, hpc, hwire, hdate⟩ := hcalls
  have hranks : ∀ x, ∃ N, T.ranks x = { S.ranks x with requested := N } := by
    rw [← hT]; exact S.ranks_setSegment _ _
  have hpassive : ∀ x, (T.ranks x).passive = (S.ranks x).passive := by
    intro x
    obtain ⟨N, hN⟩ := hranks x
    rw [hN]
  -- the buffers of all other owners are elsewhere
  have hmem : ∀ x o a, o ≠ some p.call → S.block x o = some a → (T.segment x).memory a = (S.segment x).memory a := by
    intro x o a ho ha
    refine (hfield x a ?_).1
    rintro rfl
    exact (h.owns _).ne ha htemp ho
  have hagrees : S.pc p.call = .waitForNotification p.remoteInfoBufferDesc := (h.served q p _ hV).2.1
  have hsame : ∀ {q' p' ph}, V q' = some (p', ph) → (∀ t, ph ≠ .replied t) →
      Function.update V q (some (p, .told d)) q' = some (p', ph) := by
    intro q' p' ph hV' hne
    rw [Function.update_of_ne]
    · exact hV'
    · rintro rfl
      rw [hV] at hV'
      cases hV'
      exact hne d rfl
  refine
    { posted := h.posted.congr hcalls hpc hwire
      hand := fun q' => ?_
      owns := fun x => by rw [hallocated, hblock]; exact h.owns x
      served := fun q' p' ph hV' => ?_
      serving := fun k c hc hs => ?_
      request := fun q' m hm => ?_
      inHand := fun q' p' hV' => ?_
      told := fun q' p' t hV' => ?_
      copied := fun k c t s hc ht => ?_
      notified := fun k c a hc ha hnot => ?_
      flights := fun x op hop => ?_
      single := fun x => ?_
      temp := by rw [hcalls, hpc]; exact h.temp
      small := by rw [hcalls]; exact h.small
      threw := by rw [hpc]; exact h.threw }
  · refine h.hand_congr q' (hranks q') (fun b hb => hmem q' none b (by simp) hb) ?_ ?_
    · by_cases hq : q' = q
      · rw [hq, Function.update_self, hV]; rfl
      · rw [Function.update_of_ne hq]
    · rw [hblock]
      refine notified_congr (k := p.call) (fun _ _ => rfl) (fun a ha _ => (hfield q' a ?_).2)
        (fun a ha ha' => absurd ha ha') (fun a ha ha' => absurd ha ha')
      rintro rfl rfl
      exact ha htemp
  · rw [hpc]
    by_cases hq : q' = q
    · subst hq
      rw [Function.update_self] at hV'
      cases hV'
      obtain ⟨hD, -, hbuffer⟩ := h.served q' p _ hV
      exact ⟨hD, .inl hagrees, hbuffer⟩
    · rw [Function.update_of_ne hq] at hV'
      exact h.served q' p' ph hV'
  · rw [hcalls] at hc
    rw [hpc] at hs
    rw [hwire]
    obtain hw | ⟨p', ph, hV', hcall⟩ := h.serving k c hc hs
    · exact .inl hw
    · by_cases hq : c.targetRank = q
      · rw [hq, hV] at hV'
        cases hV'
        exact .inr ⟨p, _, by rw [hq, Function.update_self], hcall⟩
      · exact .inr ⟨p', ph, by rw [Function.update_of_ne hq]; exact hV', hcall⟩
  · rw [hpassive] at hm
    rw [hdate]
    obtain ⟨p', hV', hrest⟩ := h.request q' m hm
    exact ⟨p', hsame hV' (by simp), hrest⟩
  · rw [hpassive]
    by_cases hq : q' = q
    · subst hq
      rw [Function.update_self] at hV'; cases hV'
    · rw [Function.update_of_ne hq] at hV'
      exact h.inHand q' p' hV'
  · by_cases hq : q' = q
    · subst hq
      rw [Function.update_self] at hV'
      cases hV'
      rw [hself]
      exact ⟨_, Function.update_self ..⟩
    · rw [Function.update_of_ne hq] at hV'
      have hne : p'.call ≠ p.call := fun heq => hq (h.unique hV' hV heq).1
      rw [hmem _ (some p'.call) _ (by simpa using hne) (h.temp_waiting hV' (.inr (.inr ⟨t, rfl⟩)))]
      exact h.told q' p' t hV'
  · rw [hcalls] at hc
    rw [hpc] at ht
    have hblock' : S.block c.sender (some k) = some s := by
      rw [State.block_call hc, ht]; rfl
    have hne : k ≠ p.call := by
      rintro rfl
      rw [hagrees] at ht; cases ht
    rw [hmem _ (some k) s (by simpa using hne) hblock']
    exact h.copied k c t s hc ht
  · rw [hcalls] at hc
    rw [hpc] at ha ⊢
    by_cases hk : k = p.call
    · subst hk
      obtain rfl := Option.some.inj (hc.symm.trans hof.call)
      exact ⟨p, d, by rw [htarget, Function.update_self], rfl, hagrees⟩
    · have hblock' : S.block c.sender (some k) = some a := (State.block_call hc).trans ha
      have hold : (S.segment c.sender).notified a = true := by
        rw [← (hfield c.sender a ?_).2]
        · exact hnot
        · rintro heq rfl
          rw [heq] at hblock'
          exact (h.owns _).ne hblock' htemp (by simpa using hk) rfl
      obtain ⟨p', t, hV', hrest⟩ := h.notified k c a hc ha hold
      exact ⟨p', t, hsame hV' (by simp), hrest⟩
  · have hold : op ∈ (S.segment x).inFlight → (x = p.remoteInfoBufferDesc.rank → op.1 ≠ p.remoteInfoBufferDesc.offset) →
        Flight (Function.update V q (some (p, .told d))) x op := by
      intro hop hne
      obtain ⟨q', p', t, hV', rfl, rfl⟩ | ⟨p', t, hV', hrest⟩ := h.flights x op hop
      · by_cases hq : q' = q
        · subst hq
          rw [hV] at hV'
          cases hV'
          exact absurd rfl (hne rfl)
        · exact .inl ⟨q', p', t, by rw [Function.update_of_ne hq]; exact hV', rfl, rfl⟩
      · exact .inr ⟨p', t, hsame hV' (by simp), hrest⟩
    by_cases hx : x = p.remoteInfoBufferDesc.rank
    · subst hx
      rw [hself] at hop
      obtain ⟨hop, hne⟩ := hremain op hop
      exact hold hop fun _ => hne
    · rw [hflight x hx] at hop
      exact hold hop fun heq => absurd heq hx
  · by_cases hx : x = p.remoteInfoBufferDesc.rank
    · rw [hx, hself]; exact hnodup
    · rw [hflight x hx]; exact h.single x

/-- The bytes arrive. -/
theorem deliver_bytes {before after : List (Address × List UInt8)} (h : Inv D R V S)
    (hV : V r = some (p, .flying d))
    (hf : (S.segment r).inFlight = before ++ (d.offset, p.message.bytes) :: after) :
    Inv D R (Function.update V r none)
      (S.setSegment r ((S.segment r).deliver d.offset p.message.bytes (before ++ after))) := by
  obtain ⟨hremain, hnodup⟩ := h.deliver_others hf
  have hheld := h.held hV rfl
  generalize hT : S.setSegment r ((S.segment r).deliver d.offset p.message.bytes (before ++ after)) = T
  obtain ⟨hfield, hallocated, hflight, hblock⟩ := deliver_fields hT.symm
  have hself : T.segment r = (S.segment r).deliver d.offset p.message.bytes (before ++ after) := by
    rw [← hT, State.segment_setSegment]
  have hcalls : T.calls = S.calls ∧ T.pc = S.pc ∧ T.wire = S.wire ∧ T.date = S.date := by
    rw [← hT]; exact ⟨rfl, rfl, rfl, rfl⟩
  obtain ⟨hcalls, hpc, hwire, hdate⟩ := hcalls
  have hranks : ∀ x, ∃ N, T.ranks x = { S.ranks x with requested := N } := by
    rw [← hT]; exact S.ranks_setSegment _ _
  have hpassive : ∀ x, (T.ranks x).passive = (S.ranks x).passive := by
    intro x
    obtain ⟨N, hN⟩ := hranks x
    rw [hN]
  have hne : ∀ x k a, S.block x (some k) = some a → x = r → a ≠ d.offset := by
    rintro x k a ha rfl
    exact (h.owns _).ne ha hheld (by simp)
  have hsame : ∀ {q' p' ph}, V q' = some (p', ph) → (∀ t, ph ≠ .flying t) →
      Function.update V r none q' = some (p', ph) := by
    intro q' p' ph hV' hne
    rw [Function.update_of_ne]
    · exact hV'
    · rintro rfl
      rw [hV] at hV'
      cases hV'
      exact hne d rfl
  have hback : ∀ {q' x}, Function.update V r none q' = some x → V q' = some x ∧ q' ≠ r := by
    intro q' x hV'
    by_cases hq : q' = r
    · rw [hq, Function.update_self] at hV'; cases hV'
    · rw [Function.update_of_ne hq] at hV'
      exact ⟨hV', hq⟩
  refine
    { posted := h.posted.congr hcalls hpc hwire
      hand := fun q' => ?_
      owns := fun x => by rw [hallocated, hblock]; exact h.owns x
      served := fun q' p' ph hV' => by rw [hpc]; exact h.served q' p' ph (hback hV').1
      serving := fun k c hc hs => ?_
      request := fun q' m hm => ?_
      inHand := fun q' p' hV' => by rw [hpassive]; exact h.inHand q' p' (hback hV').1
      told := fun q' p' t hV' => ?_
      copied := fun k c t s hc ht => ?_
      notified := fun k c a hc ha hnot => ?_
      flights := fun x op hop => ?_
      single := fun x => ?_
      temp := by rw [hcalls, hpc]; exact h.temp
      small := by rw [hcalls]; exact h.small
      threw := by rw [hpc]; exact h.threw }
  · by_cases hq : q' = r
    · subst hq
      obtain ⟨N, n, i, hi, hs⟩ := h.hand q'
      have hcoming : N.inFlight = [] ++ (d.offset, p.message.bytes) :: [] := by
        rw [hs.inFlight, hV]; rfl
      have hdelivered := hi.deliver hcoming
      obtain ⟨N', hN'⟩ := hranks q'
      refine ⟨N.deliver d.offset p.message.bytes ([] ++ []), n, i, ?_, ?_, ?_, fun a => ?_⟩
      · rw [hN']; exact hdelivered
      · rw [hself]
        unfold Requested.deliver
        dsimp only
        rw [hs.memory]
      · rw [Function.update_self]; rfl
      · rw [hself, hblock]
        unfold Requested.deliver
        dsimp only
        by_cases ha : a = d.offset
        · rw [ha, Function.update_self, Function.update_self]
          exact ⟨fun _ => ⟨rfl, fun k hk => hne q' k _ hk rfl rfl⟩, fun _ => rfl⟩
        · rw [Function.update_of_ne ha, Function.update_of_ne ha]
          exact hs.notified a
    · refine h.hand_congr q' (hranks q') (fun b _ => (hfield q' b fun heq => absurd heq hq).1) ?_ fun a => ?_
      · rw [Function.update_of_ne hq]
      · rw [hblock, (hfield q' a fun heq => absurd heq hq).2]
  · rw [hcalls] at hc
    rw [hpc] at hs
    rw [hwire]
    obtain hw | ⟨p', ph, hV', rfl⟩ := h.serving k c hc hs
    · exact .inl hw
    · refine .inr ⟨p', ph, hsame hV' fun t ht => ?_, rfl⟩
      subst ht
      -- such a call does not need the answer any more
      obtain ⟨s, hpc'⟩ | hpc' : (∃ s, S.pc p'.call = .flushed s) ∨ S.pc p'.call = .returned :=
        (h.served _ _ _ hV').2.1
      · rw [hpc'] at hs; cases hs
      · rw [hpc'] at hs; cases hs
  · rw [hpassive] at hm
    rw [hdate]
    obtain ⟨p', hV', hrest⟩ := h.request q' m hm
    exact ⟨p', hsame hV' (by simp), hrest⟩
  · obtain ⟨hV', -⟩ := hback hV'
    have htemp := h.temp_waiting hV' (.inr (.inr ⟨t, rfl⟩))
    rw [(hfield _ _ fun heq => hne _ _ _ htemp heq).1]
    exact h.told q' p' t hV'
  · rw [hcalls] at hc
    rw [hpc] at ht
    have hblock' : S.block c.sender (some k) = some s := by
      rw [State.block_call hc, ht]; rfl
    rw [(hfield _ _ fun heq => hne _ _ _ hblock' heq).1]
    exact h.copied k c t s hc ht
  · rw [hcalls] at hc
    rw [hpc] at ha ⊢
    have hblock' : S.block c.sender (some k) = some a := (State.block_call hc).trans ha
    rw [(hfield _ _ fun heq => hne _ _ _ hblock' heq).2] at hnot
    obtain ⟨p', t, hV', hrest⟩ := h.notified k c a hc ha hnot
    exact ⟨p', t, hsame hV' (by simp), hrest⟩
  · have hold : op ∈ (S.segment x).inFlight → (x = r → op.1 ≠ d.offset) → Flight (Function.update V r none) x op := by
      intro hop hne
      obtain ⟨q', p', t, hV', hrest⟩ | ⟨p', t, hV', rfl⟩ := h.flights x op hop
      · exact .inl ⟨q', p', t, hsame hV' (by simp), hrest⟩
      · by_cases hx : x = r
        · subst hx
          rw [hV] at hV'
          cases hV'
          exact absurd rfl (hne rfl)
        · exact .inr ⟨p', t, by rw [Function.update_of_ne hx]; exact hV', rfl⟩
    by_cases hx : x = r
    · subst hx
      rw [hself] at hop
      obtain ⟨hop, hne⟩ := hremain op hop
      exact hold hop fun _ => hne
    · rw [hflight x hx] at hop
      exact hold hop fun heq => absurd heq hx
  · by_cases hx : x = r
    · rw [hx, hself]; exact hnodup
    · rw [hflight x hx]; exact h.single x

theorem deliver {before after : List (Address × List UInt8)} {b : Address} {bytes : List UInt8}
    (h : Inv D R V S) (hf : (S.segment r).inFlight = before ++ (b, bytes) :: after) :
    ∃ V', Inv D R V' (S.setSegment r ((S.segment r).deliver b bytes (before ++ after))) := by
  obtain ⟨q, p, d, hV, rfl, hop⟩ | ⟨p, d, hV, hop⟩ := h.flights r (b, bytes) (by rw [hf]; simp)
  · cases hop
    exact ⟨_, h.deliver_description hV hf⟩
  · cases hop
    exact ⟨_, h.deliver_bytes hV hf⟩

end Inv

end GaspiCxx.Passive.Messaging
