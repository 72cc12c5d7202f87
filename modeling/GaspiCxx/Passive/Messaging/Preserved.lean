import GaspiCxx.Passive.Messaging.Calls

/-!
# The invariant is kept

One lemma for each step: the calls of `sendMessg` first, then the passive thread,
the two threads on their own and the writes that arrive.
-/

namespace GaspiCxx.Passive.Messaging.Inv

open Runs RecvMessg

variable {D : Rank → List Packet} {R : Rank → List (List UInt8 × Int)} {V V' : Service} {S : State} {q r : Rank}
  {p : Packet} {ph : Phase} {k : Nat} {c : Call} {a s : Address} {d target : BufferDescription} {pc : SendPc}
  {N : Requested}

/-! ## The calls -/

/-- A call that does not wait for its notification has no `DATE` on the wire. -/
theorem off (h : Inv D R V S) (hpc : ∀ d, S.pc k ≠ .waitForNotification d) : ∀ p ∈ S.wire, p.call ≠ k := by
  rintro p hp rfl
  obtain ⟨-, -, hw⟩ := h.posted.wire p hp
  exact hpc _ hw

/-- A call goes on within its own segment. -/
theorem goes (h : Inv D R V S) (hg : Goes S k c pc ((S.setSegment c.sender N).setPc k pc))
    (hflight : N.inFlight = (S.segment c.sender).inFlight) (hV : Goes.Elsewhere V k V')
    (hk : ∀ q p ph, V q = some (p, ph) → p.call = k → V' q = some (p, ph) ∨ ∃ d, ph = .told d)
    (hoff : ∀ p ∈ S.wire, p.call ≠ k) (hann : pc.announced = (S.pc k).announced) (htemp : ∀ d, pc ≠ .sendPassive d)
    (howns : Owns N.allocated (Function.update (S.block c.sender) (some k) pc.block))
    (hserved : ∀ q p ph, V' q = some (p, ph) → p.call = k → p ∈ D q ∧ ph.Agrees p.remoteInfoBufferDesc pc ∧
      ∀ d, ph.buffer = some d → d.rank = q ∧ d.size = p.message.bytes.length ∧ d.Fits)
    (hserving : pc.served = true → ∃ p ph, V' c.targetRank = some (p, ph) ∧ p.call = k)
    (htold : ∀ q p d, V' q = some (p, .told d) → p.call = k →
      V q = some (p, .told d) ∧ N.memory = (S.segment c.sender).memory)
    (hcopied : ∀ d s, pc = .write d s → (N.memory s).take c.pData.length = c.pData)
    (hnotified : ∀ a, pc.block = some a → N.notified a = false) (hthrew : pc ≠ .threw) :
    Inv D R V' ((S.setSegment c.sender N).setPc k pc) := by
  have hself : ((S.setSegment c.sender N).setPc k pc).segment c.sender = N := S.segment_setSegment c.sender N
  have hother : ∀ r, r ≠ c.sender → ((S.setSegment c.sender N).setPc k pc).segment r = S.segment r :=
    fun r hr => State.segment_setSegment_of_ne hr
  have hinFlight : ∀ r, (((S.setSegment c.sender N).setPc k pc).segment r).inFlight = (S.segment r).inFlight :=
    State.setSegment_same Requested.inFlight hflight
  have hmoved : ∀ {q p ph}, V q = some (p, ph) → (∀ d, ph ≠ .told d) → V' q = some (p, ph) := by
    intro q p ph hp hne
    by_cases hcall : p.call = k
    · obtain hp' | ⟨d, rfl⟩ := hk q p ph hp hcall
      · exact hp'
      · exact absurd rfl (hne d)
    · exact (hV.others q p ph hcall).mpr hp
  refine hg.inv h hV hoff hann htemp (fun r => ?_) hserved hserving (fun q p d hp hcall => ?_)
    (fun d s hpc => by rw [hself]; exact hcopied d s hpc) (fun a ha hnot => ?_) (fun r op hop => ?_) (fun r => ?_)
    hthrew
  · by_cases hr : r = c.sender
    · rw [hr, hg.block_eq, hself]; exact howns
    · rw [hg.block_eq_of_ne hr, hother r hr]; exact h.owns r
  · obtain ⟨hp, hmem⟩ := htold q p d hp hcall
    obtain ⟨rest, hrest⟩ := h.told q p d hp
    refine ⟨rest, ?_⟩
    by_cases hr : p.remoteInfoBufferDesc.rank = c.sender
    · rw [hr] at hrest ⊢
      rw [hself, hmem]; exact hrest
    · rw [hother _ hr]; exact hrest
  · rw [hself, hnotified a ha] at hnot
    cases hnot
  · rw [hinFlight] at hop
    obtain ⟨q, p, d, hp, hrest⟩ | ⟨p, d, hp, hrest⟩ := h.flights r op hop
    · exact .inl ⟨q, p, d, hmoved hp (by simp), hrest⟩
    · exact .inr ⟨p, d, hmoved hp (by simp), hrest⟩
  · rw [hinFlight]; exact h.single r

theorem waitForNotification (h : Inv D R V S) (hc : S.calls[k]? = some c) (hpc : S.pc k = .waitForNotification d)
    (arrived : (S.segment c.sender).notified d.offset = true) :
    Inv D R V
      ((S.setSegment c.sender ((S.segment c.sender).waitForNotification d.offset)).setPc k (.deserialize d)) := by
  have hblock : (S.pc k).block = some d.offset := by rw [hpc]; rfl
  obtain ⟨p, t, hV, rfl, hpc'⟩ := h.notified k c _ hc hblock arrived
  obtain rfl : d = p.remoteInfoBufferDesc := by rw [hpc] at hpc'; injection hpc'
  have hself : Function.update (S.block c.sender) (some p.call)
      (SendPc.deserialize p.remoteInfoBufferDesc).block = S.block c.sender := by
    have hkeeps : (SendPc.deserialize p.remoteInfoBufferDesc).block = S.block c.sender (some p.call) :=
      hblock.symm.trans (State.block_call hc).symm
    rw [hkeeps, Function.update_eq_self]
  refine h.goes ?_ rfl (elsewhere_same hV (by simp) h) (fun _ _ _ hp _ => .inl hp) (h.off_wire hV)
    (by rw [hpc]; rfl) (by simp) (by rw [hself]; exact h.owns c.sender) ?_ (fun _ => ⟨p, .told t, hV, rfl⟩)
    (fun _ _ _ hp _ => ⟨hp, rfl⟩) (fun _ _ heq => by cases heq) ?_ (by simp)
  · refine goes_of hc (fun _ _ _ _ => rfl) (fun a ha _ => ?_) (fun a ha ha' => ?_) (fun a ha ha' => ?_)
    · refine Function.update_of_ne (fun heq => ha ?_) ..
      rw [heq]; exact hblock
    · exact absurd (hblock.symm.trans ha) ha'
    · exact absurd (hblock.trans ha) ha'
  · intro q' p' ph' hV' hcall
    obtain ⟨rfl, rfl, rfl⟩ := h.unique hV' hV hcall
    obtain ⟨hD, -, hbuffer⟩ := h.served _ _ _ hV
    exact ⟨hD, .inr rfl, hbuffer⟩
  · intro a ha
    cases ha
    exact Function.update_self ..

/-- The call reads the description of the requested buffer. -/
theorem deserialize (h : Inv D R V S) (hc : S.calls[k]? = some c) (hpc : S.pc k = .deserialize d)
    (read : target = .deserialize ((S.segment c.sender).memory d.offset)) :
    ∃ V', Inv D R V'
      ((S.setSegment c.sender ((S.segment c.sender).release (some d.offset))).setPc k (.memcpy target)) := by
  have hblock : (S.pc k).block = some d.offset := by rw [hpc]; rfl
  obtain ⟨p, ph, hV, rfl, hof, hagrees⟩ := h.service hc (by rw [hpc]; rfl) (by rw [hpc]; simp)
  rw [hpc] at hagrees
  obtain ⟨t, rfl⟩ : ∃ t, ph = .told t := by
    cases ph with
    | told t => exact ⟨t, rfl⟩
    | inHand => cases hagrees
    | replied t => cases hagrees
    | known t => obtain heq | ⟨s, heq⟩ | heq := hagrees <;> cases heq
    | flying t => obtain ⟨s, heq⟩ | heq := hagrees <;> cases heq
  obtain rfl : d = p.remoteInfoBufferDesc := by
    obtain heq | heq := hagrees <;> cases heq
    rfl
  obtain ⟨hD, -, hbuffer⟩ := h.served _ _ _ hV
  obtain rfl : target = t := by
    obtain ⟨rest, hrest⟩ := h.told _ p t hV
    rw [read, ← hof.rank, hrest]
    exact BufferDescription.deserialize_serialize (hbuffer t rfl).2.2 rest
  have hfalse : (S.segment c.sender).notified p.remoteInfoBufferDesc.offset = false := by
    by_contra htrue
    obtain ⟨_, _, -, -, hwaits⟩ := h.notified _ c _ hc hblock (by simpa using htrue)
    rw [hpc] at hwaits; cases hwaits
  refine ⟨Function.update V c.targetRank (some (p, .known target)), h.goes ?_ rfl
    (elsewhere_update hV h rfl (by simp) (by simp)) (fun q' p' ph' hV' hcall => ?_) (h.off_wire hV)
    (by rw [hpc]; rfl) (by simp) ?_ (fun q' p' ph' hV' hcall => ?_) (fun _ => ⟨p, _, Function.update_self .., rfl⟩)
    (fun q' p' t' hV' hcall => ?_) (fun _ _ heq => by cases heq) (fun _ ha => by cases ha) (by simp)⟩
  · refine goes_of hc (fun _ _ _ _ => rfl) (fun _ _ _ => rfl) (fun a ha _ => ?_) (fun a ha _ => by cases ha)
    obtain rfl := Option.some.inj (hblock.symm.trans ha)
    exact hfalse
  · obtain ⟨-, -, rfl⟩ := h.unique hV' hV hcall
    exact .inr ⟨target, rfl⟩
  · have howns := (h.owns c.sender).give (some p.call)
    rw [State.block_call hc, hblock] at howns
    exact howns
  · by_cases hq : q' = c.targetRank
    · subst hq
      rw [Function.update_self] at hV'
      cases hV'
      exact ⟨hD, .inl rfl, hbuffer⟩
    · rw [Function.update_of_ne hq] at hV'
      exact absurd (h.unique hV' hV hcall).1 hq
  · by_cases hq : q' = c.targetRank
    · subst hq
      rw [Function.update_self] at hV'
      cases hV'
    · rw [Function.update_of_ne hq] at hV'
      exact absurd (h.unique hV' hV hcall).1 hq

/-- The answer to a call that has read it. -/
theorem known (h : Inv D R V S) (hc : S.calls[k]? = some c)
    (hpc : S.pc k = .memcpy target ∨ ∃ s, S.pc k = .write target s) :
    ∃ p, V c.targetRank = some (p, .known target) ∧ p.call = k ∧ S.Of p c := by
  obtain ⟨p, ph, hV, hcall, hof, hagrees⟩ := h.service hc (by obtain hpc | ⟨s, hpc⟩ := hpc <;> rw [hpc] <;> rfl)
    (by obtain hpc | ⟨s, hpc⟩ := hpc <;> rw [hpc] <;> simp)
  obtain rfl : ph = .known target := by
    obtain hpc | ⟨s, hpc⟩ := hpc <;> rw [hpc] at hagrees <;> cases ph with
    | known t =>
      obtain heq | ⟨s, heq⟩ | heq := hagrees <;> cases heq
      rfl
    | inHand => cases hagrees
    | replied t => cases hagrees
    | told t => obtain heq | heq := hagrees <;> cases heq
    | flying t => obtain ⟨s, heq⟩ | heq := hagrees <;> cases heq
  exact ⟨p, hV, hcall, hof⟩

theorem memcpy (h : Inv D R V S) (hc : S.calls[k]? = some c) (hpc : S.pc k = .memcpy target)
    (fresh : s ∉ (S.segment c.sender).allocated) :
    Inv D R V
      ((S.setSegment c.sender (((S.segment c.sender).allocate s).copy s c.pData)).setPc k (.write target s)) := by
  obtain ⟨p, hV, rfl, -⟩ := h.known hc (.inl hpc)
  have hmem : ∀ b, b ≠ s → (((S.segment c.sender).allocate s).copy s c.pData).memory b =
      (S.segment c.sender).memory b := fun b hb => Function.update_of_ne hb ..
  have hcopied : (((S.segment c.sender).allocate s).copy s c.pData).memory s =
      c.pData ++ ((S.segment c.sender).memory s).drop c.pData.length := Function.update_self ..
  refine h.goes ?_ rfl (elsewhere_same hV (by simp) h) (fun _ _ _ hp _ => .inl hp) (h.off_wire hV)
    (by rw [hpc]; rfl) (by simp) ((h.owns c.sender).take (some p.call) fresh) ?_ (fun _ => ⟨p, _, hV, rfl⟩)
    (fun q' p' t' hV' hcall => ?_) (fun d' s' heq => ?_) (fun a ha => ?_) (by simp)
  · refine goes_of hc (fun o a _ ha => hmem a ?_) (fun _ _ _ => rfl) (fun a ha _ => ?_) (fun a ha _ => ?_)
    · rintro rfl
      exact fresh ((h.owns c.sender).allocated o a ha)
    · rw [hpc] at ha; cases ha
    · cases ha
      exact ⟨h.unnotified fresh, h.unnotified fresh⟩
  · intro q' p' ph' hV' hcall
    obtain ⟨rfl, rfl, rfl⟩ := h.unique hV' hV hcall
    obtain ⟨hD, -, hbuffer⟩ := h.served _ _ _ hV
    exact ⟨hD, .inr (.inl ⟨s, rfl⟩), hbuffer⟩
  · obtain ⟨-, -, heq⟩ := h.unique hV' hV hcall
    cases heq
  · cases heq
    rw [hcopied, List.take_left]
  · cases ha
    exact h.unnotified fresh

/-- The source buffer is given back. -/
theorem returns (h : Inv D R V S) (hc : S.calls[k]? = some c) (hpc : S.pc k = .flushed s) :
    Inv D R V ((S.setSegment c.sender ((S.segment c.sender).release (some s))).setPc k .returned) := by
  have hblock : (S.pc k).block = some s := by rw [hpc]; rfl
  have hflying : ∀ q p ph, V q = some (p, ph) → p.call = k → ∃ d, ph = .flying d := by
    rintro q p ph hV rfl
    have hagrees := (h.served q p ph hV).2.1
    rw [hpc] at hagrees
    cases ph with
    | flying t => exact ⟨t, rfl⟩
    | inHand => cases hagrees
    | replied t => cases hagrees
    | told t => obtain heq | heq := hagrees <;> cases heq
    | known t => obtain heq | ⟨s, heq⟩ | heq := hagrees <;> cases heq
  have hfalse : (S.segment c.sender).notified s = false := by
    by_contra htrue
    obtain ⟨_, _, -, -, hwaits⟩ := h.notified _ c _ hc hblock (by simpa using htrue)
    rw [hpc] at hwaits; cases hwaits
  have hne : ∀ q p, V q = some (p, .inHand) → p.call ≠ k := by
    intro q p hV hcall
    obtain ⟨d, hd⟩ := hflying q p _ hV hcall
    cases hd
  refine h.goes ?_ rfl ⟨fun _ => rfl, fun _ _ _ _ => .rfl, hne, hne⟩ (fun _ _ _ hp _ => .inl hp)
    (h.off (by rw [hpc]; simp)) (by rw [hpc]; rfl) (by simp) ?_ (fun q p ph hV hcall => ?_)
    (fun hs => by cases hs) (fun q p d hV hcall => ?_) (fun _ _ heq => by cases heq) (fun _ ha => by cases ha) (by simp)
  · refine goes_of hc (fun _ _ _ _ => rfl) (fun _ _ _ => rfl) (fun a ha _ => ?_) (fun a ha _ => by cases ha)
    obtain rfl := Option.some.inj (hblock.symm.trans ha)
    exact hfalse
  · have howns := (h.owns c.sender).give (some k)
    rw [State.block_call hc, hblock] at howns
    exact howns
  · obtain ⟨d, rfl⟩ := hflying q p ph hV hcall
    obtain ⟨hD, -, hbuffer⟩ := h.served q p _ hV
    exact ⟨hD, .inr rfl, hbuffer⟩
  · obtain ⟨d', hd⟩ := hflying q p _ hV hcall
    cases hd

/-- The requested buffer of a call that is about to write. -/
theorem writing (h : Inv D R V S) (hc : S.calls[k]? = some c) (hpc : S.pc k = .write target s) :
    ∃ p, V c.targetRank = some (p, .known target) ∧ p.call = k ∧ p ∈ D c.targetRank ∧
      p.message.bytes = c.pData ∧ target.rank = c.targetRank ∧ target.size = c.pData.length ∧ target.Fits := by
  obtain ⟨p, hV, rfl, hof⟩ := h.known hc (.inr ⟨s, hpc⟩)
  obtain ⟨hD, -, hbuffer⟩ := h.served _ _ _ hV
  obtain ⟨hrank, hsize, hfits⟩ := hbuffer target rfl
  have hbytes : p.message.bytes = c.pData := congrArg Message.bytes hof.message
  exact ⟨p, hV, rfl, hD, hbytes, hrank, by rw [hsize, hbytes], hfits⟩

/-- The bytes are on their way to the requested buffer. -/
theorem write (h : Inv D R V S) (hc : S.calls[k]? = some c) (hpc : S.pc k = .write target s) :
    ∃ V', Inv D R V'
      ((S.setSegment target.rank ((S.segment target.rank).write target.offset
        (((S.segment c.sender).memory s).take c.pData.length))).setPc k (.flushed s)) := by
  obtain ⟨p, hV, rfl, hD, hbytes, hrank, hsize, hfits⟩ := h.writing hc hpc
  rw [h.copied _ c target s hc hpc, ← hbytes, hrank]
  have hheld := h.held hV (d := target) rfl
  have hg : Goes S p.call c (.flushed s) ((S.setSegment c.targetRank ((S.segment c.targetRank).write target.offset
      p.message.bytes)).setPc p.call (.flushed s)) :=
    goes_same hc rfl rfl (by rw [hpc]; rfl)
  have hself : ((S.setSegment c.targetRank ((S.segment c.targetRank).write target.offset
      p.message.bytes)).setPc p.call (.flushed s)).segment c.targetRank =
      (S.segment c.targetRank).write target.offset p.message.bytes := S.segment_setSegment ..
  have hother : ∀ r, r ≠ c.targetRank → ((S.setSegment c.targetRank ((S.segment c.targetRank).write target.offset
      p.message.bytes)).setPc p.call (.flushed s)).segment r = S.segment r :=
    fun r hr => State.segment_setSegment_of_ne hr
  have hE : Goes.Elsewhere V p.call (Function.update V c.targetRank (some (p, .flying target))) :=
    elsewhere_update hV h rfl (by simp) (by simp)
  have hmoved : ∀ {q p' ph}, V q = some (p', ph) → (∀ d, ph ≠ .known d) →
      Function.update V c.targetRank (some (p, .flying target)) q = some (p', ph) := by
    intro q p' ph hp hne
    refine (hE.others q p' ph fun hcall => ?_).mpr hp
    obtain ⟨-, -, rfl⟩ := h.unique hp hV hcall
    exact hne target rfl
  have hinFlight : ((S.segment c.targetRank).write target.offset p.message.bytes).inFlight =
      (S.segment c.targetRank).inFlight ++ [(target.offset, p.message.bytes)] := rfl
  refine ⟨_, hg.inv h hE (h.off_wire hV) (by rw [hpc]; rfl) (by simp) (fun r => ?_) (fun q' p' ph' hV' hcall => ?_)
    (fun hs => by cases hs) (fun q' p' t' hV' hcall => ?_) (fun _ _ heq => by cases heq) (fun a ha hnot => ?_)
    (fun r op hop => ?_) (fun r => ?_) (by simp)⟩
  · rw [State.block_setPc_same (S := S.setSegment c.targetRank _) hc (by rw [State.setSegment_pc, hpc]; rfl),
      State.block_setSegment]
    by_cases hr : r = c.targetRank
    · rw [hr, hself]; exact h.owns c.targetRank
    · rw [hother r hr]; exact h.owns r
  · by_cases hq : q' = c.targetRank
    · subst hq
      rw [Function.update_self] at hV'
      cases hV'
      refine ⟨hD, .inl ⟨s, rfl⟩, fun d hd => ?_⟩
      cases hd
      exact ⟨hrank, hsize.trans (congrArg List.length hbytes.symm), hfits⟩
    · rw [Function.update_of_ne hq] at hV'
      exact absurd (h.unique hV' hV hcall).1 hq
  · by_cases hq : q' = c.targetRank
    · subst hq
      rw [Function.update_self] at hV'
      cases hV'
    · rw [Function.update_of_ne hq] at hV'
      exact absurd (h.unique hV' hV hcall).1 hq
  · cases ha
    have hblock : (S.pc p.call).block = some s := by rw [hpc]; rfl
    have hnot' : (S.segment c.sender).notified s = true := by
      by_cases hr : c.sender = c.targetRank
      · rw [hr] at hnot ⊢
        rw [hself] at hnot; exact hnot
      · rw [hother _ hr] at hnot; exact hnot
    obtain ⟨_, _, -, -, hwaits⟩ := h.notified _ c s hc hblock hnot'
    rw [hpc] at hwaits; cases hwaits
  · have hold : op ∈ (S.segment r).inFlight →
        Flight (Function.update V c.targetRank (some (p, .flying target))) r op := fun hop => by
      obtain ⟨q, p', d, hp, hrest⟩ | ⟨p', d, hp, hrest⟩ := h.flights r op hop
      · exact .inl ⟨q, p', d, hmoved hp (by simp), hrest⟩
      · exact .inr ⟨p', d, hmoved hp (by simp), hrest⟩
    by_cases hr : r = c.targetRank
    · subst hr
      rw [hself, hinFlight] at hop
      obtain hop | hop := List.mem_append.mp hop
      · exact hold hop
      · obtain rfl := List.mem_singleton.mp hop
        exact .inr ⟨p, target, Function.update_self .., rfl⟩
    · rw [hother r hr] at hop
      exact hold hop
  · by_cases hr : r = c.targetRank
    · subst hr
      rw [hself, hinFlight, List.map_append, List.nodup_append]
      refine ⟨h.single _, List.nodup_singleton _, fun a ha b hb hab => ?_⟩
      obtain ⟨op, hop, rfl⟩ := List.mem_map.mp ha
      obtain rfl := List.mem_singleton.mp hb
      -- the requested buffer is not yet written to
      obtain ⟨q, p', d, -, -, hblock, -⟩ | ⟨p', d, hp', -, -⟩ := h.flight_owned hop
      · exact (h.owns _).ne hblock hheld (by simp) hab
      · rw [hV] at hp'; cases hp'
    · rw [hother r hr]; exact h.single r

/-- There is no memory for the `DATE`: nothing is announced, and nobody answers. -/
theorem dateRefused (h : Inv D R V S) (hc : S.calls[k]? = some c) (hpc : S.pc k = .sendPassive d) :
    Inv D R V
      ((S.setSegment c.sender ((S.segment c.sender).release (some d.offset))).setPc k (.refused false)) := by
  have hblock : (S.pc k).block = some d.offset := by rw [hpc]; rfl
  have hunanswered : ∀ q p ph, V q = some (p, ph) → p.call ≠ k := by
    rintro q p ph hV rfl
    obtain ⟨-, -, hann⟩ := h.posted.received q p (h.served q p ph hV).1
    rw [hpc] at hann; cases hann
  have hfalse : (S.segment c.sender).notified d.offset = false := by
    by_contra htrue
    obtain ⟨_, _, -, -, hwaits⟩ := h.notified _ c _ hc hblock (by simpa using htrue)
    rw [hpc] at hwaits; cases hwaits
  refine h.goes ?_ rfl ⟨fun _ => rfl, fun _ _ _ _ => .rfl, fun q p => hunanswered q p _, fun q p => hunanswered q p _⟩
    (fun _ _ _ hp _ => .inl hp) (h.off (by rw [hpc]; simp)) (by rw [hpc]; rfl) (by simp) ?_
    (fun q p ph hV hcall => absurd hcall (hunanswered q p ph hV)) (fun hs => by cases hs)
    (fun q p _ hV hcall => absurd hcall (hunanswered q p _ hV)) (fun _ _ heq => by cases heq)
    (fun _ ha => by cases ha) (by simp)
  · refine goes_of hc (fun _ _ _ _ => rfl) (fun _ _ _ => rfl) (fun a ha _ => ?_) (fun a ha _ => by cases ha)
    obtain rfl := Option.some.inj (hblock.symm.trans ha)
    exact hfalse
  · have howns := (h.owns c.sender).give (some k)
    rw [State.block_call hc, hblock] at howns
    exact howns

/-- The bytes will never be written, and the requested buffer waits for them. -/
theorem sourceRefused (h : Inv D R V S) (hc : S.calls[k]? = some c) (hpc : S.pc k = .memcpy target) :
    Inv D R V (S.setPc k (.refused true)) := by
  obtain ⟨p, hV, rfl, -⟩ := h.known hc (.inl hpc)
  have hsame : S.setSegment c.sender (S.segment c.sender) = S := S.setSegment_segment c.sender
  have hgoes : Inv D R V ((S.setSegment c.sender (S.segment c.sender)).setPc p.call (.refused true)) := h.goes
    (goes_same hc rfl rfl (by rw [hpc]; rfl)) rfl (elsewhere_same hV (by simp) h) (fun _ _ _ hp _ => .inl hp)
    (h.off_wire hV) (by rw [hpc]; rfl) (by simp) ?_ ?_ (fun hs => by cases hs) (fun _ _ _ hp _ => ⟨hp, rfl⟩)
    (fun _ _ heq => by cases heq) (fun _ ha => by cases ha) (by simp)
  · rw [hsame] at hgoes
    exact hgoes
  · have hnone : (SendPc.refused true).block = S.block c.sender (some p.call) := by
      rw [State.block_call hc, hpc]; rfl
    rw [hnone, Function.update_eq_self]
    exact h.owns c.sender
  · intro q' p' ph' hV' hcall
    obtain ⟨rfl, rfl, rfl⟩ := h.unique hV' hV hcall
    obtain ⟨hD, -, hbuffer⟩ := h.served _ _ _ hV
    exact ⟨hD, .inr (.inr rfl), hbuffer⟩

/-- The `DATE` goes on the wire. -/
theorem sendPassive (h : Inv D R V S) (hc : S.calls[k]? = some c) (hpc : S.pc k = .sendPassive d) :
    Inv D R V
      { S.setPc k (.waitForNotification d) with wire := S.wire ++ [⟨k, c.targetRank, c.message, d⟩] } := by
  have hblock : (S.setPc k (.waitForNotification d)).block = S.block := by
    funext r
    exact State.block_setPc_same hc (by rw [hpc]; rfl) r
  have hself : (S.setPc k (.waitForNotification d)).pc k = .waitForNotification d := Function.update_self ..
  have hother : ∀ j, j ≠ k → (S.setPc k (.waitForNotification d)).pc j = S.pc j :=
    fun j hj => Function.update_of_ne hj ..
  have hwire : ∀ p ∈ S.wire, p.call ≠ k := h.off (by rw [hpc]; simp)
  have hD : ∀ q, ∀ p ∈ D q, p.call ≠ k := by
    rintro q p hp rfl
    obtain ⟨-, -, hann⟩ := h.posted.received q p hp
    rw [hpc] at hann; cases hann
  obtain ⟨hrank, hsize⟩ := h.temp k c d hc hpc
  refine
    { posted := ?_
      hand := fun q => h.hand_congr q ⟨(S.ranks q).requested, rfl⟩ (fun _ _ => rfl) rfl fun a => ?_
      owns := fun r => ?_
      served := fun q p ph hV => ?_
      serving := fun j c' hc' hs => ?_
      request := h.request
      inHand := h.inHand
      told := h.told
      copied := fun j c' t s hc' hw => ?_
      notified := fun j c' a hc' ha hnot => ?_
      flights := h.flights
      single := h.single
      temp := fun j c' t hc' ht => ?_
      small := h.small
      threw := fun j => ?_ }
  · refine ⟨fun p hp => ?_, fun q p hp => ?_, fun q => ?_, fun j c' hc' hann => ?_⟩
    · obtain hp | hp := List.mem_append.mp hp
      · obtain ⟨c', hc', hw⟩ := h.posted.wire p hp
        exact ⟨c', { hc' with }, (hother _ (hwire p hp)).trans hw⟩
      · obtain rfl := List.mem_singleton.mp hp
        exact ⟨c, ⟨hc, rfl, rfl, hrank, hsize⟩, hself⟩
    · obtain ⟨hq, ⟨c', hc'⟩, hann⟩ := h.posted.received q p hp
      exact ⟨hq, ⟨c', { hc' with }⟩, (congrArg SendPc.announced (hother _ (hD q p hp))).trans hann⟩
    · have honce := h.posted.once q
      rw [List.map_append] at honce
      rw [List.append_assoc, List.singleton_append, List.map_append, List.map_cons, List.nodup_middle,
        List.nodup_cons]
      refine ⟨fun hk => ?_, honce⟩
      obtain hk | hk := List.mem_append.mp hk
      · obtain ⟨p, hp, hcall⟩ := List.mem_map.mp hk
        exact hwire p hp hcall
      · obtain ⟨p, hp, hcall⟩ := List.mem_map.mp hk
        exact hD q p hp hcall
    · by_cases hj : j = k
      · exact .inl ⟨_, List.mem_append_right _ List.mem_cons_self, hj.symm⟩
      · obtain ⟨p, hp, hcall⟩ | hp := h.posted.kept j c' hc' (hother j hj ▸ hann)
        · exact .inl ⟨p, List.mem_append_left _ hp, hcall⟩
        · exact .inr hp
  · show _ ∧ (∀ j, (S.setPc k (.waitForNotification d)).block q (some j) ≠ some a) ↔ _
    rw [hblock]
    exact .rfl
  · exact (congrFun hblock r).symm ▸ h.owns r
  · obtain ⟨hp, hagrees, hbuffer⟩ := h.served q p ph hV
    exact ⟨hp, (hother _ (hD q p hp)).symm ▸ hagrees, hbuffer⟩
  · by_cases hj : j = k
    · exact .inl ⟨_, List.mem_append_right _ List.mem_cons_self, hj.symm⟩
    · obtain ⟨p, hp, hcall⟩ | hp := h.serving j c' hc' (hother j hj ▸ hs)
      · exact .inl ⟨p, List.mem_append_left _ hp, hcall⟩
      · exact .inr hp
  · by_cases hj : j = k
    · subst hj
      cases hself.symm.trans hw
    · exact h.copied j c' t s hc' ((hother j hj).symm.trans hw)
  · by_cases hj : j = k
    · subst hj
      obtain ⟨_, _, -, -, hwaits⟩ := h.notified j c' a hc' (by rw [hpc]; exact (congrArg SendPc.block hself).symm.trans ha) hnot
      rw [hpc] at hwaits; cases hwaits
    · obtain ⟨p, t, hp, hcall, hwaits⟩ := h.notified j c' a hc' (hother j hj ▸ ha) hnot
      exact ⟨p, t, hp, hcall, (hother j hj).trans hwaits⟩
  · by_cases hj : j = k
    · subst hj
      cases hself.symm.trans ht
    · exact h.temp j c' t hc' ((hother j hj).symm.trans ht)
  · by_cases hj : j = k
    · subst hj
      exact fun hthrew => by cases hself.symm.trans hthrew
    · exact fun hthrew => h.threw j ((hother j hj).symm.trans hthrew)

/-- A new call, with its temporary buffer. -/
theorem sendMessg {sender targetRank : Rank} {pData : List UInt8} (h : Inv D R V S)
    (new : S.New sender BufferDescription.serializedSize d) (hsmall : pData.length < 2 ^ 31) :
    Inv D R V
      { (S.setSegment sender ((S.segment sender).allocate d.offset)).setPc S.calls.length (.sendPassive d) with
        calls := S.calls ++ [⟨sender, targetRank, pData⟩] } := by
  generalize hT : ({ (S.setSegment sender ((S.segment sender).allocate d.offset)).setPc S.calls.length
    (.sendPassive d) with calls := S.calls ++ [⟨sender, targetRank, pData⟩] } : State) = T
  have hcalls : T.calls = S.calls ++ [⟨sender, targetRank, pData⟩] := by rw [← hT]
  have hself : T.pc S.calls.length = .sendPassive d := by rw [← hT]; exact Function.update_self ..
  have hother : ∀ j, j ≠ S.calls.length → T.pc j = S.pc j := by
    intro j hj
    rw [← hT]; exact Function.update_of_ne hj ..
  have hold : ∀ {j c}, S.calls[j]? = some c → j ≠ S.calls.length ∧ T.calls[j]? = some c := by
    intro j c hc
    have hlt := (List.getElem?_eq_some_iff.mp hc).1
    exact ⟨by omega, by rw [hcalls, List.getElem?_append_left hlt]; exact hc⟩
  have hnew : ∀ {j c}, T.calls[j]? = some c → S.calls[j]? = some c ∧ j ≠ S.calls.length ∨
      j = S.calls.length ∧ c = ⟨sender, targetRank, pData⟩ := by
    intro j c hc
    rw [hcalls] at hc
    by_cases hlt : j < S.calls.length
    · rw [List.getElem?_append_left hlt] at hc
      exact .inl ⟨hc, by omega⟩
    · rw [List.getElem?_append_right (by omega)] at hc
      obtain ⟨hlen, hc⟩ := List.getElem?_eq_some_iff.mp hc
      have hj : j = S.calls.length := by
        have : j - S.calls.length < 1 := hlen
        omega
      subst hj
      refine .inr ⟨rfl, ?_⟩
      rw [← hc]
      simp
  have hof : ∀ {p c}, S.Of p c → T.Of p c ∧ p.call ≠ S.calls.length := fun {p c} hc =>
    ⟨{ hc with call := (hold hc.call).2 }, (hold hc.call).1⟩
  have hwire : T.wire = S.wire := by rw [← hT]; rfl
  have hdate : T.date = S.date := by rw [← hT]; rfl
  have hranks : ∀ q, ∃ N, T.ranks q = { S.ranks q with requested := N } := by
    rw [← hT]
    exact S.ranks_setSegment sender _
  have hpassive : ∀ q, (T.ranks q).passive = (S.ranks q).passive := by
    intro q
    obtain ⟨N, hN⟩ := hranks q
    rw [hN]
  have hsegment : ∀ r, (T.segment r).memory = (S.segment r).memory ∧
      (T.segment r).notified = (S.segment r).notified ∧ (T.segment r).inFlight = (S.segment r).inFlight := by
    intro r
    rw [← hT]
    have hsame : ∀ {α : Type} (f : Requested → α), f ((S.segment sender).allocate d.offset) = f (S.segment sender) →
        f ((S.setSegment sender ((S.segment sender).allocate d.offset)).segment r) = f (S.segment r) :=
      fun f hf => State.setSegment_same f hf r
    exact ⟨hsame Requested.memory rfl, hsame Requested.notified rfl, hsame Requested.inFlight rfl⟩
  have hnone : ∀ r, S.block r (some S.calls.length) = none := by
    intro r
    unfold State.block
    dsimp only
    rw [List.getElem?_eq_none (Nat.le_refl _)]
  have hblock : ∀ r o, o ≠ some S.calls.length → T.block r o = S.block r o := by
    intro r o ho
    cases o with
    | none =>
      obtain ⟨N, hN⟩ := hranks r
      unfold State.block
      rw [hN]; rfl
    | some j =>
      have hj : j ≠ S.calls.length := fun heq => ho (congrArg some heq)
      unfold State.block
      dsimp only
      rw [hother j hj, hcalls]
      by_cases hlt : j < S.calls.length
      · rw [List.getElem?_append_left hlt]
      · rw [List.getElem?_eq_none (by simp; omega), List.getElem?_eq_none (by omega)]
  have hlast : T.calls[S.calls.length]? = some ⟨sender, targetRank, pData⟩ := by
    rw [hcalls, List.getElem?_concat_length]
  have hblock' : ∀ r, T.block r (some S.calls.length) = if r = sender then some d.offset else none := by
    intro r
    unfold State.block
    dsimp only
    rw [hlast]
    dsimp only
    rw [hself]
    by_cases hr : r = sender
    · rw [if_pos hr, if_pos hr.symm]; rfl
    · rw [if_neg hr, if_neg (Ne.symm hr)]
  have hunnotified : (S.segment sender).notified d.offset = false := h.unnotified new.fresh
  refine
    { posted := ⟨fun p hp => ?_, fun q p hp => ?_, fun q => hwire ▸ h.posted.once q, fun j c hc hann => ?_⟩
      hand := fun q => h.hand_congr q (hranks q) (fun b _ => congrFun (hsegment q).1 b) rfl ?_
      owns := fun r => ?_
      served := fun q p ph hV => ?_
      serving := fun j c hc hs => ?_
      request := fun q m hm => ?_
      inHand := fun q p hV => (hpassive q).trans (h.inHand q p hV)
      told := fun q p t hV => ?_
      copied := fun j c t s hc hw => ?_
      notified := fun j c a hc ha hnot => ?_
      flights := fun r op hop => h.flights r op ((hsegment r).2.2 ▸ hop)
      single := fun r => (hsegment r).2.2.symm ▸ h.single r
      temp := fun j c t hc ht => ?_
      small := fun c hc => ?_
      threw := fun j => ?_ }
  · obtain ⟨c, hc, hw⟩ := h.posted.wire p (hwire ▸ hp)
    exact ⟨c, (hof hc).1, (hother _ (hof hc).2).trans hw⟩
  · obtain ⟨hq, ⟨c, hc⟩, hann⟩ := h.posted.received q p hp
    exact ⟨hq, ⟨c, (hof hc).1⟩, (congrArg SendPc.announced (hother _ (hof hc).2)).trans hann⟩
  · obtain ⟨hc, hj⟩ | ⟨rfl, -⟩ := hnew hc
    · rw [hwire]
      exact h.posted.kept j c hc (hother j hj ▸ hann)
    · rw [hself] at hann; cases hann
  · refine notified_congr (k := S.calls.length) (fun j hj => hblock q _ (by simpa using hj))
      (fun a _ _ => congrFun (hsegment q).2.1 a) (fun a ha => ?_) (fun a ha _ => ?_)
    · rw [hnone q] at ha; cases ha
    · rw [hblock' q] at ha
      split at ha
      · next hq =>
        cases ha
        rw [hq]; exact hunnotified
      · cases ha
  · by_cases hr : r = sender
    · have hown : T.block r = Function.update (S.block r) (some S.calls.length) (some d.offset) := by
        funext o
        by_cases ho : o = some S.calls.length
        · rw [ho, Function.update_self, hblock', if_pos hr]
        · rw [Function.update_of_ne ho, hblock r o ho]
      have hallocated : (T.segment r).allocated = insert d.offset (S.segment r).allocated := by
        rw [← hT, hr]
        exact congrArg Requested.allocated (S.segment_setSegment sender _)
      rw [hown, hallocated]
      exact (h.owns r).take _ (hr ▸ new.fresh)
    · have hown : T.block r = S.block r := by
        funext o
        by_cases ho : o = some S.calls.length
        · rw [ho, hnone, hblock', if_neg hr]
        · exact hblock r o ho
      have hallocated : (T.segment r).allocated = (S.segment r).allocated := by
        rw [← hT]
        exact congrArg Requested.allocated (State.segment_setSegment_of_ne hr)
      rw [hown, hallocated]
      exact h.owns r
  · obtain ⟨hp, hagrees, hbuffer⟩ := h.served q p ph hV
    obtain ⟨c, hc, -⟩ := h.of hV
    exact ⟨hp, (hother _ (hof hc).2).symm ▸ hagrees, hbuffer⟩
  · obtain ⟨hc, hj⟩ | ⟨rfl, -⟩ := hnew hc
    · rw [hwire]
      exact h.serving j c hc (hother j hj ▸ hs)
    · rw [hself] at hs; cases hs
  · rw [hpassive] at hm
    rw [hdate]
    exact h.request q m hm
  · rw [(hsegment _).1]
    exact h.told q p t hV
  · obtain ⟨hc, hj⟩ | ⟨rfl, -⟩ := hnew hc
    · rw [(hsegment _).1]
      exact h.copied j c t s hc ((hother j hj).symm.trans hw)
    · rw [hself] at hw; cases hw
  · obtain ⟨hc, hj⟩ | ⟨rfl, rfl⟩ := hnew hc
    · rw [hother j hj] at ha ⊢
      exact h.notified j c a hc ha ((congrFun (hsegment _).2.1 a).symm.trans hnot)
    · rw [hself] at ha
      cases ha
      exact absurd (hunnotified.symm.trans ((congrFun (hsegment _).2.1 _).symm.trans hnot)) (by decide)
  · obtain ⟨hc, hj⟩ | ⟨rfl, rfl⟩ := hnew hc
    · exact h.temp j c t hc ((hother j hj).symm.trans ht)
    · rw [hself] at ht
      cases ht
      exact ⟨new.rank, new.size⟩
  · rw [hcalls] at hc
    obtain hc | hc := List.mem_append.mp hc
    · exact h.small c hc
    · obtain rfl := List.mem_singleton.mp hc
      exact hsmall
  · by_cases hj : j = S.calls.length
    · rw [hj, hself]; simp
    · rw [hother j hj]; exact h.threw j

end GaspiCxx.Passive.Messaging.Inv
