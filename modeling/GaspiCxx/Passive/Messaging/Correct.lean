import GaspiCxx.Passive.Messaging.Answers

/-!
# Every message arrives

**Whatever the order of the steps, `recvMessg` returns the messages of distinct
calls of `sendMessg` to its rank, unmodified and in the order they were received,
and none is lost** (`messages_delivered`). All ranks may send and receive at once,
also to themselves and from several threads, and any allocation may be refused.
-/

namespace GaspiCxx.Passive.Messaging

open Runs RecvMessg

section

variable {D : Rank → List Packet} {R : Rank → List (List UInt8 × Int)} {V : Service} {S T : State} {l : Label}
  {ls : List Label} {tag size rank : Rank → Int} {allocated : Rank → Finset Address}
  {memory : Rank → Address → List UInt8}

namespace Inv

theorem constructed : Inv (fun _ => []) (fun _ => []) (fun _ => none) (.constructed tag size rank allocated memory) where
  posted :=
    { wire := fun _ hp => by cases hp
      received := fun _ _ hp => by cases hp
      once := fun _ => List.nodup_nil
      kept := fun _ _ hc => by cases hc }
  hand q := ⟨_, _, _, RecvMessg.Inv.constructed .., rfl, rfl, fun a => by
    constructor
    · intro hn; cases hn
    · rintro ⟨hn, -⟩; cases hn⟩
  owns r :=
    { allocated := fun o b hb => by cases o <;> cases hb
      apart := fun o o' b hb => by cases o <;> cases hb }
  served _ _ _ hV := by cases hV
  serving _ _ hc := by cases hc
  request _ _ hm := by cases hm
  inHand _ _ hV := by cases hV
  told _ _ _ hV := by cases hV
  copied _ _ _ _ hc := by cases hc
  notified _ _ _ hc := by cases hc
  flights _ _ hop := by cases hop
  single _ := List.nodup_nil
  temp _ _ _ hc := by cases hc
  small _ hc := by cases hc
  threw _ h := by cases h

/-- Nothing is received or returned. -/
theorem silent (h : Inv D R V S) (hd : ∀ q, l.received q = none) (hr : ∀ q, l.returned q = none) :
    Inv (fun q => D q ++ (l.received q).toList) (fun q => R q ++ (l.returned q).toList) V S := by
  have hD : (fun q => D q ++ (l.received q).toList) = D := by
    funext q
    rw [hd q]
    exact List.append_nil _
  have hR : (fun q => R q ++ (l.returned q).toList) = R := by
    funext q
    rw [hr q]
    exact List.append_nil _
  rw [hD, hR]
  exact h

theorem step (h : Inv D R V S) (hs : Step S l T) (hl : l.Regular) :
    (l ≠ .throws ∧ ∀ q, l ≠ .thread q .throws) ∧
      ∃ V', Inv (fun q => D q ++ (l.received q).toList) (fun q => R q ++ (l.returned q).toList) V' T := by
  cases hs with
  | sendMessg new => exact ⟨⟨by simp, by simp⟩, _, (h.sendMessg new hl).silent (fun _ => rfl) fun _ => rfl⟩
  | tempRefused => exact ⟨⟨by simp, by simp⟩, V, h.silent (fun _ => rfl) fun _ => rfl⟩
  | sendPassive hc hpc => exact ⟨⟨by simp, by simp⟩, _, (h.sendPassive hc hpc).silent (fun _ => rfl) fun _ => rfl⟩
  | dateRefused hc hpc => exact ⟨⟨by simp, by simp⟩, _, (h.dateRefused hc hpc).silent (fun _ => rfl) fun _ => rfl⟩
  | waitForNotification hc hpc arrived =>
    exact ⟨⟨by simp, by simp⟩, _, (h.waitForNotification hc hpc arrived).silent (fun _ => rfl) fun _ => rfl⟩
  | deserialize hc hpc read =>
    obtain ⟨V', h'⟩ := h.deserialize hc hpc read
    exact ⟨⟨by simp, by simp⟩, V', h'.silent (fun _ => rfl) fun _ => rfl⟩
  | memcpy hc hpc fresh =>
    exact ⟨⟨by simp, by simp⟩, _, (h.memcpy hc hpc fresh).silent (fun _ => rfl) fun _ => rfl⟩
  | sourceRefused hc hpc =>
    exact ⟨⟨by simp, by simp⟩, _, (h.sourceRefused hc hpc).silent (fun _ => rfl) fun _ => rfl⟩
  | write hc hpc room =>
    obtain ⟨V', h'⟩ := h.write hc hpc
    exact ⟨⟨by simp, by simp⟩, V', h'.silent (fun _ => rfl) fun _ => rfl⟩
  | writeThrows hc hpc room =>
    obtain ⟨-, -, -, -, -, -, hsize, -⟩ := h.writing hc hpc
    omega
  | returns hc hpc => exact ⟨⟨by simp, by simp⟩, _, (h.returns hc hpc).silent (fun _ => rfl) fun _ => rfl⟩
  | @recvPassive p before after hw hp =>
    obtain ⟨V', h'⟩ := h.recvPassive hw hp
    have hD : (fun q => D q ++ ((Label.receives p).received q).toList) =
        Function.update D p.targetRank (D p.targetRank ++ [p]) := by
      funext q
      unfold Label.received
      dsimp only
      by_cases hq : q = p.targetRank
      · rw [hq, Function.update_self, if_pos rfl]; rfl
      · rw [Function.update_of_ne hq, if_neg (Ne.symm hq)]
        exact List.append_nil _
    have hR : (fun q => R q ++ ((Label.receives p).returned q).toList) = R := funext fun _ => List.append_nil _
    rw [hD, hR]
    exact ⟨⟨by simp, by simp⟩, V', h'⟩
  | request hp hdate new fresh room =>
    refine ⟨⟨by simp, by simp⟩, _, Inv.silent (h.request_step hp hdate new fresh fun hm => ?_)
      (fun _ => rfl) fun _ => rfl⟩
    subst hm
    exact replies _ _ _ _ _ rfl
  | requestThrows hp hdate room =>
    obtain ⟨p', hV, hdate', -⟩ := h.request _ _ hp
    obtain rfl := Option.some.inj (hdate.symm.trans hdate')
    obtain ⟨c, hc, -⟩ := h.of hV
    have := hc.size
    omega
  | passiveRefused => exact ⟨⟨by simp, by simp⟩, V, (h.terminates _).silent (fun _ => rfl) fun _ => rfl⟩
  | @thread q l U hs hown =>
    have hnothrow : l ≠ .throws := by
      rintro rfl
      obtain ⟨e, he⟩ := hs.effect hown
      obtain ⟨N, n, i, hi, hsees⟩ := h.hand q
      have hstep := he.anywhere N hsees.memory fun b hb => by
        have hmine : S.block q none = some b := hi.held_of_holds hb
        rw [Bool.eq_iff_iff, hsees.notified b]
        exact and_iff_left fun k hk => (h.owns q).ne hk hmine (by simp) rfl
      exact hi.not_throws hstep
    have hD : (fun q' => D q' ++ ((Label.thread q l).received q').toList) = D := funext fun _ => List.append_nil _
    have hR : (fun q' => R q' ++ ((Label.thread q l).returned q').toList) =
        Function.update R q (R q ++ l.returned.toList) := by
      funext q'
      unfold Label.returned
      dsimp only
      by_cases hq : q' = q
      · rw [hq, Function.update_self, if_pos rfl]
      · rw [Function.update_of_ne hq, if_neg (Ne.symm hq)]
        exact List.append_nil _
    rw [hD, hR]
    refine ⟨⟨by simp, fun q' heq => ?_⟩, V, h.thread hs hown hl⟩
    injection heq with _ heq
    exact hnothrow heq
  | deliver hf =>
    obtain ⟨V', h'⟩ := h.deliver hf
    exact ⟨⟨by simp, by simp⟩, V', h'.silent (fun _ => rfl) fun _ => rfl⟩

/-- What the invariant says about a run. -/
theorem delivered (h : Inv (fun q => received q ls) (fun q => returned q ls) V S)
    (hthrows : .throws ∉ ls ∧ ∀ q, .thread q .throws ∉ ls) : Delivered ls S where
  returned q := by
    obtain ⟨N, n, i, hi, -⟩ := h.hand q
    have hresults := hi.results
    rw [List.map_map] at hresults
    exact hresults
  sent q p hp := by
    obtain ⟨hq, ⟨c, hc⟩, -⟩ := h.posted.received q p hp
    exact ⟨c, hc.call, hc.targetRank.symm.trans hq, hc.message⟩
  once q := by
    have honce := h.posted.once q
    rw [List.map_append, List.nodup_append] at honce
    exact honce.2.1
  announced q p hp := (h.posted.received q p hp).2.2
  kept := h.posted.kept
  done k c hc hpc := by
    obtain ⟨p, hp, hcall⟩ | hp := h.posted.kept k c hc (by rw [hpc]; rfl)
    · exact absurd hcall (h.off (by rw [hpc]; simp) p hp)
    · exact hp
  live r op hop := by
    obtain ⟨_, _, _, -, -, hblock, -⟩ | ⟨_, _, -, hblock, -⟩ := h.flight_owned hop
    · exact (h.owns r).allocated _ _ hblock
    · exact (h.owns r).allocated _ _ hblock
  throws := hthrows
  crashed q hcrashed := by
    obtain ⟨N, n, i, hi, -⟩ := h.hand q
    have hknows : (S.ranks q).user.Knows _ := hi.knows
    rw [hcrashed] at hknows
    exact hknows

end Inv

theorem run_inv (h : Trace Step (.constructed tag size rank allocated memory) ls S) (hl : ∀ l ∈ ls, l.Regular) :
    (.throws ∉ ls ∧ ∀ q, .thread q .throws ∉ ls) ∧
      ∃ V, Inv (fun q => received q ls) (fun q => returned q ls) V S := by
  refine h.history
    (P := fun ls S => (∀ l ∈ ls, l.Regular) → (.throws ∉ ls ∧ ∀ q, .thread q .throws ∉ ls) ∧
      ∃ V, Inv (fun q => received q ls) (fun q => returned q ls) V S)
    (fun _ => ⟨⟨by simp, by simp⟩, _, .constructed⟩) ?_ hl
  intro ls S l T ih hs hl
  obtain ⟨⟨hthrows, hthread⟩, V, hV⟩ := ih fun k hk => hl k (List.mem_append_left _ hk)
  obtain ⟨⟨hne, hne'⟩, V', hV'⟩ := hV.step hs (hl l (by simp))
  have hfilter : ∀ {α : Type} (f : Label → Option α), (ls ++ [l]).filterMap f = ls.filterMap f ++ (f l).toList := by
    intro α f
    rw [List.filterMap_append]
    cases hf : f l <;> simp [hf]
  refine ⟨⟨?_, fun q => ?_⟩, V', ?_⟩
  · simpa using ⟨hthrows, Ne.symm hne⟩
  · simpa using ⟨hthread q, Ne.symm (hne' q)⟩
  · unfold received returned at hV' ⊢
    simpa only [hfilter] using hV'

/-- In every run whose waits end by signals and whose sizes fit, wherever segments
refuse memory or ids: what `recvMessg` returns are the messages sent to its rank,
each once and unmodified; none that was announced is lost, no write arrives in
freed memory, nothing else is thrown and no null pointer followed. -/
theorem messages_delivered (h : Trace Step (.constructed tag size rank allocated memory) ls S)
    (hl : ∀ l ∈ ls, l.Regular) : Delivered ls S := by
  obtain ⟨hthrows, V, hV⟩ := run_inv h hl
  exact hV.delivered hthrows

/-- Rank 0 sends one byte to rank 1, at the second attempt. -/
def oneMessage : List Label :=
  [.refused 0 1 [7], .sendMessg 0 1 [7], .sends 0 (.waitForNotification ⟨0, 0, 0, 21, 0⟩),
    .receives ⟨0, 1, ⟨.DATE, 0, [7]⟩, ⟨0, 0, 0, 21, 0⟩⟩, .requests 1,
    .thread 1 (.stores .tag), .thread 1 (.stores .size), .thread 1 (.stores .rank), .thread 1 (.stores .ptr),
    .thread 1 (.enter .passive), .delivers 0 0, .sends 0 (.deserialize ⟨0, 0, 0, 21, 0⟩),
    .sends 0 (.memcpy ⟨1, 0, 0, 1, 0⟩), .sends 0 (.write ⟨1, 0, 0, 1, 0⟩ 0), .sends 0 (.flushed 0),
    .sends 0 .returned, .thread 1 .recvMessg, .thread 1 (.enter .user), .thread 1 (.leave .passive),
    .thread 1 (.reads .size), .thread 1 (.reads .rank), .thread 1 (.reads .ptr), .delivers 1 0,
    .thread 1 .waitForNotification, .thread 1 (.reads .ptr), .thread 1 (.reads .size), .thread 1 (.reads .ptr),
    .thread 1 (.enter .user), .thread 1 (.enter .passive), .thread 1 (.leave .user), .thread 1 (.returns [7] 0)]

theorem messages_delivered_one :
    ∃ S, Trace Step (.constructed (fun _ => 0) (fun _ => 0) (fun _ => 0) (fun _ => ∅) fun _ _ => []) oneMessage S ∧
      returned 1 oneMessage = [([7], 0)] ∧ Delivered oneMessage S := by
  have refused : Trace Step (.constructed (fun _ => 0) (fun _ => 0) (fun _ => 0) (fun _ => ∅) fun _ _ => [])
      [.refused 0 1 [7]] _ := Trace.single (.tempRefused _ rfl)
  have temp := refused.snoc (@Step.sendMessg _ 0 1 [7] ⟨0, 0, 0, 21, 0⟩
    ⟨rfl, rfl, by decide, by constructor <;> decide⟩ rfl)
  have announced := temp.snoc (.sendPassive _ (k := 0) rfl rfl rfl)
  have received := announced.snoc (.recvPassive _ (p := ⟨0, 1, ⟨.DATE, 0, [7]⟩, ⟨0, 0, 0, 21, 0⟩⟩)
    (show _ = [] ++ _ :: [] from rfl) rfl rfl)
  have requested := received.snoc (.request _ (q := 1) (d := ⟨1, 0, 0, 1, 0⟩) (s := 1) rfl rfl
    ⟨rfl, rfl, by decide, by constructor <;> decide⟩ (by decide) (by decide) rfl)
  have stored := (((requested.snoc (.thread _ (q := 1) (.store _ rfl) rfl rfl)).snoc
    (.thread _ (q := 1) (.store _ rfl) rfl rfl)).snoc (.thread _ (q := 1) (.store _ rfl) rfl rfl)).snoc
    (.thread _ (q := 1) (.store _ rfl) rfl rfl)
  have waiting := stored.snoc (.thread _ (q := 1) (.enter _ .passive rfl rfl) rfl rfl)
  have told := waiting.snoc (@Step.deliver _ 0 [] _ _ _ rfl)
  have known := (told.snoc (.waitForNotification _ (k := 0) rfl rfl rfl rfl)).snoc
    (@Step.deserialize _ 0 _ _ ⟨1, 0, 0, 1, 0⟩ rfl rfl (by decide) rfl)
  have sent := ((known.snoc (.memcpy _ (k := 0) (s := 0) rfl rfl (by decide) rfl)).snoc
    (.write _ (k := 0) rfl rfl (by decide) rfl)).snoc (.returns _ (k := 0) rfl rfl rfl)
  have met := ((sent.snoc (.thread _ (q := 1) (.recvMessg _ rfl) rfl rfl)).snoc
    (.thread _ (q := 1) (.enter _ .user rfl rfl) rfl rfl)).snoc (.thread _ (q := 1) (.leave _ .passive rfl) rfl rfl)
  have fields := ((met.snoc (.thread _ (q := 1) (.resize _ rfl (by decide)) rfl rfl)).snoc
    (.thread _ (q := 1) (.rank _ rfl) rfl rfl)).snoc (.thread _ (q := 1) (.ptr _ rfl) rfl rfl)
  have arrived := (fields.snoc (@Step.deliver _ 1 [] _ _ _ rfl)).snoc
    (.thread _ (q := 1) (.waitForNotification _ rfl rfl) rfl rfl)
  have copied := ((arrived.snoc (.thread _ (q := 1) (.address _ rfl) rfl rfl)).snoc
    (.thread _ (q := 1) (.memcpy _ rfl) rfl rfl)).snoc (.thread _ (q := 1) (.reset _ rfl) rfl rfl)
  have again := ((copied.snoc (.thread _ (q := 1) (.enter _ .user rfl rfl) rfl rfl)).snoc
    (.thread _ (q := 1) (.enter _ .passive rfl rfl) rfl rfl)).snoc (.thread _ (q := 1) (.leave _ .user rfl) rfl rfl)
  have whole : Trace Step _ oneMessage _ :=
    again.snoc (.thread _ (q := 1) (.returns _ (show _ = UserPc.returns [7] 0 from rfl)) rfl rfl)
  refine ⟨_, whole, rfl, messages_delivered whole ?_⟩
  simp [oneMessage, Label.Regular, RecvMessg.Label.Regular]

end

end GaspiCxx.Passive.Messaging
