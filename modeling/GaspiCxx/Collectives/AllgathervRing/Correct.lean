import GaspiCxx.Collectives.AllgathervRing.Preserved

/-!
# Correctness of the ring allgatherv

One run is correct under every interleaving. Over several runs a fast rank may
overwrite a block its right neighbour has received but not copied out; it does
not if every rank starts a run only when its right neighbour has copied out the
run before; without any elements there is nothing to overwrite.
-/

namespace GaspiCxx.Collectives.AllgathervRing

open OneSided SingleSided GroupUtilities AllgathervCommon

variable {n : Nat} {T : Type} (counts : Fin n → Nat) (input : Fin n → Nat → Nat → T)

/-- What one run promises. -/
structure OneRun (s : GroupSys n T) : Prop where
  output : ∀ r, (s.node r).state = .finished →
    Gathered counts (fun q => input q 0) (copyOutImpl counts r (s.node r).fields s.fabric)
  once : ∀ r, (s.node r).state = .finished → ∀ j, j < before counts n →
    (copies counts r s.fabric).countP (fun c => decide (Covers j c)) = 1
  outputs : ∀ r out, out ∈ (s.node r).outputs → Gathered counts (fun q => input q 0) out
  detached : ∀ r, (s.node r).state = .finished → (schedule counts).Detached s.fabric r
  live : s.fabric.Delivered → (∃ r, Unfinished (s.node r)) →
    ∃ r, Unfinished (s.node r) ∧ (allgatherv counts).Proceeds input s r

/-- Rank `r` has seen block `i` arrive, and has not yet both copied it out and
had it forwarded. -/
def Holding (s : GroupSys n T) (r : Fin n) (i : Nat) : Prop :=
  (s.node r).state = .running ∧ i < (s.node r).fields.current_step ∨ (s.node r).state = .finished ∨
    s.fabric.flight (.target (right r) (i + 1)) ≠ []

/-- What consecutive runs promise. -/
structure Isolated (s : GroupSys n T) : Prop where
  undisturbed : ∀ r i, i + 1 < n → Holding s r i → ∀ a t, (allgatherv counts).step input s a = some t →
    t.fabric.mem (.block r i) = s.fabric.mem (.block r i)
  outputs : ∀ r k out, (s.node r).outputs[k]? = some out → Gathered counts (fun q => input q k) out

/-! ## Nobody's call writes a received block -/

section

variable {counts input} {r q : Fin n} {i : Nat} {f : Fields T} {F : Net n T}

theorem copyInImpl_mem_block (inputs : Nat → T) :
    (copyInImpl counts q inputs f F).2.mem (.block r i) = F.mem (.block r i) := by
  unfold copyInImpl
  split
  · rfl
  · simp [wiring, Fabric.write_mem]

theorem startImpl_mem : (startImpl counts q f F).2.mem = F.mem := by
  unfold startImpl; split <;> rfl

theorem triggerProgressImpl_mem : (triggerProgressImpl counts q f F).2.2.mem = F.mem := by
  unfold triggerProgressImpl
  split
  · rfl
  · split
    · exact checkForTransferAck_mem
    · dsimp only
      split
      · exact checkForCompletion_mem
      · split <;> exact checkForCompletion_mem

theorem call_mem_block {s t : GroupSys n T} {c : Call}
    (h : (allgatherv counts).Stepped input s (.call q c) t) :
    t.fabric.mem (.block r i) = s.fabric.mem (.block r i) := by
  cases h with
  | waitForSetup | idle | copyOut => rfl
  | copyIn _ hc =>
    have hm : (copyInImpl counts q (input q (s.node q).run) (s.node q).fields s.fabric).2.mem (.block r i) =
        s.fabric.mem (.block r i) := copyInImpl_mem_block _
    rwa [show copyInImpl counts q (input q (s.node q).run) (s.node q).fields s.fabric = _ from hc] at hm
  | start _ hc =>
    have hm : (startImpl counts q (s.node q).fields s.fabric).2.mem = s.fabric.mem := startImpl_mem
    rw [show startImpl counts q (s.node q).fields s.fabric = _ from hc] at hm
    exact congrFun hm _
  | trigger _ hc =>
    have hm : (triggerProgressImpl counts q (s.node q).fields s.fabric).2.2.mem = s.fabric.mem :=
      triggerProgressImpl_mem
    rw [show triggerProgressImpl counts q (s.node q).fields s.fabric = _ from hc] at hm
    exact congrFun hm _

end

/-! ## What the invariant says to the outside -/

namespace Holds

variable {counts input} {s : GroupSys n T} {I : Channels (Port n) (Loc n) (List T)} {r : Fin n}

theorem observed_of_holding (h : Holds counts input s I) (hn : 2 ≤ n) {i : Nat} (hi : i + 1 < n)
    (hr : Holding s r i) : i + 1 < steps n (s.node r) := by
  rcases hr with ⟨hs, hc⟩ | hs | hf
  · simp only [steps, hs]; omega
  · simp only [steps, hs]; omega
  · have hlt := h.tracks.lt_of_flight hf
    have hu := (used_target _).mp (Schedule.used_of_lt hlt)
    rw [sent_target _ _ hu, taken_target _ _ hu, left_right] at hlt
    by_contra hle
    have := h.fresh hn r hu (show (progress s r).steps ≤ i + 1 by simp only [progress, progressOf]; omega)
    omega

theorem undisturbed (h : Holds counts input s I) (hn : 2 ≤ n) {i : Nat} (hi : i + 1 < n)
    (hr : Holding s r i) {a : Action (Fin n) (Port n)} {t : GroupSys n T}
    (ha : (allgatherv counts).step input s a = some t) :
    t.fabric.mem (.block r i) = s.fabric.mem (.block r i) := by
  cases a with
  | call q c => exact call_mem_block (Collective.stepped ha)
  | advance p j =>
    obtain ⟨F, hF, rfl⟩ := Option.map_eq_some_iff.mp ha
    have h' : Holds counts input { s with fabric := F } I :=
      ⟨h.tracks.advance hF, h.step_lt, h.own, h.block, h.ahead, h.outputs⟩
    have hst := h.observed_of_holding hn hi hr
    exact (h'.mem_block hi hst).trans (h.mem_block hi hst).symm

theorem detached (h : Holds counts input s I) (hn : 2 ≤ n) (hs : (s.node r).state = .finished) :
    (schedule counts).Detached s.fabric r := by
  have hst : ∀ i, i + 1 < n → i + 1 < steps n (s.node r) := by
    intro i hi; simp only [steps, hs]; omega
  have hrun : (progress s (right r)).passed (n - 1) = (s.node r).run + 1 := by
    have h1 := h.ack_le hn r
    have h2 := h.data_le r (i := n - 2) (by omega)
    have h3 : (progress s r).passed n = (s.node r).run + 1 :=
      Progress.passed_of_lt (by simp only [progress, progressOf, steps, hs]; omega)
    have h4 := (progress s r).passed_le (n - 2)
    rw [show n - 2 + 1 = n - 1 by omega] at h2
    simp only [progress, progressOf] at h2 h4 ⊢ h1 h3
    omega
  constructor
  · intro p hp
    by_contra hf
    have hlt := h.tracks.lt_of_flight hf
    have hu := Schedule.used_of_lt hlt
    cases p with
    | source q i =>
      obtain rfl : q = r := hp
      rw [used_source] at hu
      rw [sent_source _ _ hu, taken_source _ _ hu, hrun,
        Progress.passed_of_lt (by simp only [progress, progressOf, steps, hs]; omega)] at hlt
      exact Nat.lt_irrefl _ hlt
    | target q i =>
      obtain rfl : q = r := hp
      rw [used_target] at hu
      have := h.arrived hu (hst i hu)
      omega
  · intro p hc hp
    by_contra hf
    have hlt := h.tracks.lt_of_flight hf
    have hu := Schedule.used_of_lt hlt
    cases p with
    | source q i => simp [schedule, wiring] at hc
    | target q i =>
      obtain rfl : left q = r := hp
      rw [used_target] at hu
      rw [sent_target _ _ hu, taken_target _ _ hu] at hlt
      have h1 := (progress s q).passed_anti (show i + 1 ≤ n - 1 by omega)
      have h2 := (progress s (left q)).passed_le i
      rw [right_left] at hrun
      simp only [progress, progressOf] at *
      omega

theorem live (h : Holds counts input s I) (hn : 2 ≤ n) (hd : s.fabric.Delivered)
    (hu : ∃ r, Unfinished (s.node r)) :
    ∃ r, Unfinished (s.node r) ∧ (allgatherv counts).Proceeds input s r := by
  obtain ⟨r, h0, hfin, hr⟩ := exists_behind_in_run (fun _ => steps n) (fun _ => Nat.zero_le _)
    (fun r hs => steps_finished hs) (fun r hs => h.steps_lt hs) hu
  refine ⟨r, ⟨h0, hfin⟩, ?_⟩
  by_cases hs : (s.node r).state = .running
  · have hlt := h.step_lt r hs
    have hst : (progress s r).steps = (s.node r).fields.current_step + 1 := by simp [progress, progressOf, steps, hs]
    by_cases hlast : (s.node r).fields.current_step = n - 1
    · have hslot := Schedule.awaited (S := schedule counts) h.tracks (p := .source r (n - 2)) hr
        ((used_source r).mpr (by omega)) (by simp only [schedule]; omega) (by simp only [schedule]; omega) (hd _)
      exact Collective.proceeds_of_trigger hs
        (triggerProgressImpl_ack_set (by omega) hlast hslot) (.inl rfl)
    · have hslot := Schedule.awaited (S := schedule counts) h.tracks
        (p := .target r (s.node r).fields.current_step) hr
        ((used_target r).mpr (by omega)) (by simp only [schedule]; omega) (by simp only [schedule]; omega) (hd _)
      refine Collective.proceeds_of_trigger hs
        (triggerProgressImpl_target_set (by omega) hlast hslot) (.inr fun he => ?_)
      have := congrArg Fields.current_step he
      simp at this
  · exact Collective.proceeds_of_not_running hs

end Holds

/-! ## Nothing to gather -/

/-- Nothing in flight has read or stored any data. -/
def Posted (F : Net n T) : Prop := ∀ p, ∀ ph ∈ F.flight p, ph = .posted

section

variable {counts input} {r q : Fin n} {f : Fields T} {F G : Net n T}

theorem Posted.post (h : Posted F) (p : Port n) : Posted (F.post p) := by
  intro q ph hq
  rw [Fabric.post_flight] at hq
  split at hq
  · rcases List.mem_append.mp hq with hq | hq
    · exact h p ph hq
    · exact List.mem_singleton.mp hq
  · exact h q ph hq

theorem Posted.check (h : Posted F) (p : Port n) : Posted (checkForNotification F p).2 := by
  unfold checkForNotification
  split <;> exact h

theorem Posted.startImpl (h : Posted F) : Posted (startImpl counts r f F).2 := by
  unfold AllgathervRing.startImpl
  split
  · exact h.post _
  · exact h

theorem Posted.triggerProgressImpl (h : Posted F) : Posted (triggerProgressImpl counts r f F).2.2 := by
  unfold AllgathervRing.triggerProgressImpl
  split
  · exact h
  · split
    · exact h.check _
    · dsimp only
      split
      · exact h.check _
      · split <;> exact (h.check _).post _

theorem carries_of_zero (h0 : ∀ q, counts q = 0) (p : Port n) : (wiring counts).carries p = false := by
  cases p with
  | source => rfl
  | target q i => cases i <;> simp [wiring, bufferSize, h0]

/-- A bare notification touches no memory. -/
theorem Posted.advance (h : Posted F) (h0 : ∀ q, counts q = 0) {p : Port n} {i : Nat}
    (ha : F.advance (wiring counts) p i = some G) : Posted G ∧ G.mem = F.mem := by
  have hph : ∀ {ph}, (F.flight p)[i]? = some ph → ph = .posted := fun hi => h p _ (List.mem_of_getElem? hi)
  rcases Fabric.advance_cases ha with ⟨-, hc, -⟩ | ⟨-, -, rfl⟩ | ⟨v, hi, -⟩ | ⟨hi, -⟩
  · rw [carries_of_zero h0] at hc
    cases hc
  · refine ⟨fun q ph hq => ?_, rfl⟩
    by_cases hqp : q = p
    · subst hqp
      simp only [Fabric.notify, Function.update_self] at hq
      exact h q ph (List.mem_of_mem_eraseIdx hq)
    · simp only [Fabric.notify, Function.update_of_ne hqp] at hq
      exact h q ph hq
  · cases hph hi
  · cases hph hi

/-- Copying empty blocks writes nothing. -/
theorem foldl_copyTo_nil {l : List (Nat × List T)} (hl : ∀ c ∈ l, c.2 = []) (out : Nat → Option T) :
    l.foldl (fun out c => copyTo out c.1 c.2) out = out := by
  induction l with
  | nil => rfl
  | cons c l ih =>
    have hc : copyTo out c.1 c.2 = out := by
      funext j
      rw [copyTo, hl c List.mem_cons_self, if_neg (by simp only [List.length_nil]; omega)]
    rw [List.foldl_cons, hc]
    exact ih fun c' hc' => hl c' (List.mem_cons_of_mem _ hc')

theorem copyOutImpl_of_zero (hn : 2 ≤ n) (h0 : ∀ q, counts q = 0) (r : Fin n) (f : Fields T) (F : Net n T) :
    copyOutImpl counts r f F = fun _ => none := by
  rw [copyOutImpl, if_neg (by omega)]
  refine foldl_copyTo_nil (fun c hc => ?_) _
  rcases List.mem_cons.mp hc with rfl | hc
  · simp [h0]
  · obtain ⟨i, -, rfl⟩ := List.mem_map.mp hc
    simp [h0]

/-- If nobody contributes anything, no run disturbs another, whoever waits for whom. -/
theorem isolated_of_zero {s : GroupSys n T} {m : Loc n → List T}
    {guard : GroupSys n T → Action (Fin n) (Port n) → Prop} (hn : 2 ≤ n) (h0 : ∀ q, counts q = 0)
    (h : (allgatherv counts).Reach input m guard s) : Isolated counts input s := by
  have hposted : Posted s.fabric := by
    refine Collective.Reach.invariant (P := fun s => Posted s.fabric) (fun _ _ hp => nomatch hp) ?_ h
    intro s a t hs _ ha
    cases ha with
    | waitForSetup | idle | copyOut => exact hs
    | @copyIn q f G _ hc =>
      have hG : (copyInImpl counts q (input q (s.node q).run) (s.node q).fields s.fabric).2.flight =
          s.fabric.flight := by
        unfold copyInImpl; split <;> rfl
      rw [show copyInImpl counts q (input q (s.node q).run) (s.node q).fields s.fabric = _ from hc] at hG
      intro p ph hp
      exact hs p ph (hG ▸ hp)
    | @start q f G _ hc =>
      have hG : Posted (startImpl counts q (s.node q).fields s.fabric).2 := hs.startImpl
      rwa [show startImpl counts q (s.node q).fields s.fabric = _ from hc] at hG
    | @trigger q done f G _ hc =>
      have hG : Posted (triggerProgressImpl counts q (s.node q).fields s.fabric).2.2 := hs.triggerProgressImpl
      rwa [show triggerProgressImpl counts q (s.node q).fields s.fabric = _ from hc] at hG
    | network hG => exact (hs.advance h0 hG).1
  refine ⟨fun r i _ _ a t ha => ?_, fun r k out hout => ?_⟩
  · cases a with
    | call q c => exact call_mem_block (Collective.stepped ha)
    | advance p j =>
      obtain ⟨F, hF, rfl⟩ := Option.map_eq_some_iff.mp ha
      exact congrFun (hposted.advance h0 hF).2 _
  · obtain ⟨f, F, rfl⟩ := h.exists_copyOut r out (List.mem_of_getElem? hout)
    rw [show (allgatherv counts).copyOutImpl r f F = fun _ => none from copyOutImpl_of_zero hn h0 r f F]
    exact ⟨fun q j hj => absurd hj (by simp [h0]), fun _ _ => rfl⟩

end

/-! ## Two ranks with one element each -/

section

def ones : Fin 2 → Nat := fun _ => 1

/-- Rank `r` contributes `10 * k + r` to run `k`. -/
def stamp (r : Fin 2) (k _ : Nat) : Nat := 10 * k + r

def setup : List (Action (Fin 2) (Port 2)) := [.call 0 .waitForSetup, .call 1 .waitForSetup]

def enter (r : Fin 2) : List (Action (Fin 2) (Port 2)) := [.call r .copyIn, .call r .start]

/-- The block posted to target `0` of rank `r` is read, stored and notified. -/
def deliver (r : Fin 2) : List (Action (Fin 2) (Port 2)) := List.replicate 3 (.advance (.target r 0) 0)

/-- Both ranks complete a run in lockstep. -/
def lockstep : List (Action (Fin 2) (Port 2)) :=
  enter 0 ++ enter 1 ++ deliver 1 ++ deliver 0 ++
    [.call 0 .triggerProgress, .call 1 .triggerProgress, .advance (.source 0 0) 0,
      .advance (.source 1 0) 0, .call 0 .triggerProgress, .call 1 .triggerProgress]

/-- Rank 0 completes its run on rank 1's acknowledgement, starts the next one,
and its new block arrives before rank 1 copies out. -/
def overtake : List (Action (Fin 2) (Port 2)) :=
  setup ++ enter 0 ++ enter 1 ++ deliver 1 ++ deliver 0 ++
    [.call 1 .triggerProgress, .advance (.source 0 0) 0, .call 0 .triggerProgress,
      .call 0 .triggerProgress, .call 0 .copyOut] ++
    enter 0 ++ deliver 1 ++
    [.advance (.source 1 0) 0, .call 1 .triggerProgress, .call 1 .copyOut]

end

/-! ## Results -/

variable {counts input} {s : GroupSys n T} {m : Loc n → List T}

/-- **One run of the ring allgatherv is correct under every interleaving.** -/
theorem allgatherv_ring_one_run (hn : 2 ≤ n) (h : (allgatherv counts).Reach input m FirstRun s) :
    (∀ r i, bufferSize counts (.source r i) = bufferSize counts ((wiring counts).peer (.source r i))) ∧
      OneRun counts input s := by
  have hw : (allgatherv counts).Reach input m WaitsForRight s := by
    refine Reaches.mono h fun s a hg => ?_
    cases a with
    | call r c =>
      intro _
      rw [show (s.node r).run = 0 from hg]
      exact Nat.zero_le _
    | advance p i => trivial
  obtain ⟨I, hI⟩ := holds_of_reach hn hw
  have hcop : ∀ r, (s.node r).state = .finished → copies counts r s.fabric =
      (order r).map fun q => (offsets counts q, readFrom (input q 0) (counts q)) := by
    intro r hs; rw [hI.copies_finished hn hs, h.run_of_finished hs]
  refine ⟨bufferSize_peer counts, fun r hs => gathered_of_copies (hcop r hs) (by omega) _,
    fun r hs j hj => countP_copies (hcop r hs) hj, fun r out hout => ?_, fun r => hI.detached hn,
    hI.live hn⟩
  exact hI.outputs r 0 out (h.getElem?_of_mem_outputs hout)

theorem allgatherv_ring_one_run_lockstep :
    ∃ s, (allgatherv ones).Reach stamp (fun _ => []) FirstRun s ∧ (s.node 0).state = .finished ∧
      (∀ r i, bufferSize ones (.source r i) = bufferSize ones ((wiring ones).peer (.source r i))) ∧
      OneRun ones stamp s := by
  obtain ⟨s, hs, hfin⟩ : ∃ s, (allgatherv ones).Reach stamp (fun _ => []) FirstRun s ∧
      (s.node 0).state = .finished := exists_reaches_of_exec (setup ++ lockstep) (by decide)
  exact ⟨s, hs, hfin, allgatherv_ring_one_run (by decide) hs⟩

/-- A run may end up with a block of the next one. -/
theorem allgatherv_ring_overtaken : ¬ ∀ s : GroupSys 2 Nat,
    (allgatherv ones).Reach stamp (fun _ => []) (fun _ _ => True) s → Isolated ones stamp s := by
  intro h
  obtain ⟨s, hs, hout⟩ : ∃ s, (allgatherv ones).Reach stamp (fun _ => []) (fun _ _ => True) s ∧
      ((s.node 1).outputs[0]?.bind fun out => out 0) = some 10 :=
    exists_reaches_of_exec overtake (by decide)
  obtain ⟨out, hk, hv⟩ := Option.bind_eq_some_iff.mp hout
  have := ((h s hs).outputs 1 0 out hk).block 0 0 (by decide)
  rw [show offsets ones 0 + 0 = 0 by decide, hv] at this
  exact absurd this (by decide)

/-- **Consecutive runs are isolated if every start waits for the right
neighbour to copy out**, or if there is nothing to gather. -/
theorem allgatherv_ring_isolated (hn : 2 ≤ n)
    (h : (allgatherv counts).Reach input m (fun s a => (∀ q, counts q = 0) ∨ WaitsForRight s a) s) :
    Isolated counts input s := by
  by_cases h0 : ∀ q, counts q = 0
  · exact isolated_of_zero hn h0 h
  · obtain ⟨I, hI⟩ := holds_of_reach hn (h.mono fun _ _ hg => hg.resolve_left h0)
    exact ⟨fun r i hi hr a t ha => hI.undisturbed hn hi hr ha, hI.outputs⟩

theorem allgatherv_ring_isolated_lockstep :
    ∃ s, (allgatherv ones).Reach stamp (fun _ => []) (fun s a => (∀ q, ones q = 0) ∨ WaitsForRight s a) s ∧
      (s.node 1).run = 1 ∧ (s.node 0).state = .finished ∧ Isolated ones stamp s := by
  obtain ⟨s, hs, hfin⟩ : ∃ s, (allgatherv ones).Reach stamp (fun _ => [])
      (fun s a => (∀ q, ones q = 0) ∨ WaitsForRight s a) s ∧ (s.node 1).run = 1 ∧ (s.node 0).state = .finished :=
    exists_reaches_of_exec
      (setup ++ lockstep ++ [.call 0 .copyOut, .call 1 .copyOut] ++ lockstep) (by decide)
  exact ⟨s, hs, hfin.1, hfin.2, allgatherv_ring_isolated (by decide) hs⟩

end GaspiCxx.Collectives.AllgathervRing
