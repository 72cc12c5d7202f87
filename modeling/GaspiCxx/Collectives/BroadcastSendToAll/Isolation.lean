import GaspiCxx.Collectives.BroadcastSendToAll.Invariant

/-!
# Isolation of consecutive runs of the direct broadcast

A rank acknowledges on arrival and copies out later, so the root may be in its
next run before. A root that waits for every rank to copy out never touches a
target buffer that is still needed.
-/

namespace GaspiCxx.Collectives.BroadcastSendToAll

open OneSided SingleSided

variable {n number_elements : Nat} {T : Type} {root : Fin n}
  {input : Fin n → Nat → Vec number_elements T} {s : GroupSys number_elements n T}
  {I I' : Channels (Port n) (Loc n) (Vec number_elements T)} {acks : Fin n → Nat} {r : Fin n}
  {N : Node Fields (Vec number_elements T)} {F : Net number_elements n T} {f : Fields}

/-- A change of the network takes the acknowledgements from `acks` to `acks'`. -/
def Acked (root : Fin n) (F F' : Net number_elements n T) (acks acks' : Fin n → Nat) : Prop :=
  ∀ r, r ≠ root → acks' r = acks r + if Fabric.clears (.source r) F F' then 1 else 0

theorem Acked.of_slot {F F' : Net number_elements n T} (h : ∀ r, F'.slot (.source r) = F.slot (.source r)) :
    Acked root F F' acks acks := fun r _ => by
  simp [Fabric.clears, h r]

namespace Holds

/-! ## Calls that neither post nor take -/

theorem same_root (h : Holds root input s I acks) (hs : started N = started (s.node root))
    (hc : completed N = completed (s.node root)) (hnot : N.state ≠ .running)
    (ht : Tracks (wiring number_elements n) (Good root input) F I' (sent root s) (taken root s acks))
    (hown : Active N → I'.mem .source = input root N.run)
    (hmem : ∀ q, I'.mem (.target q) = I.mem (.target q))
    (hout : ∀ k out, N.outputs[k]? = some out → out = input root k) :
    Holds root input (Collective.setNode s root N F) I' acks := by
  refine h.set_root (ht.recount (fun p => ?_) fun p => by rw [taken_set_root])
    ⟨by rw [hc]; exact h.counters.lower, by rw [hs]; exact h.counters.upper, fun hs => absurd hs hnot⟩ hown hmem
    (by rw [hs]; exact h.ahead) hout
  rw [sent_set_root]
  cases p <;> simp [sent, hs]

theorem same_other (h : Holds root input s I acks) (hr : r ≠ root)
    (hc : completed N = completed (s.node r)) (hrun : (s.node r).run ≤ N.run) (hnot : N.state ≠ .finished)
    (hout : ∀ k out, N.outputs[k]? = some out → out = input root k) :
    Holds root input (Collective.setNode s r N s.fabric) I acks := by
  refine h.set_other hr (h.tracks.recount (fun p => ?_) fun p => ?_) (fun _ _ => rfl)
    (fun hs => absurd hs hnot) hrun hout
  · rw [sent_set_other hr, hc]
    split
    · next hp => subst hp; simp [sent, hr]
    · rfl
  · rw [taken_set_other hr, hc]
    split
    · next hp => subst hp; simp [taken, hr]
    · rfl

/-! ## Every call -/

theorem waitForSetup (h : Holds root input s I acks) (hs : (s.node r).state = .uninitialized) :
    Holds root input (Collective.setNode s r { s.node r with state := .initialized } s.fabric) I acks := by
  by_cases hr : r = root
  · subst hr
    exact h.same_root (by simp [started, hs, Node.run]) (by simp [completed, hs, Node.run]) (by simp) h.tracks
      (by simp [Active]) (fun _ => rfl) (h.outputs r)
  · exact h.same_other hr (by simp [completed, hs, Node.run]) (Nat.le_refl _) (by simp) (h.outputs r)

theorem copyIn (h : Holds root input s I acks) (hs : (s.node r).state = .initialized)
    (hc : copyInImpl root r (input r (s.node r).run) (s.node r).fields s.fabric = (f, F)) :
    ∃ I', Holds root input
      (Collective.setNode s r { s.node r with state := .ready, fields := f } F) I' acks := by
  by_cases hr : r = root
  · subst hr
    rw [copyInImpl, if_pos rfl] at hc
    cases hc
    -- every transfer of the run before has been acknowledged
    have hw := h.tracks.write (l := .source) (input r (s.node r).run)
      (fun q hq _ => by
        cases q with
        | source => simp [wiring] at hq
        | target q => simp [wiring])
      (fun q hq hf => by
        cases q with
        | source => simp [wiring] at hq
        | target q =>
          have hlt := h.tracks.lt_of_flight hf
          by_cases hqr : q = r
          · simp [sent, taken, hqr] at hlt
          · have h1 := h.acks_le hqr
            have h2 := h.counters.lower q hqr
            simp only [sent, taken, if_neg hqr] at hlt
            simp only [started, completed, hs] at hlt h1 h2
            simp at hlt h2
            omega)
    exact ⟨_, h.same_root (by simp [started, hs, Node.run]) (by simp [completed, hs, Node.run]) (by simp) hw
      (fun _ => by simp [Channels.write, Node.run]) (fun q => by simp [Channels.write]) (h.outputs r)⟩
  · rw [copyInImpl, if_neg hr] at hc
    cases hc
    exact ⟨I, h.same_other hr (by simp [completed, hs, Node.run]) (Nat.le_refl _) (by simp) (h.outputs r)⟩

theorem start (h : Holds root input s I acks) (hn : 2 ≤ n) (hs : (s.node r).state = .ready)
    (hc : startImpl root r (s.node r).fields s.fabric = (f, F))
    (hwait : WaitsForAll root s (.call r .start)) :
    ∃ I', Holds root input
      (Collective.setNode s r { s.node r with state := .running, fields := f } F) I' acks := by
  rw [startImpl, if_neg (by omega)] at hc
  by_cases hr : r = root
  · subst hr
    rw [if_pos rfl] at hc
    cases hc
    have hstarted : started (s.node r) = (s.node r).run := by simp [started, hs]
    have hcompleted : completed (s.node r) = (s.node r).run := by simp [completed, hs]
    have hacks : ∀ q, q ≠ r → acks q = (s.node r).run := by
      intro q hq
      have h1 := h.counters.lower q hq
      have h2 := h.counters.upper q hq
      omega
    obtain ⟨I', hmem, ht⟩ := post_all nodup_source_buffers h.tracks
      (fun q hq => by
        have hq := mem_source_buffers.mp hq
        have h1 := h.completed_le hq
        have h2 := h.acks_le hq
        rw [hacks q hq] at h2
        simp only [sent, taken, if_neg hq]
        omega)
      (fun q hq => by
        simp only [sent, if_neg (mem_source_buffers.mp hq), hstarted]
        exact h.own (.inl hs))
    refine ⟨I', h.set_root (ht.recount (fun p => ?_) fun p => by rw [taken_set_root]) ⟨?_, ?_, fun _ => ?_⟩
      (fun _ => by rw [hmem]; exact h.own (.inl hs)) (fun q => by rw [hmem]) (fun q hq => ?_) (h.outputs r)⟩
    · rw [sent_set_root]
      cases p with
      | source q => simp [sent]
      | target q =>
        by_cases hq : q = r
        · simp [sent, hq, mem_source_buffers]
        · simp [sent, hq, mem_source_buffers, started, hs, Node.run]
    · exact fun q hq => by rw [hacks q hq]; simp [completed, Node.run]
    · exact fun q hq => by rw [hacks q hq]; simp [started, Node.run]
    · show (source_buffers r).length = _
      rw [← List.toFinset_card_of_nodup nodup_source_buffers]
      refine congrArg Finset.card (Finset.ext fun q => ?_)
      simp only [List.mem_toFinset, mem_source_buffers, missing, Finset.mem_filter, Finset.mem_univ, true_and]
      exact ⟨fun hq => ⟨hq, hacks q hq⟩, fun hq => hq.1⟩
    · have := hwait rfl q hq
      simp only [started, Node.run] at this ⊢
      simpa using this
  · rw [if_neg hr] at hc
    cases hc
    exact ⟨I, h.same_other hr (by simp [completed, hs, Node.run]) (Nat.le_refl _) (by simp) (h.outputs r)⟩

/-- The root looks at its acknowledgements, and is done when it has seen all. -/
theorem trigger_root (h : Holds root input s I acks) (hs : (s.node root).state = .running)
    {x : Nat × Net number_elements n T}
    (hx : (source_buffers root).foldl checkSource ((s.node root).fields.transfers_in_progress, s.fabric) = x) :
    ∃ I' acks', Holds root input (Collective.setNode s root
      { s.node root with
        state := if x.1 == 0 then .finished else .running
        fields := { (s.node root).fields with transfers_in_progress := x.1 } } x.2) I' acks' ∧
      Calm s.fabric x.2 (taken root s acks) (taken root s acks') := by
  have hstarted : started (s.node root) = (s.node root).run + 1 := by simp [started, hs]
  obtain ⟨I', acks', hmem, ht, hcalm, hle, hcard⟩ := check_all (l := source_buffers root) (k := (s.node root).run)
    (fun q hq => mem_source_buffers.mp hq) h.tracks
    (fun q hq => Nat.le_trans (by simp [completed]) (h.counters.lower q hq))
    (fun q hq => by rw [← hstarted]; exact h.completed_le hq) (h.counters.waiting hs)
  rw [hx] at ht hcalm hcard
  have hupper : ∀ q, q ≠ root → acks' q ≤ (s.node root).run + 1 := by
    intro q hq
    have h1 := (hle q hq).2
    have h2 := h.counters.upper q hq
    omega
  refine ⟨I', acks', h.set_root (ht.recount (fun p => ?_) fun p => by rw [taken_set_root])
    ⟨fun q hq => ?_, fun q hq => ?_, fun _ => hcard⟩ (fun _ => by rw [hmem]; exact h.own (.inr (.inl hs)))
    (fun q => by rw [hmem]) (fun q hq => ?_) (h.outputs root), hcalm⟩
  · rw [sent_set_root]
    cases p <;> by_cases h0 : x.1 = 0 <;> simp [sent, started, hs, Node.run, h0]
  · by_cases h0 : x.1 = 0
    · -- no acknowledgement is missing
      have hq' : q ∉ missing root acks' (s.node root).run := by
        rw [Finset.card_eq_zero.mp (hcard.symm.trans h0)]
        exact Finset.notMem_empty q
      have hlow := (hle q hq).1
      simp only [missing, Finset.mem_filter, Finset.mem_univ, true_and, not_and] at hq'
      have := hq' hq
      simp only [completed, h0, Node.run] at *
      simp
      omega
    · simpa [completed, h0, Node.run] using (hle q hq).1
  · by_cases h0 : x.1 = 0 <;> simpa [started, h0, Node.run] using hupper q hq
  · have := h.ahead q hq
    by_cases h0 : x.1 = 0 <;> simpa [started, hs, h0, Node.run] using this

/-- The data has arrived and is acknowledged. -/
theorem receive (h : Holds root input s I acks) (hr : r ≠ root) (hs : (s.node r).state = .running)
    (hset : s.fabric.slot (.target r) = true) :
    ∃ I', Holds root input (Collective.setNode s r { s.node r with state := .finished }
      ((s.fabric.reset (.target r)).post (.source r))) I' acks := by
  obtain ⟨v, -, hgood, ht⟩ := h.tracks.take hset
  have hlt := h.tracks.lt_of_slot hset
  have hrun : completed (s.node r) = (s.node r).run := by simp [completed, hs]
  have hmem : (I.take (wiring number_elements n) (.target r) v).mem (.target r) = input root (s.node r).run := by
    by_cases hN : 0 < number_elements
    · have := hgood (by simp [wiring, hN])
      simp only [Good, taken, if_neg hr, hrun] at this
      simp [Channels.take, wiring, hN, this]
    · obtain rfl : number_elements = 0 := by omega
      exact Subsingleton.elim _ _
  have hfree : completed (s.node r) = acks r := by
    have h1 := h.counters.lower r hr
    have h2 := started_le (s.node root)
    have h3 := h.acks_le hr
    simp only [sent, taken, if_neg hr] at hlt
    omega
  have hpost := ht.post_bare (p := .source r) rfl
    (by rw [bump_apply, if_neg (by simp)]; simpa [sent, taken, hr] using hfree)
  have hnext : completed ({ s.node r with state := .finished } : Node Fields (Vec number_elements T)) =
      completed (s.node r) + 1 := by simp [completed, hs, Node.run]
  refine ⟨_, h.set_other hr (hpost.recount (fun p => ?_) fun p => ?_) (fun l hl => ?_) (fun _ => hmem)
    (Nat.le_refl _) (h.outputs r)⟩
  · rw [sent_set_other hr, bump_apply, hnext]
    split
    · next hp => subst hp; simp [sent, hr]
    · rfl
  · rw [taken_set_other hr, bump_apply, hnext]
    split
    · next hp => subst hp; simp [taken, hr]
    · rfl
  · by_cases hN : 0 < number_elements <;> simp [Channels.post, Channels.take, wiring, hN, hl]

theorem trigger (h : Holds root input s I acks) (hn : 2 ≤ n) (hs : (s.node r).state = .running) {done : Bool}
    (ht : triggerProgressImpl root r (s.node r).fields s.fabric = (done, f, F)) :
    ∃ I' acks', Holds root input (Collective.setNode s r
      { s.node r with state := if done then .finished else .running, fields := f } F) I' acks' ∧
      Acked root s.fabric F acks acks' := by
  rw [triggerProgressImpl, if_neg (by omega)] at ht
  by_cases hr : r = root
  · subst hr
    rw [if_pos rfl] at ht
    cases ht
    obtain ⟨I', acks', h', hcalm⟩ := h.trigger_root hs rfl
    exact ⟨I', acks', h', fun q hq => by simpa [taken, hq] using hcalm.taken (.source q)⟩
  · rw [if_neg hr] at ht
    cases hslot : s.fabric.slot (.target r) with
    | true =>
      rw [checkForCompletion_set hslot] at ht
      cases ht
      obtain ⟨I', hI'⟩ := h.receive hr hs hslot
      refine ⟨I', acks, hI', .of_slot fun q => ?_⟩
      show (s.fabric.reset (.target r)).slot (.source q) = _
      rw [Fabric.reset_slot, if_neg (by simp)]
    | false =>
      rw [checkForCompletion_clear hslot] at ht
      cases ht
      exact ⟨I, acks, h.same_other hr (by simp [completed, hs, Node.run]) (Nat.le_refl _) (by simp) (h.outputs r),
        .of_slot fun _ => rfl⟩

/-- Rank `r` reads the data of its run. -/
theorem copyOutImpl_finished (h : Holds root input s I acks) (hs : (s.node r).state = .finished) :
    copyOutImpl root r (s.node r).fields s.fabric = input root (s.node r).run := by
  unfold copyOutImpl
  split
  · next hr =>
    subst hr
    exact h.mem_source.trans (h.own (.inr (.inr hs)))
  · next hr => exact (h.mem_target hr hs).trans (h.received r hr hs)

theorem copyOut (h : Holds root input s I acks) (hs : (s.node r).state = .finished) :
    Holds root input (Collective.setNode s r
      { s.node r with
        state := .initialized
        outputs := (s.node r).outputs ++ [copyOutImpl root r (s.node r).fields s.fabric] }
      s.fabric) I acks := by
  have hout : ∀ k out,
      ((s.node r).outputs ++ [copyOutImpl root r (s.node r).fields s.fabric])[k]? = some out →
      out = input root k := by
    intro k out hk
    rcases Node.getElem?_append_outputs hk with hk | ⟨rfl, rfl⟩
    · exact h.outputs r k out hk
    · exact h.copyOutImpl_finished hs
  -- the run it has completed is now behind it
  have hstarted : started ({ s.node r with
      state := .initialized
      outputs := (s.node r).outputs ++ [copyOutImpl root r (s.node r).fields s.fabric] } :
      Node Fields (Vec number_elements T)) = started (s.node r) := by simp [started, hs, Node.run]
  have hcompleted : completed ({ s.node r with
      state := .initialized
      outputs := (s.node r).outputs ++ [copyOutImpl root r (s.node r).fields s.fabric] } :
      Node Fields (Vec number_elements T)) = completed (s.node r) := by simp [completed, hs, Node.run]
  by_cases hr : r = root
  · subst hr
    exact h.same_root hstarted hcompleted (by simp) h.tracks (by simp [Active]) (fun _ => rfl) hout
  · exact h.same_other hr hcompleted (by simp [Node.run]) (by simp) hout

theorem network (h : Holds root input s I acks) {p : Port n} {i : Nat}
    (ha : s.fabric.advance (wiring number_elements n) p i = some F) :
    Holds root input { s with fabric := F } I acks :=
  ⟨h.tracks.advance ha, h.counters, h.own, h.received, h.ahead, h.outputs⟩

theorem copyInImpl_slot {inputs : Vec number_elements T} {f' : Fields} {F' : Net number_elements n T}
    (hc : copyInImpl root r inputs f F = (f', F')) : F'.slot = F.slot := by
  unfold copyInImpl at hc
  split at hc <;> cases hc <;> rfl

theorem postAll_slot (l : List (Fin n)) (F : Net number_elements n T) :
    (l.foldl (fun F i => initTransfer (wiring number_elements n) F (.source i)) F).slot = F.slot := by
  induction l generalizing F with
  | nil => rfl
  | cons i l ih => rw [List.foldl_cons, ih]; rfl

theorem startImpl_slot {f' : Fields} {F' : Net number_elements n T} (hc : startImpl root r f F = (f', F')) :
    F'.slot = F.slot := by
  unfold startImpl at hc
  split at hc
  · cases hc; rfl
  · split at hc <;> cases hc
    · exact postAll_slot ..
    · rfl

/-- Every step keeps the invariant, and counts the acknowledgements it takes. -/
theorem next (h : Holds root input s I acks) (hn : 2 ≤ n) {a : Action (Fin n) (Port n)}
    {t : GroupSys number_elements n T} (hg : WaitsForAll root s a)
    (ha : (broadcast number_elements root T).Stepped input s a t) :
    ∃ I' acks', Holds root input t I' acks' ∧ Acked root s.fabric t.fabric acks acks' := by
  cases ha with
  | waitForSetup hs => exact ⟨I, acks, h.waitForSetup hs, .of_slot fun _ => rfl⟩
  | copyIn hs hc =>
    obtain ⟨I', hI'⟩ := h.copyIn hs hc
    exact ⟨I', acks, hI', .of_slot fun q => congrFun (copyInImpl_slot hc) _⟩
  | start hs hc =>
    obtain ⟨I', hI'⟩ := h.start hn hs hc hg
    exact ⟨I', acks, hI', .of_slot fun q => congrFun (startImpl_slot hc) _⟩
  | trigger hs ht => exact h.trigger hn hs ht
  | idle => exact ⟨I, acks, h, .of_slot fun _ => rfl⟩
  | copyOut hs => exact ⟨I, acks, h.copyOut hs, .of_slot fun _ => rfl⟩
  | network hG =>
    refine ⟨I, acks, h.network hG, fun q _ => ?_⟩
    have hclear := (h.tracks.advance_sets hG (.source q)).2
    show acks q = acks q + if Fabric.clears (.source q) s.fabric _ then 1 else 0
    rw [hclear]
    rfl

end Holds

/-- **The invariant holds in every run whose root waits for all.** -/
theorem holds_of_reach {m : Loc n → Vec number_elements T} (hn : 2 ≤ n)
    (h : (broadcast number_elements root T).Reach input m (WaitsForAll root) s) :
    ∃ I acks, Holds root input s I acks := by
  refine Collective.Reach.invariant (P := fun s => ∃ I acks, Holds root input s I acks)
    ⟨_, _, Holds.initial m⟩ ?_ h
  rintro s a t ⟨I, acks, hI⟩ hg ha
  obtain ⟨I', acks', hI', -⟩ := hI.next hn hg ha
  exact ⟨I', acks', hI'⟩

/-! ## Nobody's call writes a target buffer -/

section

variable {q : Fin n}

theorem checkAll_mem (l : List (Fin n)) (x : Nat × Net number_elements n T) :
    (l.foldl checkSource x).2.mem = x.2.mem := by
  induction l generalizing x with
  | nil => rfl
  | cons i l ih =>
    rw [List.foldl_cons, ih]
    exact checkForTransferAck_mem

theorem postAll_mem (l : List (Fin n)) (F : Net number_elements n T) :
    (l.foldl (fun F i => initTransfer (wiring number_elements n) F (.source i)) F).mem = F.mem := by
  induction l generalizing F with
  | nil => rfl
  | cons i l ih => rw [List.foldl_cons, ih]; rfl

theorem call_mem_target {t : GroupSys number_elements n T} {c : Call}
    (h : (broadcast number_elements root T).Stepped input s (.call q c) t) :
    t.fabric.mem (.target r) = s.fabric.mem (.target r) := by
  cases h with
  | waitForSetup | idle | copyOut => rfl
  | copyIn _ hc =>
    replace hc : copyInImpl root q (input q (s.node q).run) (s.node q).fields s.fabric = _ := hc
    unfold copyInImpl at hc
    split at hc <;> cases hc
    · simp [Fabric.write_mem]
    · rfl
  | start _ hc =>
    replace hc : startImpl root q (s.node q).fields s.fabric = _ := hc
    unfold startImpl at hc
    split at hc
    · cases hc; rfl
    · split at hc <;> cases hc
      · exact congrFun (postAll_mem ..) _
      · rfl
  | trigger _ hc =>
    replace hc : triggerProgressImpl root q (s.node q).fields s.fabric = _ := hc
    unfold triggerProgressImpl at hc
    split at hc
    · cases hc; rfl
    · split at hc
      · cases hc; exact congrFun (checkAll_mem ..) _
      · dsimp only at hc
        split at hc <;> cases hc
        · exact congrFun checkForCompletion_mem _
        · exact congrFun checkForCompletion_mem _

end

/-! ## Two ranks with one element, root 0 -/

section

instance (s : GroupSys number_elements n T) : DecidablePred (WaitsForAll root s)
  | .call r .start =>
    inferInstanceAs (Decidable (r = root → ∀ q, q ≠ root → (s.node root).run ≤ (s.node q).run))
  | .call _ .waitForSetup | .call _ .copyIn | .call _ .triggerProgress | .call _ .copyOut | .advance _ _ =>
    inferInstanceAs (Decidable True)

def tag (r : Fin 2) (k : Nat) : Vec 1 Nat := fun _ => 10 * k + r

def setup : List (Action (Fin 2) (Port 2)) := (List.finRange 2).map fun r => .call r .waitForSetup

def enter (r : Fin 2) : List (Action (Fin 2) (Port 2)) := [.call r .copyIn, .call r .start]

/-- The transfer to rank `r` is read, stored and notified. -/
def deliver (r : Fin 2) : List (Action (Fin 2) (Port 2)) := List.replicate 3 (.advance (.target r) 0)

/-- Both ranks complete a run from `sender` to `r`; neither copies out. -/
def exchange (sender r : Fin 2) : List (Action (Fin 2) (Port 2)) :=
  enter sender ++ enter r ++ deliver r ++
    [.call r .triggerProgress, .advance (.source r) 0, .call sender .triggerProgress]

end

/-! ## Results -/

variable (root input) in
/-- What consecutive runs promise. -/
structure Isolated (s : GroupSys number_elements n T) : Prop where
  undisturbed : ∀ r, r ≠ root → (s.node r).state = .finished → ∀ a t,
    (broadcast number_elements root T).step input s a = some t →
    t.fabric.mem (.target r) = s.fabric.mem (.target r)
  outputs : ∀ r k out, (s.node r).outputs[k]? = some out → out = input root k

/-- A slow rank may copy out the next run's data. -/
theorem broadcast_send_to_all_overtaken : ¬ ∀ s : GroupSys 1 2 Nat,
    (broadcast 1 0 Nat).Reach tag (fun _ _ => 7) (fun _ _ => True) s → Isolated 0 tag s := by
  intro h
  obtain ⟨s, hs, hout⟩ : ∃ s, (broadcast 1 (0 : Fin 2) Nat).Reach tag (fun _ _ => 7) (fun _ _ => True) s ∧
      ((s.node 1).outputs[0]?.map fun out => out 0) = some 10 :=
    exists_reaches_of_exec
      (setup ++ exchange 0 1 ++ [.call 0 .copyOut] ++ enter 0 ++ deliver 1 ++ [.call 1 .copyOut]) (by decide)
  obtain ⟨out, hk, hv⟩ := Option.map_eq_some_iff.mp hout
  rw [(h s hs).outputs 1 0 out hk] at hv
  exact absurd hv (by decide)

/-- **Consecutive runs are isolated if the root waits for every rank to copy out**,
or if there are no elements. -/
theorem broadcast_send_to_all_isolated {m : Loc n → Vec number_elements T} (hn : 2 ≤ n)
    (h : (broadcast number_elements root T).Reach input m
      (fun s a => number_elements = 0 ∨ WaitsForAll root s a) s) : Isolated root input s := by
  rcases Nat.eq_zero_or_pos number_elements with rfl | hN
  · exact ⟨fun _ _ _ _ _ _ => Subsingleton.elim _ _, fun _ _ _ _ => Subsingleton.elim _ _⟩
  obtain ⟨I, acks, hI⟩ := holds_of_reach hn (h.mono fun _ _ hg => hg.resolve_left (by omega))
  refine ⟨fun r hr hs a t ha => ?_, hI.outputs⟩
  cases a with
  | call q c => exact call_mem_target (Collective.stepped ha)
  | advance p i =>
    obtain ⟨F, hF, rfl⟩ := Option.map_eq_some_iff.mp ha
    exact ((hI.network hF).mem_target hr hs).trans (hI.mem_target hr hs).symm

theorem broadcast_send_to_all_isolated_twice :
    ∃ s, (broadcast 1 0 Nat).Reach tag (fun _ _ => 7) (fun s a => 1 = 0 ∨ WaitsForAll 0 s a) s ∧
      (s.node 1).run = 1 ∧ (s.node 1).state = .finished ∧ Isolated 0 tag s := by
  obtain ⟨s, hs, hrun, hfin⟩ : ∃ s, (broadcast 1 (0 : Fin 2) Nat).Reach tag (fun _ _ => 7)
      (fun s a => 1 = 0 ∨ WaitsForAll 0 s a) s ∧ (s.node 1).run = 1 ∧ (s.node 1).state = .finished :=
    exists_reaches_of_exec
      (setup ++ exchange 0 1 ++ [.call 0 .copyOut, .call 1 .copyOut] ++ exchange 0 1) (by decide)
  exact ⟨s, hs, hrun, hfin, broadcast_send_to_all_isolated (by decide) hs⟩

end GaspiCxx.Collectives.BroadcastSendToAll
