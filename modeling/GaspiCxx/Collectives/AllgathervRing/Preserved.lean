import GaspiCxx.Collectives.AllgathervRing.Invariant

/-!
# Every step keeps the invariant

One lemma for each call; `Holds.set` carries over everything a call of rank
`r` does not touch.
-/

namespace GaspiCxx.Collectives.AllgathervRing

open OneSided SingleSided GroupUtilities AllgathervCommon

variable {n : Nat} {T : Type} {counts : Fin n → Nat} {input : Fin n → Nat → Nat → T}
  {s : GroupSys n T} {I I' : Channels (Port n) (Loc n) (List T)} {r : Fin n}
  {N : Node (Fields T) (Nat → Option T)} {F : Net n T}

namespace Holds

theorem initial (m : Loc n → List T) :
    Holds counts input ((allgatherv counts).initial m) { mem := m, msg := fun _ => none } where
  tracks := (Tracks.quiet _ _ m).recount
    (fun p => by simp [Schedule.sent, Schedule.tally, progress, progressOf, steps, Collective.initial, Node.run,
      Progress.passed])
    (fun p => by simp [Schedule.taken, Schedule.tally, progress, progressOf, steps, Collective.initial, Node.run,
      Progress.passed])
  step_lt r hr := by simp [Collective.initial] at hr
  own r hr := by simp [Active, Collective.initial] at hr
  block r i _ hi := by simp [steps, Collective.initial] at hi
  ahead r := by simp [progress, progressOf, steps, Collective.initial, Node.run, Progress.passed]
  outputs r k out hk := by simp [Collective.initial] at hk

/-- A call of rank `r` that touches only `r`'s memory. -/
theorem set (h : Holds counts input s I)
    (ht : Tracks (wiring counts) (Good counts input) F I'
      ((schedule counts).sent (progress (Collective.setNode s r N F)))
      ((schedule counts).taken (progress (Collective.setNode s r N F))))
    (hstep : N.state = .running → N.fields.current_step < n)
    (hown : Active N → I'.mem (.own r) = blk counts input r N.run)
    (hblock : ∀ i, i + 1 < n → i + 1 < steps n N → 0 < counts (receive_index r i) →
      I'.mem (.block r i) = blk counts input (receive_index r i) N.run)
    (hmem : ∀ q, q ≠ r → I'.mem (.own q) = I.mem (.own q) ∧
      ∀ i, I'.mem (.block q i) = I.mem (.block q i))
    (hrun : (s.node r).run ≤ N.run)
    (hahead : (⟨N.run, steps n N⟩ : Progress).passed 0 ≤ (s.node (right r)).run + 1)
    (hout : ∀ k out, N.outputs[k]? = some out → Gathered counts (fun q => input q k) out) :
    Holds counts input (Collective.setNode s r N F) I' := by
  have hnode : ∀ q, q ≠ r → (Collective.setNode s r N F).node q = s.node q :=
    fun q hq => Collective.setNode_of_ne s hq N F
  have hself := Collective.setNode_self s r N F
  refine ⟨ht, fun q hq => ?_, fun q hq => ?_, fun q i hi hst hc => ?_, fun q => ?_, fun q k out hk => ?_⟩
  · by_cases hqr : q = r
    · subst hqr; rw [hself] at hq ⊢; exact hstep hq
    · rw [hnode q hqr] at hq ⊢; exact h.step_lt q hq
  · by_cases hqr : q = r
    · subst hqr; rw [hself] at hq ⊢; exact hown hq
    · rw [hnode q hqr] at hq ⊢; rw [(hmem q hqr).1]; exact h.own q hq
  · by_cases hqr : q = r
    · subst hqr; rw [hself] at hst ⊢; exact hblock i hi hst hc
    · rw [hnode q hqr] at hst ⊢; rw [(hmem q hqr).2]; exact h.block q i hi hst hc
  · refine Nat.le_trans ?_ (Nat.add_le_add_right (Collective.run_le_setNode hrun (right q)) 1)
    by_cases hqr : q = r
    · subst hqr; rw [progress, progressOf_self]; exact hahead
    · rw [progress, progressOf_of_ne hqr]; exact h.ahead q
  · by_cases hqr : q = r
    · subst hqr; rw [hself] at hk; exact hout k out hk
    · rw [hnode q hqr] at hk; exact h.outputs q k out hk

/-- A call that leaves the fabric alone and posts and takes nothing. -/
theorem set_same (h : Holds counts input s I) (hrun : N.run = (s.node r).run)
    (hsteps : steps n N = steps n (s.node r)) (hout : N.outputs = (s.node r).outputs)
    (hstep : N.state = .running → N.fields.current_step < n) (hact : Active N → Active (s.node r)) :
    Holds counts input (Collective.setNode s r N s.fabric) I := by
  refine h.set (by rw [progress, progressOf_same hrun hsteps]; exact h.tracks) hstep (fun ha => ?_)
    (fun i hi hst hc => ?_) (fun q _ => ⟨rfl, fun _ => rfl⟩) (by omega) ?_ (fun k out hk => ?_)
  · rw [hrun]; exact h.own r (hact ha)
  · rw [hsteps] at hst; rw [hrun]; exact h.block r i hi hst hc
  · rw [hrun, hsteps]; exact h.ahead r
  · rw [hout] at hk; exact h.outputs r k out hk

/-- Nothing is in flight from buffers whose transfers rank `r` has not posted
in this run. -/
theorem idle_right (h : Holds counts input s I) (hn : 2 ≤ n) (r : Fin n) {i : Nat} (hi : i + 1 < n)
    (hp : (progress s r).steps ≤ i) : (schedule counts).sent (progress s) (.target (right r) i) =
      (schedule counts).taken (progress s) (.target (right r) i) := by
  rw [sent_target _ _ hi, taken_target _ _ hi, left_right]
  exact (h.fresh hn r hi hp).symm

/-- Nothing is being read from the buffer rank `r`'s `i`-th block lands in. -/
theorem unread_right (h : Holds counts input s I) (hn : 2 ≤ n) (r : Fin n) {i : Nat}
    (hp : (progress s r).steps ≤ i) (hrun : (s.node r).run ≤ (s.node (right r)).run) {q : Port n}
    (hq : (wiring counts).carries q = true) (hf : s.fabric.flight q ≠ []) :
    (wiring counts).loc (.target (right r) i) ≠ (wiring counts).loc ((wiring counts).peer q) := by
  have hlt := h.tracks.lt_of_flight hf
  have hu := Schedule.used_of_lt hlt
  cases q with
  | source => simp [wiring] at hq
  | target q j =>
    cases j with
    | zero => simp [wiring]
    | succ j =>
      simp only [wiring, ne_eq, Loc.block.injEq, not_and]
      rintro hq' rfl
      obtain rfl : q = right (right r) := by rw [hq', right_left]
      rw [used_target] at hu
      rw [sent_target _ _ hu, taken_target _ _ hu, left_right] at hlt
      have := h.settled hn r (i := i) (by omega) hp hrun
      omega

theorem copyIn (h : Holds counts input s I) (hn : 2 ≤ n) (hs : (s.node r).state = .initialized)
    {f : Fields T} {F : Net n T}
    (hc : copyInImpl counts r (input r (s.node r).run) (s.node r).fields s.fabric = (f, F)) :
    ∃ I', Holds counts input (Collective.setNode s r { s.node r with state := .ready, fields := f } F) I' := by
  have h0 : steps n (s.node r) = 0 := by simp [steps, hs]
  rw [copyInImpl, if_neg (show n ≠ 1 by omega)] at hc
  cases hc
  refine ⟨I.write (.own r) (blk counts input r (s.node r).run), h.set ?_ (by simp) ?_ ?_ ?_ (Nat.le_refl _) ?_ ?_⟩
  · rw [progress, progressOf_same (by rfl) (by rw [h0]; rfl)]
    refine h.tracks.write (l := .own r) (blk counts input r (s.node r).run) ?_ ?_
    · intro q hq _
      cases q <;> simp [wiring] at hq ⊢
    · intro q hq hf
      have hlt := h.tracks.lt_of_flight hf
      have hu := Schedule.used_of_lt hlt
      cases q with
      | source => simp [wiring] at hq
      | target q i =>
        cases i with
        | succ i => simp [wiring]
        | zero =>
          simp only [wiring, ne_eq, Loc.own.injEq]
          rintro rfl
          have := h.idle_right hn (left q) (i := 0) ((used_target _).mp hu) (by simp [progress, progressOf, h0])
          rw [right_left] at this
          omega
  · intro _; simp [Channels.write, Node.run]
  · intro i _ hst; simp [steps] at hst
  · intro q hq; simp [Channels.write, hq]
  · have := h.ahead r
    simp only [progress, progressOf, h0] at this
    simpa [steps, Node.run] using this
  · exact h.outputs r

theorem start (h : Holds counts input s I) (hn : 2 ≤ n) (hs : (s.node r).state = .ready)
    (hw : (s.node r).run ≤ (s.node (right r)).run) {f : Fields T} {F : Net n T}
    (hc : startImpl counts r (s.node r).fields s.fabric = (f, F)) :
    ∃ I', Holds counts input (Collective.setNode s r { s.node r with state := .running, fields := f } F) I' := by
  have h0 : steps n (s.node r) = 0 := by simp [steps, hs]
  have hp : (progress s r).steps ≤ 0 := by simp [progress, progressOf, h0]
  rw [startImpl, if_pos (show n > 1 by omega)] at hc
  cases hc
  have hpeer : (wiring counts).peer (.target (right r) 0) = .source r 0 := by simp [wiring]
  have hidle := h.idle_right hn r (i := 0) (by omega) hp
  have hpost := h.tracks.post (p := .target (right r) 0) hidle
    (fun _ => by simp [wiring])
    (fun _ q hq _ => by rw [hpeer]; cases q <;> simp [wiring] at hq ⊢)
    (fun _ q hq hlt => by
      cases q with
      | source => simp [wiring] at hq
      | target q i =>
        simp only [wiring, ne_eq, Loc.block.injEq, not_and]
        rintro rfl rfl
        omega)
    (fun _ q hq hf => h.unread_right hn r hp hw hq hf)
    (fun _ => by
      rw [hpeer]
      simp only [Good, receive_index_right_zero]
      rw [sent_target _ _ (by omega), left_right, Progress.passed_of_le hp]
      exact h.own r (.inl hs))
  have hmv : Schedule.Moves (progress s) (progress (Collective.setNode s r
      { s.node r with state := .running, fields := { (s.node r).fields with current_step := 0 } }
      (s.fabric.post (.target (right r) 0)))) r 0 1 := moves rfl h0 rfl (Nat.zero_le 1)
  refine ⟨_, h.set (hpost.recount ?_ ?_) (fun _ => ?_) (fun _ => ?_) ?_ (fun q _ => ⟨rfl, fun _ => rfl⟩)
    (Nat.le_refl _) ?_ (h.outputs r)⟩
  · refine hmv.tally_bump (by simp [schedule]; omega) (by simp [Schedule.sender, schedule, wiring])
      (Nat.zero_le _) (by simp [schedule]) fun p hu ho _ hlt => ?_
    cases p with
    | source q i => simp [schedule] at hu hlt; omega
    | target q i =>
      simp only [Schedule.sender, schedule, wiring] at ho hlt
      obtain rfl : i = 0 := by omega
      rw [← ho, right_left]
  · refine hmv.tally_same fun p hu ho hlt => ?_
    cases p with
    | source q i => simp [schedule] at hlt; omega
    | target q i => simp [schedule] at hlt
  · simp; omega
  · exact h.own r (.inl hs)
  · intro i _ hst; simp [steps] at hst
  · rw [Progress.passed_of_lt (by simp [steps])]
    simpa [Node.run] using hw

/-- The last acknowledgement arrives: the run is finished. -/
theorem finish (h : Holds counts input s I) (hn : 2 ≤ n) (hs : (s.node r).state = .running)
    (hc : (s.node r).fields.current_step = n - 1) (hset : s.fabric.slot (.source r (n - 2)) = true) :
    ∃ I', Holds counts input (Collective.setNode s r { s.node r with state := .finished }
      (s.fabric.reset (.source r (n - 2)))) I' := by
  have h0 : steps n (s.node r) = n := by simp only [steps, hs, hc]; omega
  have hmv : Schedule.Moves (progress s) (progress (Collective.setNode s r
      { s.node r with state := .finished } (s.fabric.reset (.source r (n - 2))))) r n (n + 1) :=
    moves rfl h0 rfl (by omega)
  obtain ⟨v, -, -, ht⟩ := h.tracks.take hset
  have hmem : (I.take (wiring counts) (.source r (n - 2)) v).mem = I.mem := by
    simp [Channels.take, wiring]
  refine ⟨_, h.set (ht.recount ?_ ?_) (by simp) (fun _ => ?_) (fun i hi hst hcr => ?_)
    (fun q _ => by simp [hmem]) (Nat.le_refl _) ?_ (h.outputs r)⟩
  · refine hmv.tally_same fun p hu ho hlt => ?_
    cases p with
    | source q i => simp only [schedule] at hlt; omega
    | target q i => rw [used_target] at hu; simp only [schedule] at hlt; omega
  · refine hmv.tally_bump ((used_source _).mpr (by omega)) rfl (Nat.le_refl n) (Nat.lt_succ_self n)
      fun p hu ho hx hlt => ?_
    cases p with
    | source q i => rw [used_source] at hu; obtain rfl : q = r := ho; congr; omega
    | target q i => rw [used_target] at hu; simp only [schedule] at hx; omega
  · rw [hmem]; exact h.own r (.inr (.inl hs))
  · rw [hmem]; exact h.block r i hi (by omega) hcr
  · have := h.ahead r
    rw [Progress.passed_of_lt (by simp only [progress, progressOf]; omega)] at this
    rw [Progress.passed_of_lt (by simp [steps])]
    exact this

/-- Block `s` arrives and is forwarded, or the last block is acknowledged. -/
theorem forward (h : Holds counts input s I) (hn : 2 ≤ n) (hs : (s.node r).state = .running)
    {i : Nat} (hc : (s.node r).fields.current_step = i) (hi : i + 1 < n)
    (hset : s.fabric.slot (.target r i) = true) (F' : Net n T)
    (hF : F' = if i + 1 = n - 1 then (s.fabric.reset (.target r i)).post (.source (left r) i)
      else (s.fabric.reset (.target r i)).post (.target (right r) (i + 1))) :
    ∃ I', Holds counts input (Collective.setNode s r
      { s.node r with fields := { (s.node r).fields with current_step := i + 1 } } F') I' := by
  have h0 : steps n (s.node r) = i + 1 := by simp [steps, hs, hc]
  have hp : (progress s r).steps ≤ i + 1 := by simp [progress, progressOf, h0]
  have hmv : Schedule.Moves (progress s) (progress (Collective.setNode s r
      { s.node r with fields := { (s.node r).fields with current_step := i + 1 } } F')) r (i + 1)
      (i + 2) := moves rfl h0 (by simp [steps, hs]) (by omega)
  obtain ⟨v, hv, hgood, ht⟩ := h.tracks.take hset
  have hbump : ∀ p, (schedule counts).taken (progress s) p ≤
      bump ((schedule counts).taken (progress s)) (.target r i) p := by
    intro p; rw [bump_apply]; omega
  have htaken : ∀ p, (schedule counts).taken (progress (Collective.setNode s r
      { s.node r with fields := { (s.node r).fields with current_step := i + 1 } } F')) p =
      bump ((schedule counts).taken (progress s)) (.target r i) p := by
    refine hmv.tally_bump ((used_target _).mpr hi) rfl (Nat.le_refl _) (Nat.lt_succ_self _)
      fun p hu ho hx hlt => ?_
    cases p with
    | source q j => rw [used_source] at hu; simp only [schedule] at hx hlt; omega
    | target q j =>
      obtain rfl : q = r := ho
      simp only [schedule] at hx hlt
      congr; omega
  -- whichever transfer is posted, the abstract memory changes only where the block landed
  have key : ∀ J : Channels (Port n) (Loc n) (List T),
      Tracks (wiring counts) (Good counts input) F' J
        ((schedule counts).sent (progress (Collective.setNode s r
          { s.node r with fields := { (s.node r).fields with current_step := i + 1 } } F')))
        (bump ((schedule counts).taken (progress s)) (.target r i)) →
      J.mem = (I.take (wiring counts) (.target r i) v).mem → ∃ I', Holds counts input (Collective.setNode s r
        { s.node r with fields := { (s.node r).fields with current_step := i + 1 } } F') I' := by
    intro J hT hJ
    have hmem : ∀ l, l ≠ .block r i → J.mem l = I.mem l := by
      intro l hl
      rw [hJ, Channels.take]
      split
      · exact Function.update_of_ne hl ..
      · rfl
    refine ⟨J, h.set (hT.recount (fun _ => rfl) htaken) (fun _ => by omega) (fun _ => ?_)
      (fun j hj hst hcr => ?_) (fun q hq => ⟨hmem _ (by simp), fun j => hmem _ (by simp [hq])⟩)
      (Nat.le_refl _) ?_ (h.outputs r)⟩
    · rw [hmem _ (by simp)]; exact h.own r (.inr (.inl hs))
    · by_cases hji : j = i
      · subst hji
        have hcar : (wiring counts).carries (.target r j) = true := by
          rw [carries_target]; simpa using hcr
        have hv' := hgood hcar
        rw [taken_target _ _ hi, Progress.passed_of_le hp] at hv'
        rw [hJ, Channels.take, if_pos hcar]
        simpa [wiring, progress, Good, Node.run] using hv'
      · rw [hmem _ (by simp [hji])]
        refine h.block r j hj ?_ hcr
        simp only [steps, hs] at hst ⊢
        omega
    · have := h.ahead r
      rw [Progress.passed_of_lt (by simp only [progress, progressOf]; omega)] at this
      rw [Progress.passed_of_lt (by simp [steps, hs])]
      exact this
  by_cases hlast : i + 1 = n - 1
  · -- the last block: acknowledge it to the left
    rw [if_pos hlast] at hF
    subst hF
    have hfree : (schedule counts).sent (progress s) (.source (left r) i) =
        bump ((schedule counts).taken (progress s)) (.target r i) (.source (left r) i) := by
      have h1 := h.tracks.lt_of_slot hset
      rw [sent_target _ _ hi, taken_target _ _ hi, Progress.passed_of_le hp] at h1
      have h2 := (progress s (left r)).passed_le i
      have h3 := (progress s (left r)).run_le_passed n
      have h4 := h.ack_le hn (left r)
      rw [right_left, ← hlast, Progress.passed_of_le hp] at h4
      rw [bump_apply, if_neg (by simp), Nat.add_zero, sent_source _ _ (by omega),
        taken_source _ _ (by omega), right_left, ← hlast, Progress.passed_of_le hp]
      omega
    have hpost := ht.post_bare (p := .source (left r) i) rfl hfree
    refine key _ (hpost.recount ?_ (fun _ => rfl)) rfl
    refine hmv.tally_bump ((used_source _).mpr (by omega)) (by simp [Schedule.sender, schedule, wiring])
      (by simp only [schedule]; omega) (by simp only [schedule]; omega) fun p hu ho hx hlt => ?_
    cases p with
    | source q j =>
      rw [used_source] at hu
      simp only [Schedule.sender, schedule, wiring] at ho
      rw [← ho, left_right]; congr; omega
    | target q j => rw [used_target] at hu; simp only [schedule] at hx; omega
  · -- forward it to the right
    rw [if_neg hlast] at hF
    subst hF
    have hrun : (s.node r).run ≤ (s.node (right r)).run := by
      have := h.ahead r
      rw [Progress.passed_of_lt (by simp only [progress, progressOf]; omega)] at this
      simpa [progress, progressOf] using this
    have hidle := h.idle_right hn r (i := i + 1) (by omega) hp
    have hpeer : (wiring counts).peer (.target (right r) (i + 1)) = .source r (i + 1) := by
      simp [wiring]
    have hpost := ht.post (p := .target (right r) (i + 1))
      (by rw [hidle, bump_apply, if_neg (by simp [right_ne hn])]; rfl)
      (fun _ => by simp [wiring, right_ne hn])
      (fun _ q hq hlt => by
        -- the block just taken is not on its way again
        rw [hpeer]
        cases q with
        | source => simp [wiring] at hq
        | target q j =>
          simp only [wiring, ne_eq, Loc.block.injEq, not_and]
          rintro rfl rfl
          have := h.tracks.sent_le (.target q j)
          rw [bump_apply, if_pos rfl] at hlt
          omega)
      (fun _ q hq hlt => by
        cases q with
        | source => simp [wiring] at hq
        | target q j =>
          simp only [wiring, ne_eq, Loc.block.injEq, not_and]
          rintro rfl rfl
          have := hbump (.target (right r) (i + 1))
          omega)
      (fun _ q hq hf => h.unread_right hn r hp hrun hq hf)
      (fun hcar => by
        have hcar' : (wiring counts).carries (.target r i) = true := by
          rw [carries_target] at hcar ⊢; rwa [receive_index_right] at hcar
        have hv' := hgood hcar'
        rw [taken_target _ _ hi, Progress.passed_of_le hp] at hv'
        rw [hpeer, sent_target _ _ (by omega), left_right, Progress.passed_of_le hp]
        simp only [Good, receive_index_right] at hv' ⊢
        rw [← hv', Channels.take, if_pos hcar']
        exact Function.update_self ..)
    refine key _ (hpost.recount ?_ (fun _ => rfl)) rfl
    refine hmv.tally_bump ((used_target _).mpr (by omega)) (by simp [Schedule.sender, schedule, wiring])
      (Nat.le_refl _) (Nat.lt_succ_self _) fun p hu ho hx hlt => ?_
    cases p with
    | source q j => simp only [schedule] at hx hlt; omega
    | target q j =>
      simp only [Schedule.sender, schedule, wiring] at ho hx hlt
      rw [← ho, right_left]; congr; omega

/-! ## Copying out -/

/-- What has arrived in this run is not on its way again. -/
theorem arrived (h : Holds counts input s I) {i : Nat} (hi : i + 1 < n)
    (hst : i + 1 < steps n (s.node r)) : (schedule counts).sent (progress s) (.target r i) =
      (schedule counts).taken (progress s) (.target r i) := by
  have h1 := h.data_le (left r) hi
  have h2 := h.ahead (left r)
  have h3 := (progress s (left r)).passed_anti (Nat.zero_le i)
  have h4 : (progress s r).passed (i + 1) = (s.node r).run + 1 := Progress.passed_of_lt hst
  rw [right_left] at h1 h2
  rw [sent_target _ _ hi, taken_target _ _ hi]
  omega

theorem mem_own (h : Holds counts input s I) (r : Fin n) : s.fabric.mem (.own r) = I.mem (.own r) :=
  h.tracks.mem_eq fun q hq _ => by cases q <;> simp [wiring] at hq ⊢

theorem mem_block (h : Holds counts input s I) {i : Nat} (hi : i + 1 < n)
    (hst : i + 1 < steps n (s.node r)) : s.fabric.mem (.block r i) = I.mem (.block r i) := by
  refine h.tracks.mem_eq fun q hq hlt => ?_
  cases q with
  | source => simp [wiring] at hq
  | target q j =>
    simp only [wiring, ne_eq, Loc.block.injEq, not_and]
    rintro rfl rfl
    have := h.arrived hi hst
    omega

/-- A finished rank's buffers hold the blocks of its current run. -/
theorem copies_finished (h : Holds counts input s I) (hn : 2 ≤ n) (hs : (s.node r).state = .finished) :
    copies counts r s.fabric =
      (order r).map fun q => (offsets counts q, readFrom (input q (s.node r).run) (counts q)) := by
  rw [copies, order, List.map_cons, List.map_map]
  congr 1
  · have : s.fabric.mem ((wiring counts).loc (.source r 0)) = readFrom (input r (s.node r).run) (counts r) :=
      (h.mem_own r).trans (h.own r (.inr (.inr hs)))
    rw [this, take_readFrom]
  · refine List.map_congr_left fun i hi => ?_
    have hi' : i + 1 < n := by have := List.mem_range.mp hi; omega
    have hst : i + 1 < steps n (s.node r) := by simp only [steps, hs]; omega
    simp only [Function.comp_apply, Prod.mk.injEq, true_and]
    by_cases hc : 0 < counts (receive_index r i)
    · have : s.fabric.mem ((wiring counts).loc (.target r i)) =
          readFrom (input (receive_index r i) (s.node r).run) (counts (receive_index r i)) :=
        (h.mem_block hi' hst).trans (h.block r i hi' hst hc)
      rw [this, take_readFrom]
    · obtain h0 : counts (receive_index r i) = 0 := by omega
      simp [h0, readFrom]

theorem copyOut (h : Holds counts input s I) (hn : 2 ≤ n) (hs : (s.node r).state = .finished) :
    Holds counts input (Collective.setNode s r
      { s.node r with
        state := .initialized
        outputs := (s.node r).outputs ++ [copyOutImpl counts r (s.node r).fields s.fabric] }
      s.fabric) I := by
  have hw : Schedule.Wraps (progress s) (progress (Collective.setNode s r
      { s.node r with
        state := .initialized
        outputs := (s.node r).outputs ++ [copyOutImpl counts r (s.node r).fields s.fabric] }
      s.fabric)) r (n + 1) := wraps (by simp [Node.run]) (by simp [steps, hs]) rfl
  refine h.set (h.tracks.recount (hw.tally fun p hu _ => ?_) (hw.tally fun p hu _ => ?_)) (by simp)
    (by simp [Active]) (fun i _ hst => by simp [steps] at hst) (fun q _ => ⟨rfl, fun _ => rfl⟩)
    (by simp [Node.run]) ?_ (fun k out hk => ?_)
  · cases p with
    | source q i => simp only [schedule]; omega
    | target q i => rw [used_target] at hu; simp only [schedule]; omega
  · cases p with
    | source q i => simp only [schedule]; omega
    | target q i => rw [used_target] at hu; simp only [schedule]; omega
  · have := h.ahead r
    rw [Progress.passed_of_lt (by simp only [progress, progressOf, steps, hs]; omega)] at this
    rw [Progress.passed_of_le (by simp [steps])]
    simpa [progress, progressOf, Node.run] using this
  · rcases Node.getElem?_append_outputs hk with hk | ⟨rfl, rfl⟩
    · exact h.outputs r k out hk
    · exact gathered_of_copies (h.copies_finished hn hs) (by omega) _

/-! ## Every call -/

theorem trigger (h : Holds counts input s I) (hn : 2 ≤ n) (hs : (s.node r).state = .running)
    {done : Bool} {f : Fields T} {F' : Net n T}
    (ht : triggerProgressImpl counts r (s.node r).fields s.fabric = (done, f, F')) :
    ∃ I', Holds counts input (Collective.setNode s r
      { s.node r with state := if done then .finished else .running, fields := f } F') I' := by
  have hlt := h.step_lt r hs
  -- nothing has arrived: the call changes nothing
  have stay : ∃ I', Holds counts input (Collective.setNode s r
      { s.node r with state := .running, fields := (s.node r).fields } s.fabric) I' :=
    ⟨I, h.set_same rfl (by simp [steps, hs]) rfl (fun _ => hlt) (fun _ => .inr (.inl hs))⟩
  have hn1 : n ≠ 1 := by omega
  by_cases hlast : (s.node r).fields.current_step = n - 1
  · cases hslot : s.fabric.slot (.source r (n - 2)) with
    | true =>
      rw [triggerProgressImpl_ack_set hn1 hlast hslot] at ht
      cases ht
      exact h.finish hn hs hlast hslot
    | false =>
      rw [triggerProgressImpl_ack_clear hn1 hlast hslot] at ht
      cases ht
      exact stay
  · cases hslot : s.fabric.slot (.target r (s.node r).fields.current_step) with
    | true =>
      rw [triggerProgressImpl_target_set hn1 hlast hslot] at ht
      cases ht
      rw [if_neg (by simp), ← hs]
      exact h.forward hn hs rfl (by omega) hslot _ rfl
    | false =>
      rw [triggerProgressImpl_target_clear hn1 hlast hslot] at ht
      cases ht
      exact stay

end Holds

/-- **The invariant holds in every run in which every start waits for the right
neighbour.** -/
theorem holds_of_reach (hn : 2 ≤ n) {m : Loc n → List T}
    (h : (allgatherv counts).Reach input m WaitsForRight s) : ∃ I, Holds counts input s I := by
  refine Collective.Reach.invariant (P := fun s => ∃ I, Holds counts input s I) ⟨_, Holds.initial m⟩ ?_ h
  rintro s a t ⟨I, hI⟩ hg ha
  cases ha with
  | waitForSetup hs => exact ⟨I, hI.set_same rfl (by simp [steps, hs]) rfl (by simp) (by simp [Active])⟩
  | copyIn hs hc => exact hI.copyIn hn hs hc
  | start hs hc => exact hI.start hn hs (hg rfl) hc
  | trigger hs ht => exact hI.trigger hn hs ht
  | idle => exact ⟨I, hI⟩
  | copyOut hs => exact ⟨I, hI.copyOut hn hs⟩
  | network ha => exact ⟨I, hI.tracks.advance ha, hI.step_lt, hI.own, hI.block, hI.ahead, hI.outputs⟩

end GaspiCxx.Collectives.AllgathervRing
