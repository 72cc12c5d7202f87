import GaspiCxx.Collectives.AllreduceRing.Invariant

/-!
# Every step keeps the invariant

One lemma for each call; `Holds.set` carries over everything a call of rank
`r` does not touch.
-/

namespace GaspiCxx.Collectives.AllreduceRing

open OneSided SingleSided GroupUtilities AllreduceCommon

variable {n number_elements : Nat} {T : Type} {f : T → T → T} {input : Fin n → Nat → Nat → T}
  {s : GroupSys n number_elements T} {I I' : Channels (Port n) (Loc n) (Chunk n number_elements T)}
  {r j : Fin n} {N : Node (Fields n T) (Nat → Option T)} {F : Net n number_elements T}

section

variable {k st : Nat} {v : Chunk n number_elements T}

theorem contents_own (h : st ≤ dist j r) : Contents f input k st r j v ↔ Own input k r j v := by
  rw [Contents, if_pos h]

theorem contents_reduced (h : dist j r < st) (h' : st ≤ n + dist j r) :
    Contents f input k st r j v ↔ Reduced f input k j (dist j r) v := by
  rw [Contents, if_neg (by omega), if_pos h']

theorem contents_result (h : n + dist j r < st) :
    Contents f input k st r j v ↔ Reduced f input k j (n - 1) v := by
  rw [Contents, if_neg (by omega), if_neg (by omega)]

/-- Passing a position that is not the chunk's own changes nothing for it. -/
theorem Contents.step (h : Contents f input k st r j v) (h1 : st ≠ dist j r) (h2 : st ≠ n + dist j r) :
    Contents f input k (st + 1) r j v := by
  by_cases hd : st ≤ dist j r
  · exact (contents_own (by omega)).mpr ((contents_own hd).mp h)
  · by_cases hg : st ≤ n + dist j r
    · exact (contents_reduced (by omega) (by omega)).mpr ((contents_reduced (by omega) hg).mp h)
    · exact (contents_result (by omega)).mpr ((contents_result (by omega)).mp h)

end

namespace Holds

theorem initial (m : Loc n → Chunk n number_elements T) :
    Holds f input ((allreduce n number_elements f).initial m) { mem := m, msg := fun _ => none } where
  tracks := (Tracks.quiet _ _ m).recount
    (fun p => by simp [Schedule.sent, Schedule.tally, progressOf, steps, Collective.initial, Node.run,
      Progress.passed])
    (fun p => by simp [Schedule.taken, Schedule.tally, progressOf, steps, Collective.initial, Node.run,
      Progress.passed])
  step_le r hr := by simp [Collective.initial] at hr
  index r hr := by simp [Collective.initial] at hr
  contents r j hr := by simp [Active, Collective.initial] at hr
  outputs r k out hk := by simp [Collective.initial] at hk

/-- A call of rank `r` that touches only `r`'s memory. -/
theorem set (h : Holds f input s I)
    (ht : Tracks (wiring n) (Good f input) F I'
      ((schedule n).sent (progress n (Collective.setNode s r N F)))
      ((schedule n).taken (progress n (Collective.setNode s r N F))))
    (hstep : N.state = .running → N.fields.current_step ≤ 2 * (n - 1) ∧
      dist N.fields.current_index r =
        if N.fields.current_step + 1 < n then N.fields.current_step + 1
        else N.fields.current_step + 1 - n)
    (hcont : Active N → ∀ j, Contents f input N.run (steps n N) r j (I'.mem (.chunk r j)))
    (hmem : ∀ q j, q ≠ r → I'.mem (.chunk q j) = I.mem (.chunk q j))
    (hout : ∀ k out, N.outputs[k]? = some out →
      out = result number_elements f input k) :
    Holds f input (Collective.setNode s r N F) I' := by
  have hnode : ∀ q, q ≠ r → (Collective.setNode s r N F).node q = s.node q :=
    fun q hq => Collective.setNode_of_ne s hq N F
  have hself := Collective.setNode_self s r N F
  refine ⟨ht, fun q hq => ?_, fun q hq => ?_, fun q i hq => ?_, fun q k out hk => ?_⟩
  · by_cases hqr : q = r
    · subst hqr; rw [hself] at hq ⊢; exact (hstep hq).1
    · rw [hnode q hqr] at hq ⊢; exact h.step_le q hq
  · by_cases hqr : q = r
    · subst hqr; rw [hself] at hq ⊢; exact (hstep hq).2
    · rw [hnode q hqr] at hq ⊢; exact h.index q hq
  · by_cases hqr : q = r
    · subst hqr; rw [hself] at hq ⊢; exact hcont hq i
    · rw [hnode q hqr] at hq ⊢; rw [hmem q i hqr]; exact h.contents q i hq
  · by_cases hqr : q = r
    · subst hqr; rw [hself] at hk; exact hout k out hk
    · rw [hnode q hqr] at hk; exact h.outputs q k out hk

/-- A call that leaves the fabric alone and posts and takes nothing. -/
theorem set_same (h : Holds f input s I) (hrun : N.run = (s.node r).run)
    (hsteps : steps n N = steps n (s.node r)) (hout : N.outputs = (s.node r).outputs)
    (hfields : N.state = .running → (s.node r).state = .running ∧ N.fields = (s.node r).fields)
    (hact : Active N → Active (s.node r)) :
    Holds f input (Collective.setNode s r N s.fabric) I := by
  refine h.set (by rw [progress, progressOf_same hrun hsteps]; exact h.tracks) (fun hs => ?_)
    (fun ha j => ?_) (fun _ _ _ => rfl) (fun k out hk => ?_)
  · obtain ⟨h1, h2⟩ := hfields hs
    rw [h2]
    exact ⟨h.step_le r h1, h.index r h1⟩
  · rw [hrun, hsteps]; exact h.contents r j (hact ha)
  · rw [hout] at hk; exact h.outputs r k out hk

/-! ## Entering a run -/

variable (hN : 0 < number_elements) (hn : 2 ≤ n)
include hn

include hN in
theorem copyIn (h : Holds f input s I) (hs : (s.node r).state = .initialized) {f' : Fields n T}
    (hc : copyInImpl r (input r (s.node r).run) (s.node r).fields s.fabric = (f', F)) :
    ∃ I', Holds f input (Collective.setNode s r { s.node r with state := .ready, fields := f' } F) I' := by
  have h0 : steps n (s.node r) = 0 := by simp [steps, hs]
  rw [copyInImpl, if_neg (show n ≠ 1 by omega), buffers, if_pos ⟨hN, by omega⟩] at hc
  cases hc
  obtain ⟨I', ht, hmem, -, hval⟩ := copyInLoop_spec (r := r) (input r (s.node r).run)
    (List.finRange n) 0 s.fabric I remaining_finRange (by omega) h.tracks
    (fun j q hq hlt => h.apart_chunk hn (.inl (by omega)) hq hlt)
    (fun j q hq hf => h.unread_chunk hn (by omega) hq hf)
  rw [Nat.zero_mul] at ht
  refine ⟨I', h.set ?_ (by simp) (fun _ j => ?_) (fun q i hq => hmem _ ?_) (h.outputs r)⟩
  · rw [progress, progressOf_same (by rfl) (by rw [h0]; rfl)]
    exact ht
  · exact (contents_own (Nat.zero_le _)).mpr fun e he => hval j e (Nat.zero_le _) he
  · simp [hq]

include hN in
theorem start (h : Holds f input s I) (hs : (s.node r).state = .ready) {f' : Fields n T}
    (hc : startImpl r (s.node r).fields s.fabric = (f', F)) :
    ∃ I', Holds f input (Collective.setNode s r { s.node r with state := .running, fields := f' } F) I' := by
  have h0 : steps n (s.node r) = 0 := by simp [steps, hs]
  rw [startImpl, if_pos ⟨hN, by omega⟩] at hc
  cases hc
  have hd : dist r (right r) = 0 + 1 := by rw [dist_right, dist_self, if_neg (by omega)]
  have hpeer : (wiring n).loc ((wiring n).peer (.target_reduce (right r) r)) = .chunk r r := by
    simp [wiring]
  have hpost := h.tracks.post (p := .target_reduce (right r) r)
    (h.idle_reduce_out hn r hd (by omega))
    (fun _ => by simp [wiring])
    (fun _ q hq hlt => by rw [hpeer]; exact h.apart_chunk hn (by omega) hq hlt)
    (fun _ q hq hlt => apart_of_eq rfl (h.idle_reduce_out hn r hd (by omega)) hq hlt)
    (fun _ q hq hf => by cases q <;> simp [wiring] at hq ⊢)
    (fun _ => by
      have hcont := h.contents r r (.inl hs)
      rw [hpeer, sent_target_reduce _ hd, left_right, Progress.passed_of_le (by simp [h0])]
      rw [h0, contents_own (Nat.zero_le _)] at hcont
      simp only [Good, hd]
      exact hcont)
  have hmv : Schedule.Moves (progress n s) (progress n (Collective.setNode s r
      { s.node r with
        state := .running
        fields := { (s.node r).fields with current_step := 0, current_index := left r } }
      (s.fabric.post (.target_reduce (right r) r)))) r 0 1 := moves rfl h0 rfl (Nat.zero_le 1)
  refine ⟨_, h.set (hpost.recount ?_ ?_) (fun _ => ⟨Nat.zero_le _, ?_⟩) (fun _ j => ?_)
    (fun _ _ _ => rfl) (h.outputs r)⟩
  · refine hmv.tally_bump (used_target_reduce.mpr (by omega)) (by simp [Schedule.sender, schedule, wiring])
      (Nat.zero_le _) (by simp [schedule, hd]) fun p hu ho _ hlt => ?_
    cases p with
    | source_reduce q i => simp [schedule] at hu
    | source_gather q i => simp only [schedule] at hlt; omega
    | target_gather q i => simp only [schedule] at hlt; omega
    | target_reduce q i =>
      have hpos := used_target_reduce.mp hu
      simp only [Schedule.sender, schedule, wiring] at ho hlt
      obtain rfl : q = right r := by rw [← ho, right_left]
      rw [dist_inj (hd.trans (show 0 + 1 = dist i (right r) by omega))]
  · refine hmv.tally_same fun p hu ho hlt => ?_
    cases p with
    | source_reduce q i => simp [schedule] at hu
    | source_gather q i => simp only [schedule] at hlt; omega
    | target_gather q i => simp only [schedule] at hlt; omega
    | target_reduce q i => have := used_target_reduce.mp hu; simp only [schedule] at hlt; omega
  · rw [dist_left, dist_self]; simp only; split <;> split <;> omega
  · have hcont := h.contents r j (.inl hs)
    rw [h0, contents_own (Nat.zero_le _)] at hcont
    show Contents f input (s.node r).run 1 r j (I.mem (.chunk r j))
    by_cases hj : dist j r = 0
    · obtain rfl := dist_eq_zero hj
      rw [contents_reduced (by omega) (by omega), hj]
      exact hcont
    · exact (contents_own (by omega)).mpr hcont

/-! ## Leaving a run -/

/-- The acknowledgement arrives: the run is finished. -/
theorem finish (h : Holds f input s I) (hs : (s.node r).state = .running)
    (hc : (s.node r).fields.current_step = 2 * (n - 1)) (hj : dist j (right r) + 2 = n)
    (hset : s.fabric.slot (.source_gather r j) = true) :
    ∃ I', Holds f input (Collective.setNode s r { s.node r with state := .finished }
      (s.fabric.reset (.source_gather r j))) I' := by
  have h0 : steps n (s.node r) = 2 * n - 1 := by simp only [steps, hs, hc]; omega
  have hmv : Schedule.Moves (progress n s) (progress n (Collective.setNode s r
      { s.node r with state := .finished } (s.fabric.reset (.source_gather r j)))) r (2 * n - 1)
      (2 * n - 1 + 1) := moves rfl h0 (by simp only [steps]; omega) (by omega)
  obtain ⟨v, -, -, ht⟩ := h.tracks.take hset
  have hmem : (I.take (wiring n) (.source_gather r j) v).mem = I.mem := by
    simp [Channels.take, wiring]
  have hu := used_source_gather.mpr hj
  refine ⟨_, h.set (ht.recount (hmv.tally_same fun p hp _ hlt => ?_)
    (hmv.tally_step hu rfl rfl fun p hp ho hpos => takeAt_inj hn hp hu ho hpos)) (by simp) (fun _ i => ?_)
    (fun _ _ _ => by rw [hmem]) (h.outputs r)⟩
  · cases p with
    | source_reduce q i => cases hp
    | target_reduce q i => have := dist_lt i q; simp only [schedule] at hlt; omega
    | source_gather q i => simp only [schedule] at hlt; omega
    | target_gather q i => have := used_target_gather.mp hp; simp only [schedule] at hlt; omega
  · have hcont := h.contents r i (.inr (.inl hs))
    have := dist_lt i r
    rw [hmem]
    show Contents f input (s.node r).run (2 * n) r i _
    rw [h0] at hcont
    -- the last chunk's result is its own reduction
    by_cases hd : dist i r = n - 1
    · rw [contents_reduced (by omega) (by omega), hd] at hcont
      rw [contents_result (by omega)]
      exact hcont
    · rw [contents_result (by omega)] at hcont
      rwa [contents_result (by omega)]

include hN in
theorem copyOutImpl_finished (h : Holds f input s I) (hs : (s.node r).state = .finished) :
    copyOutImpl r (s.node r).fields s.fabric =
      result number_elements f input (s.node r).run := by
  rw [copyOutImpl, if_neg (show n ≠ 1 by omega), buffers, if_pos ⟨hN, by omega⟩]
  have h0 := steps_finished n hs
  have hloop := copyOutLoop_spec (r := r) (F := s.fabric)
    (g := result number_elements f input (s.node r).run) (fun j e he => ?_)
    (List.finRange n) 0 (fun _ => none) remaining_finRange (by omega) (fun t ht => ?_)
  · rwa [Nat.zero_mul] at hloop
  · have hd := dist_lt j r
    have hmem : s.fabric.mem (.chunk r j) = I.mem (.chunk r j) :=
      h.tracks.mem_eq fun q hq hlt => h.apart_chunk hn (.inr (by omega)) hq hlt
    have hcont := h.contents r j (.inr (.inr hs))
    rw [contents_result (by omega)] at hcont
    have hdiv := element_div j e
    have hlt : element n number_elements j e / number_elements_padded n number_elements < n := by
      rw [hdiv]; exact j.isLt
    rw [result, dif_pos ⟨hlt, he⟩, hmem, hcont e he]
    simp only [hdiv]
  · rw [result, dif_neg (by omega)]

include hN in
theorem copyOut (h : Holds f input s I) (hs : (s.node r).state = .finished) :
    Holds f input (Collective.setNode s r
      { s.node r with
        state := .initialized
        outputs := (s.node r).outputs ++ [copyOutImpl r (s.node r).fields s.fabric] }
      s.fabric) I := by
  have hw : Schedule.Wraps (progress n s) (progress n (Collective.setNode s r
      { s.node r with
        state := .initialized
        outputs := (s.node r).outputs ++ [copyOutImpl r (s.node r).fields s.fabric] }
      s.fabric)) r (2 * n) := wraps (by simp [Node.run]) (by simp [steps, hs]) rfl
  refine h.set (h.tracks.recount (hw.tally fun p hu _ => ?_) (hw.tally fun p hu _ => ?_)) (by simp)
    (by simp [Active]) (fun _ _ _ => rfl) (fun k out hk => ?_)
  · cases p with
    | source_reduce q i => cases hu
    | target_reduce q i => have := dist_lt i q; simp only [schedule]; omega
    | source_gather q i => simp only [schedule]; omega
    | target_gather q i => have := used_target_gather.mp hu; simp only [schedule]; omega
  · cases p with
    | source_reduce q i => cases hu
    | target_reduce q i => have := dist_lt i q; simp only [schedule]; omega
    | source_gather q i => simp only [schedule]; omega
    | target_gather q i => have := used_target_gather.mp hu; simp only [schedule]; omega
  · rcases Node.getElem?_append_outputs hk with hk | ⟨rfl, rfl⟩
    · exact h.outputs r k out hk
    · exact h.copyOutImpl_finished hN hn hs

end Holds

end GaspiCxx.Collectives.AllreduceRing
