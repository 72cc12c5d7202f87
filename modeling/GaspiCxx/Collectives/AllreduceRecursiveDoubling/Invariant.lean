import GaspiCxx.Collectives.AllreduceRecursiveDoubling.Schedule
import GaspiCxx.Collectives.AllreduceRecursiveDoubling.Values

/-!
# The invariant of the recursive-doubling allreduce

A rank acknowledges the data of an iteration when it arrives and reduces it
when its own acknowledgement is there. Between the two (`Pending`) its partner
may complete the run and send the next run's data over it. `ahead` says that no
rank does, and `Careful` is what a call has to respect to keep it.
-/

namespace GaspiCxx.Collectives.AllreduceRecursiveDoubling

open OneSided SingleSided AllreduceCommon

variable {n number_elements : Nat} {T : Type} (op : T → T → T)
  (input : Fin n → Nat → Vec number_elements T)

/-- The ranks' inputs of run `k`. -/
abbrev round (k : Nat) (r : Fin n) : Vec number_elements T := input r k

/-- What the `k`-th transfer to a target buffer has to bring. -/
def Good : Port n → Nat → Vec number_elements T → Prop
  | .target r i, k, v => v = value op (round input k) i (neighbor r i)
  | .target_non_power_two r, k, v =>
    if is_even_non_extra_rank r then v = input (neighbor_non_power_two r) k
    else v = value op (round input k) (number_iterations n) (neighbor_non_power_two r)
  | .source _ _, _, _ | .source_non_power_two _, _, _ => True

abbrev Object (number_elements : Nat) (T : Type) :=
  Node (Fields number_elements T) (Option (Vec number_elements T))

/-- The input of the current run has been copied in. -/
def Active (N : Object number_elements T) : Prop :=
  N.state = .ready ∨ N.state = .running ∨ N.state = .finished

/-- What the source buffers of rank `r` hold in a run with the inputs `x`. -/
def contents (x : Fin n → Vec number_elements T) (r : Fin n) (N : Object number_elements T) :
    Vec number_elements T :=
  if is_odd_non_extra_rank r then x r
  else match N.state, N.fields.alg_stage with
    | .running, .WAIT_FOR_DATA | .running, .WAIT_FOR_ACK => value op x N.fields.iteration r
    | .running, .FINAL_STEP_NON_POWER_TWO | .finished, _ => value op x (number_iterations n) r
    | _, _ => x r

/-- The data of iteration `i` has been observed, and is not reduced yet. -/
def Pending (N : Object number_elements T) (i : Nat) : Prop :=
  N.state = .running ∧ N.fields.alg_stage = .WAIT_FOR_ACK ∧ N.fields.iteration = i

/-- The members of a running object. -/
def Running (r : Fin n) (f : Fields number_elements T) : Prop :=
  match f.alg_stage with
  | .NOT_STARTED => False
  | .INITIAL_STEP_NON_POWER_TWO =>
    is_non_extra_rank r ∧ f.iteration < number_iterations n ∧ (is_even_non_extra_rank r → f.iteration = 0)
  | .WAIT_FOR_DATA | .WAIT_FOR_ACK => is_active_rank r ∧ f.iteration < number_iterations n
  | .FINAL_STEP_NON_POWER_TWO => True

structure Holds (s : GroupSys n number_elements T)
    (I : Channels (Port n) (Loc n) (Vec number_elements T)) : Prop where
  tracks : Tracks (wiring n) (Good op input) s.fabric I ((schedule n).sent (progress s))
    ((schedule n).taken (progress s))
  running : ∀ r, (s.node r).state = .running → Running r (s.node r).fields
  source : ∀ r, Active (s.node r) →
    I.mem (.source r) = contents op (round input (s.node r).run) r (s.node r)
  target : ∀ r i, is_active_rank r → Pending (s.node r) i →
    I.mem (.target r i) = value op (round input (s.node r).run) i (neighbor r i)
  final : ∀ r, is_odd_non_extra_rank r → (s.node r).state = .finished →
    I.mem (.target_non_power_two r) =
      value op (round input (s.node r).run) (number_iterations n) (neighbor_non_power_two r)
  ahead : ∀ r i, is_active_rank r → i < number_iterations n →
    (progress s r).passed (1 + 2 * i) ≤ (progress s (neighbor r i)).passed (3 + 2 * i) + 1
  outputs : ∀ r k out, (s.node r).outputs[k]? = some out → out = some (result op (round input k) r)

/-- The iteration whose source buffer a call of rank `r` posts. -/
def posts (s : GroupSys n number_elements T) (r : Fin n) : Call → Option Nat
  | .start => if is_extra_rank r then some 0 else none
  | .triggerProgress =>
    if (s.node r).state = .running then
      match (s.node r).fields.alg_stage with
      | .INITIAL_STEP_NON_POWER_TWO =>
        if is_even_non_extra_rank r ∧ s.fabric.slot (.target_non_power_two r) = true then some 0 else none
      | .WAIT_FOR_ACK =>
        if s.fabric.slot (.source r (s.node r).fields.iteration) = true ∧
            (s.node r).fields.iteration + 1 < number_iterations n then
          some ((s.node r).fields.iteration + 1)
        else none
      | _ => none
    else none
  | .waitForSetup | .copyIn | .copyOut => none

/-- The partner has reduced the data of iteration `i` in all runs before. -/
def Clear (s : GroupSys n number_elements T) (r : Fin n) (i : Nat) : Prop :=
  (s.node r).run ≤ (progress s (neighbor r i)).passed (3 + 2 * i)

def Careful (s : GroupSys n number_elements T) (r : Fin n) (c : Call) : Prop :=
  ∀ i, posts s r c = some i → Clear s r i

variable {op input} {s : GroupSys n number_elements T}
  {I I' : Channels (Port n) (Loc n) (Vec number_elements T)} {r : Fin n} {N : Object number_elements T}
  {F : Net number_elements n T}

/-- The rank that owns a buffer. -/
def Loc.rank : Loc n → Fin n
  | .source r | .target r _ | .target_non_power_two r => r

/-! ## Positions and members -/

theorem steps_running_lt (h : Running r N.fields) (hs : N.state = .running) :
    1 ≤ steps r N ∧ steps r N < 4 + 2 * number_iterations n := by
  unfold Running at h
  simp only [steps, hs]
  cases hst : N.fields.alg_stage with
  | NOT_STARTED => simp only [hst] at h
  | INITIAL_STEP_NON_POWER_TWO => simp only; omega
  | WAIT_FOR_DATA | WAIT_FOR_ACK => simp only [hst] at h ⊢; omega
  | FINAL_STEP_NON_POWER_TWO => simp only; split <;> omega

/-- Position `3 + 2 * i` is where a rank waits for the acknowledgement of iteration `i`. -/
theorem pending_of_steps {i : Nat} (hi : i < number_iterations n) (h : steps r N = 3 + 2 * i) :
    Pending N i := by
  unfold steps at h
  cases hs : N.state with
  | running =>
    simp only [hs] at h
    cases hst : N.fields.alg_stage with
    | WAIT_FOR_ACK => simp only [hst] at h; exact ⟨hs, hst, by omega⟩
    | FINAL_STEP_NON_POWER_TWO => simp only [hst] at h; split at h <;> omega
    | NOT_STARTED | INITIAL_STEP_NON_POWER_TWO | WAIT_FOR_DATA => simp only [hst] at h; omega
  | uninitialized | initialized | ready | finished => simp only [hs] at h; omega

theorem steps_of_pending {i : Nat} (h : Pending N i) : steps r N = 3 + 2 * i := by
  obtain ⟨hs, hst, rfl⟩ := h
  simp [steps, hs, hst]

/-! ## What the source buffers hold -/

section

variable {x : Fin n → Vec number_elements T}

theorem contents_odd (hr : is_odd_non_extra_rank r) : contents op x r N = x r := if_pos hr

theorem contents_ready (hs : N.state = .ready) : contents op x r N = x r := by simp [contents, hs]

theorem contents_initial (hst : N.fields.alg_stage = .INITIAL_STEP_NON_POWER_TWO) (hs : N.state = .running) :
    contents op x r N = x r := by simp [contents, hs, hst]

theorem contents_wait (hr : is_active_rank r) (hs : N.state = .running)
    (hst : N.fields.alg_stage = .WAIT_FOR_DATA ∨ N.fields.alg_stage = .WAIT_FOR_ACK) :
    contents op x r N = value op x N.fields.iteration r := by
  rw [contents, if_neg (not_odd_of_active hr)]
  rcases hst with hst | hst <;> simp only [hs, hst]

theorem contents_final (hr : is_active_rank r)
    (hs : N.state = .running ∧ N.fields.alg_stage = .FINAL_STEP_NON_POWER_TWO ∨ N.state = .finished) :
    contents op x r N = value op x (number_iterations n) r := by
  rw [contents, if_neg (not_odd_of_active hr)]
  rcases hs with ⟨hs, hst⟩ | hs
  · simp only [hs, hst]
  · simp only [hs]

end

/-! ## Where data is on its way to -/

section

variable {p q : Port n} {sent taken : Port n → Nat}

theorem loc_ne_source (hq : (wiring n).carries q = true) : (wiring n).loc q ≠ .source r := by
  cases q <;> simp [wiring] at hq ⊢

theorem loc_inj (hp : (wiring n).carries p = true) (hq : (wiring n).carries q = true)
    (h : (wiring n).loc p = (wiring n).loc q) : p = q := by
  cases p <;> cases q <;> simp_all [wiring]

theorem apart_of_eq (hp : (wiring n).carries p = true) (he : sent p = taken p)
    (hq : (wiring n).carries q = true) (hlt : taken q < sent q) : (wiring n).loc q ≠ (wiring n).loc p := by
  intro h
  obtain rfl := loc_inj hq hp h
  omega

/-- A transfer can be posted as soon as the one before has been taken. -/
theorem post_data (ht : Tracks (wiring n) (Good op input) F I sent taken) (hp : (wiring n).carries p = true)
    (hfree : sent p = taken p) (hgood : Good op input p (sent p) (I.mem ((wiring n).loc ((wiring n).peer p)))) :
    Tracks (wiring n) (Good op input) (F.post p) (I.post (wiring n) p) (bump sent p) taken := by
  have hsrc : ∀ q, (wiring n).carries q = true → ∃ r, (wiring n).loc ((wiring n).peer q) = .source r := by
    intro q hq
    cases q <;> first | exact ⟨_, rfl⟩ | simp [wiring] at hq
  refine ht.post hfree (fun _ => ?_) (fun _ q hq _ => ?_) (fun _ q hq hlt => apart_of_eq hp hfree hq hlt)
    (fun _ q hq _ => ?_) (fun _ => hgood)
  · obtain ⟨r, hr⟩ := hsrc p hp
    rw [hr]
    exact loc_ne_source hp
  · obtain ⟨r, hr⟩ := hsrc p hp
    rw [hr]
    exact loc_ne_source hq
  · obtain ⟨r, hr⟩ := hsrc q hq
    rw [hr]
    exact loc_ne_source hp

end

namespace Holds

/-! ## Causality -/

section

variable (h : Holds op input s I)
include h

theorem steps_lt (hs : (s.node r).state ≠ .finished) : steps r (s.node r) < 4 + 2 * number_iterations n := by
  cases hst : (s.node r).state with
  | running => exact (steps_running_lt (h.running r hst) hst).2
  | finished => exact absurd hst hs
  | uninitialized | initialized | ready => simp only [steps, hst]; omega

theorem ack_le (hr : is_active_rank r) {i : Nat} (hi : i < number_iterations n) :
    (progress s r).passed (3 + 2 * i) ≤ (progress s (neighbor r i)).passed (2 + 2 * i) := by
  have := h.tracks.taken_le (.source r i)
  rwa [sent_source _ hr hi, taken_source _ hr hi] at this

theorem initial_le (hr : is_even_non_extra_rank r) :
    (progress s r).passed 1 ≤ (progress s (neighbor_non_power_two r)).passed 0 := by
  have := h.tracks.taken_le (.target_non_power_two r)
  rwa [sent_initial _ hr, taken_initial _ hr] at this

theorem final_le (hr : is_odd_non_extra_rank r) : (progress s r).passed (2 + 2 * number_iterations n) ≤
    (progress s (neighbor_non_power_two r)).passed (1 + 2 * number_iterations n) := by
  have := h.tracks.taken_le (.target_non_power_two r)
  rwa [sent_final _ hr, taken_final _ hr] at this

theorem final_ack_le (hr : is_even_non_extra_rank r) : (progress s r).passed (3 + 2 * number_iterations n) ≤
    (progress s (neighbor_non_power_two r)).passed (2 + 2 * number_iterations n) := by
  have := h.tracks.taken_le (.source_non_power_two r)
  rwa [sent_final_ack _ hr, taken_final_ack _ hr] at this

/-- Nobody writes to a target buffer while its data is pending. -/
theorem idle_pending (hr : is_active_rank r) {i : Nat} (hp : Pending (s.node r) i) :
    (schedule n).sent (progress s) (.target r i) = (schedule n).taken (progress s) (.target r i) := by
  have hrun := h.running r hp.1
  have hi : i < number_iterations n := by
    simp only [Running, hp.2.1, hp.2.2] at hrun
    exact hrun.2
  have hst := steps_of_pending (r := r) hp
  have h1 := h.ahead (neighbor r i) i (active_neighbor hi r) hi
  rw [neighbor_neighbor hi hr, Progress.passed_of_le (g := progress s r) (by simp [hst])] at h1
  refine Nat.le_antisymm ?_ (h.tracks.taken_le _)
  rw [sent_target _ hr hi, taken_target _ hr hi,
    Progress.passed_of_lt (g := progress s r) (by simp only [progressOf_steps, hst]; omega)]
  exact h1

/-- The next result waits for the odd rank's next vector. -/
theorem idle_final (hr : is_odd_non_extra_rank r) (hs : (s.node r).state = .finished) :
    (schedule n).sent (progress s) (.target_non_power_two r) =
      (schedule n).taken (progress s) (.target_non_power_two r) := by
  have heven := even_neighbor hr
  have h1 := h.initial_le heven
  rw [neighbor_neighbor_non_power_two hr.2] at h1
  have h2 := (progress s r).passed_le 0
  have h3 := (progress s (neighbor_non_power_two r)).passed_anti
    (show 1 ≤ 1 + 2 * number_iterations n by omega)
  refine Nat.le_antisymm ?_ (h.tracks.taken_le _)
  rw [sent_final _ hr, taken_final _ hr,
    Progress.passed_of_lt (g := progress s r) (by rw [progressOf_steps, steps_finished hs]; omega)]
  omega

/-- No write in flight reads the source buffers of rank `r`: what it has sent has
been taken. -/
theorem no_reader (hdata : is_active_rank r → ∀ i, i < number_iterations n →
      1 + 2 * i < steps r (s.node r) → steps r (s.node r) ≤ 3 + 2 * i →
      (s.node r).run + 1 ≤ (progress s (neighbor r i)).passed (2 + 2 * i))
    (hfinal : is_even_non_extra_rank r → steps r (s.node r) ≤ 1 + 2 * number_iterations n)
    (hinitial : is_odd_non_extra_rank r → steps r (s.node r) = 0) {q : Port n}
    (hq : (wiring n).carries q = true) (hf : s.fabric.flight q ≠ []) :
    (wiring n).loc ((wiring n).peer q) ≠ .source r := by
  have hlt := h.tracks.lt_of_flight hf
  have hu := Schedule.used_of_lt hlt
  cases q with
  | source | source_non_power_two => simp [wiring] at hq
  | target q i =>
    rintro ⟨⟩
    obtain ⟨hr, hi⟩ := used_target.mp hu
    have hact := active_neighbor hi q
    have hack := h.ack_le hact hi
    have hd := hdata hact i hi
    rw [neighbor_neighbor hi hr] at hack hd
    rw [sent_target _ hr hi, taken_target _ hr hi] at hlt
    rcases Nat.lt_or_ge (1 + 2 * i) (steps (neighbor q i) (s.node (neighbor q i))) with h1 | h1
    · rw [Progress.passed_of_lt (g := progress s (neighbor q i)) h1] at hlt
      rcases Nat.lt_or_ge (3 + 2 * i) (steps (neighbor q i) (s.node (neighbor q i))) with h3 | h3
      · rw [Progress.passed_of_lt (g := progress s (neighbor q i)) h3] at hack
        omega
      · have := hd h1 h3
        simp only [progressOf_run] at hlt
        omega
    · rw [Progress.passed_of_le (g := progress s (neighbor q i)) h1] at hlt
      rw [Progress.passed_of_le (g := progress s (neighbor q i)) (by simp only [progressOf_steps]; omega)] at hack
      omega
  | target_non_power_two q =>
    rintro ⟨⟩
    have hne := used_target_non_power_two.mp hu
    have hinv := neighbor_neighbor_non_power_two hne
    by_cases heven : is_even_non_extra_rank q
    · -- the vector of an odd rank
      have hodd := odd_neighbor heven
      have h0 := hinitial hodd
      have h1 := h.final_le hodd
      rw [hinv, Progress.passed_of_le (by simp [h0])] at h1
      have h2 := (progress s q).passed_anti (show 1 ≤ 1 + 2 * number_iterations n by omega)
      rw [sent_initial _ heven, taken_initial _ heven,
        Progress.passed_of_le (g := progress s (neighbor_non_power_two q)) (by simp [h0])] at hlt
      omega
    · -- the result from an even rank
      have hodd : is_odd_non_extra_rank q := ⟨by have := hne; omega, hne⟩
      have hle := hfinal (even_neighbor hodd)
      have h1 := h.final_ack_le (even_neighbor hodd)
      rw [hinv, Progress.passed_of_le (by simp only [progressOf_steps]; omega)] at h1
      rw [sent_final _ hodd, taken_final _ hodd,
        Progress.passed_of_le (g := progress s (neighbor_non_power_two q)) hle] at hlt
      omega

end

/-! ## Replacing one rank's object -/

theorem initial (m : Loc n → Vec number_elements T) :
    Holds op input ((allreduce n number_elements op).initial m) { mem := m, msg := fun _ => none } where
  tracks := (Tracks.quiet _ _ m).recount
    (fun p => by simp [Schedule.sent, Schedule.tally, progressOf, steps, Collective.initial, Node.run,
      Progress.passed])
    (fun p => by simp [Schedule.taken, Schedule.tally, progressOf, steps, Collective.initial, Node.run,
      Progress.passed])
  running r hr := by simp [Collective.initial] at hr
  source r hr := by simp [Active, Collective.initial] at hr
  target r i _ hr := by simp [Pending, Collective.initial] at hr
  final r _ hr := by simp [Collective.initial] at hr
  ahead r i _ _ := by simp [progressOf, steps, Collective.initial, Node.run, Progress.passed]
  outputs r k out hk := by simp [Collective.initial] at hk

theorem set (h : Holds op input s I)
    (ht : Tracks (wiring n) (Good op input) F I' ((schedule n).sent (progress (Collective.setNode s r N F)))
      ((schedule n).taken (progress (Collective.setNode s r N F))))
    (hrunning : N.state = .running → Running r N.fields)
    (hsource : Active N → I'.mem (.source r) = contents op (round input N.run) r N)
    (htarget : ∀ i, is_active_rank r → Pending N i →
      I'.mem (.target r i) = value op (round input N.run) i (neighbor r i))
    (hfinal : is_odd_non_extra_rank r → N.state = .finished → I'.mem (.target_non_power_two r) =
      value op (round input N.run) (number_iterations n) (neighbor_non_power_two r))
    (hmem : ∀ l, l.rank ≠ r → I'.mem l = I.mem l)
    (hmono : ∀ i, (progress s r).passed i ≤ (⟨N.run, steps r N⟩ : Progress).passed i)
    (hahead : ∀ i, is_active_rank r → i < number_iterations n → (⟨N.run, steps r N⟩ : Progress).passed (1 + 2 * i) ≤
      (progress s (neighbor r i)).passed (3 + 2 * i) + 1)
    (hout : ∀ k out, N.outputs[k]? = some out → out = some (result op (round input k) r)) :
    Holds op input (Collective.setNode s r N F) I' := by
  have hnode : ∀ q, q ≠ r → (Collective.setNode s r N F).node q = s.node q :=
    fun q hq => Collective.setNode_of_ne s hq N F
  have hself := Collective.setNode_self s r N F
  have hother : ∀ q, q ≠ r → progress (Collective.setNode s r N F) q = progress s q :=
    fun q hq => progressOf_of_ne hq
  have hown : progress (Collective.setNode s r N F) r = ⟨N.run, steps r N⟩ := progressOf_self
  refine ⟨ht, fun q hq => ?_, fun q hq => ?_, fun q i hact hq => ?_, fun q hodd hq => ?_,
    fun q i hact hi => ?_, fun q k out hk => ?_⟩
  · by_cases hqr : q = r
    · subst hqr; rw [hself] at hq ⊢; exact hrunning hq
    · rw [hnode q hqr] at hq ⊢; exact h.running q hq
  · by_cases hqr : q = r
    · subst hqr; rw [hself] at hq ⊢; exact hsource hq
    · rw [hnode q hqr] at hq ⊢; rw [hmem (.source q) hqr]; exact h.source q hq
  · by_cases hqr : q = r
    · subst hqr; rw [hself] at hq ⊢; exact htarget i hact hq
    · rw [hnode q hqr] at hq ⊢; rw [hmem (.target q i) hqr]; exact h.target q i hact hq
  · by_cases hqr : q = r
    · subst hqr; rw [hself] at hq ⊢; exact hfinal hodd hq
    · rw [hnode q hqr] at hq ⊢; rw [hmem (.target_non_power_two q) hqr]; exact h.final q hodd hq
  · by_cases hqr : q = r
    · subst hqr
      rw [hown, hother _ (neighbor_ne hi)]
      exact hahead i hact hi
    · rw [hother q hqr]
      refine Nat.le_trans (h.ahead q i hact hi) (Nat.add_le_add_right ?_ 1)
      by_cases hnr : neighbor q i = r
      · subst hnr; rw [hown]; exact hmono _
      · rw [hother _ hnr]
  · by_cases hqr : q = r
    · subst hqr; rw [hself] at hk; exact hout k out hk
    · rw [hnode q hqr] at hk; exact h.outputs q k out hk

/-- A call inside a run. -/
theorem set_moves (h : Holds op input s I) {x y : Nat} (hx : steps r (s.node r) = x) (hy : steps r N = y)
    (hle : x ≤ y) (hrun : N.run = (s.node r).run) (hout : N.outputs = (s.node r).outputs)
    (ht : Tracks (wiring n) (Good op input) F I' ((schedule n).sent (progress (Collective.setNode s r N F)))
      ((schedule n).taken (progress (Collective.setNode s r N F))))
    (hrunning : N.state = .running → Running r N.fields)
    (hsource : Active N → I'.mem (.source r) = contents op (round input (s.node r).run) r N)
    (htarget : ∀ i, is_active_rank r → Pending N i →
      I'.mem (.target r i) = value op (round input (s.node r).run) i (neighbor r i))
    (hfinal : is_odd_non_extra_rank r → N.state = .finished → I'.mem (.target_non_power_two r) =
      value op (round input (s.node r).run) (number_iterations n) (neighbor_non_power_two r))
    (hmem : ∀ l, l.rank ≠ r → I'.mem l = I.mem l)
    (hclear : ∀ i, is_active_rank r → i < number_iterations n → x ≤ 1 + 2 * i → 1 + 2 * i < y → Clear s r i) :
    Holds op input (Collective.setNode s r N F) I' := by
  have hmv : Schedule.Moves (progress s) (progress (Collective.setNode s r N F)) r x y := moves hrun hx hy hle
  have hpassed := fun i => hmv.passed i
  rw [show progress (Collective.setNode s r N F) r = ⟨N.run, steps r N⟩ from progressOf_self] at hpassed
  refine h.set ht hrunning (by rw [hrun]; exact hsource) (by rw [hrun]; exact htarget)
    (by rw [hrun]; exact hfinal) hmem (fun i => by rw [hpassed]; omega) (fun i hact hi => ?_)
    (by rw [hout]; exact h.outputs r)
  rw [hpassed]
  split
  · next hxy =>
    have hc := hclear i hact hi hxy.1 hxy.2
    simp only [Clear] at hc
    rw [Progress.passed_of_le (g := progress s r) (by rw [progressOf_steps, hx]; exact hxy.1), progressOf_run]
    omega
  · exact h.ahead r i hact hi

/-- A call that neither posts nor takes. -/
theorem set_quiet (h : Holds op input s I) (hle : steps r (s.node r) ≤ steps r N)
    (hpost : ∀ p, (schedule n).used p = true → (schedule n).sender p = r →
      ¬ (steps r (s.node r) ≤ (schedule n).postAt p ∧ (schedule n).postAt p < steps r N))
    (htake : ∀ p, (schedule n).used p = true → (schedule n).owner p = r →
      ¬ (steps r (s.node r) ≤ (schedule n).takeAt p ∧ (schedule n).takeAt p < steps r N))
    (hrun : N.run = (s.node r).run) (hout : N.outputs = (s.node r).outputs)
    (hrunning : N.state = .running → Running r N.fields)
    (hsource : Active N → Active (s.node r) ∧
      ∀ x, contents op x r N = contents op x r (s.node r))
    (htarget : ∀ i, Pending N i → Pending (s.node r) i)
    (hfinal : is_odd_non_extra_rank r → N.state = .finished → (s.node r).state = .finished) :
    Holds op input (Collective.setNode s r N s.fabric) I := by
  have hmv : Schedule.Moves (progress s) (progress (Collective.setNode s r N s.fabric)) r
      (steps r (s.node r)) (steps r N) := moves hrun rfl rfl hle
  refine h.set_moves rfl rfl hle hrun hout
    (h.tracks.recount (hmv.tally_same hpost) (hmv.tally_same htake)) hrunning
    (fun ha => by rw [(hsource ha).2]; exact h.source r (hsource ha).1)
    (fun i hact hp => h.target r i hact (htarget i hp)) (fun hodd hs => h.final r hodd (hfinal hodd hs))
    (fun _ _ => rfl) (fun i hact hi hx hy => ?_)
  have hu := used_target.mpr ⟨active_neighbor hi r, hi⟩
  exact absurd ⟨hx, hy⟩ (hpost (.target (neighbor r i) i) hu (neighbor_neighbor hi hact))

end Holds

end GaspiCxx.Collectives.AllreduceRecursiveDoubling
