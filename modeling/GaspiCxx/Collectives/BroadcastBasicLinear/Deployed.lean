import GaspiCxx.Collectives.BroadcastBasicLinear.OneRun
import GaspiCxx.Collectives.Deployment.Completion

/-!
# The linear broadcast, deployed

What the users of `Broadcast<T, BASIC_LINEAR>` get if they keep their runs apart,
for any number of ranks, any root and vectors of any length. Almost no rank
waits for an acknowledgement; that every rank has copied out the run before
makes up for it.
-/

namespace GaspiCxx.Collectives.BroadcastBasicLinear

open OneSided SingleSided GroupUtilities Runs Deployment

variable {n number_elements : Nat} {T : Type} {root : Fin n} {input : Fin n → Nat → Vec number_elements T}
  {s t : GroupSys number_elements n T} {m : Fin n → Vec number_elements T} {r : Fin n}

/-! ## Separated runs -/

namespace Holds

variable {I : Channels (Port n) (Fin n) (Vec number_elements T)}

/-- Data that is still on its way from the right neighbour would be of a run that
its receiver has completed. -/
theorem clear_of_together (h : Holds root input s I) (hr : (s.node r).Active) (htog : Together s)
    (hd : dist root r + 1 < n) (hst : steps n (s.node r) ≤ dist root r) : Clear s r := by
  refine ⟨htog r hr _, ?_⟩
  by_contra hf
  obtain ⟨-, hlt, hle⟩ := h.flight_right hd hst hf
  have hpassed := (progress s (right (right r))).run_le_passed (dist root r + 2)
  have hrun := htog r hr (right (right r))
  rw [progressOf_run] at hpassed
  omega

theorem careful_of_together (h : Holds root input s I) (hn : 2 ≤ n) (htog : Together s) {c : Call}
    (ha : (broadcast number_elements root T).Stepped input s (.call r c) t) (hg : Separated s (.call r c)) :
    Careful root s r c := by
  have hroot := dist_self root
  cases ha with
  | copyIn hs hc =>
    rintro rfl
    by_contra hf
    have hlt := h.tracks.lt_of_flight hf
    have hnext := dist_next r (r := r) (by omega)
    rw [sent_target _ (by omega), taken_target _ (by omega), left_right,
      Progress.passed_of_le (g := progress s r) (by simp [steps, hs]), progressOf_run] at hlt
    have hrun := hg rfl (right r)
    have hpassed := (progress s (right r)).run_le_passed (dist r (right r))
    rw [progressOf_run] at hpassed
    omega
  | start hs hc =>
    rintro rfl
    exact h.clear_of_together (.inl hs) htog (by omega) (by simp [steps, hs])
  | trigger hs hc =>
    rintro ⟨hs, hi, hd, -⟩
    exact h.clear_of_together (.inr (.inl hs)) htog hd (by simp [steps, hs, hi])
  | idle hs => exact fun hw => absurd hw.1 hs
  | waitForSetup | copyOut => trivial

end Holds

theorem holds_of_separated (hN : 0 < number_elements) (hn : 2 ≤ n)
    (h : (broadcast number_elements root T).Reach input m Separated s) : ∃ I, Holds root input s I := by
  refine h.separated_invariant (P := fun s => ∃ I, Holds root input s I) ⟨_, Holds.initial m⟩ ?_
  rintro s a t ⟨I, hI⟩ htog hg ha
  cases a with
  | call r c => exact (hI.call hN hn ha (hI.careful_of_together hn htog ha hg)).1
  | advance p i => cases ha with | network hG => exact ⟨I, hI.network hG⟩

/-- The one rank copies out what it copied into its buffer. -/
theorem kept_of_one_rank (hN : 0 < number_elements) {root : Fin 1} {input : Fin 1 → Nat → Vec number_elements T}
    {s : GroupSys number_elements 1 T} {m : Fin 1 → Vec number_elements T}
    {guard : GroupSys number_elements 1 T → Action (Fin 1) (Port 1) → Prop}
    (h : (broadcast number_elements root T).Reach input m guard s) (r : Fin 1) :
    Collective.Kept (fun _ mem => mem root) id id (input r) (s.node r) s.fabric := by
  have hroot : ∀ r : Fin 1, r = root := fun r => Subsingleton.elim r root
  refine h.of_one_rank (fun r x f F f' F' hc => ?_) (fun r f F f' F' hc => ?_) (fun r f F done f' F' hc => ?_)
    (fun r f F => ?_) r
  · have hcopy : copyInImpl root r x f F = (f, F.write root x) := by
      rw [copyInImpl, if_neg (by omega), if_pos (hroot r), hroot r]
      rfl
    cases hcopy.symm.trans hc
    exact ⟨rfl, by simp [Fabric.write_mem]⟩
  · have hstart : startImpl root r f F = (f, F) := if_pos (.inl rfl)
    cases hstart.symm.trans hc
    exact ⟨rfl, rfl⟩
  · have htrigger : triggerProgressImpl root r f F = (true, f, F) := if_pos (.inl rfl)
    cases htrigger.symm.trans hc
    exact ⟨rfl, rfl⟩
  · show copyOutImpl root r f F = _
    rw [copyOutImpl, if_pos (hroot r), hroot r]
    rfl

/-- Every rank copies out what the root copied in, run by run. -/
theorem outputs_eq_input (h : (broadcast number_elements root T).Reach input m Separated s) {k : Nat}
    {out : Vec number_elements T} (hk : (s.node r).outputs[k]? = some out) : out = input root k := by
  have := r.isLt
  rcases Nat.eq_zero_or_pos number_elements with rfl | hN
  · exact Subsingleton.elim _ _
  by_cases hn : n = 1
  · subst hn
    rw [(kept_of_one_rank hN h r).outputs k out hk, Subsingleton.elim r root]
    rfl
  · obtain ⟨I, hI⟩ := holds_of_separated hN (by omega) h
    exact hI.outputs r k out hk

/-! ## Progress -/

variable (root r) in
/-- A progress call completes, changes nothing, or goes on by one iteration. -/
theorem triggerProgressImpl_moves (f : Fields) (F : Net number_elements n T) :
    (triggerProgressImpl root r f F).1 = true ∨ (triggerProgressImpl root r f F).2.1 = f ∨
    (f.iteration ≠ n ∧ n ≠ 1 ∧ 0 < number_elements ∧
      (triggerProgressImpl root r f F).2.1.iteration = f.iteration + 1) := by
  unfold triggerProgressImpl
  split
  · exact .inl rfl
  · next hno =>
    have hsome : n ≠ 1 ∧ 0 < number_elements := by omega
    split
    · split
      · exact .inr (.inl rfl)
      · exact .inl rfl
    · next hi =>
      split
      · dsimp only
        split
        · exact .inr (.inl rfl)
        · exact .inr (.inr ⟨hi, hsome.1, hsome.2, rfl⟩)
      · exact .inr (.inr ⟨hi, hsome.1, hsome.2, rfl⟩)

def Port.code : Port n → Bool × Fin n
  | .source r => (false, r)
  | .target r => (true, r)

instance : Finite (Port n) := by
  refine Finite.of_injective Port.code fun p q h => ?_
  cases p <;> cases q <;> simp_all [Port.code]

theorem ends : (broadcast number_elements root T).Ends input m Separated
    (Collective.left fun _ f => n - f.iteration) := by
  refine .of_moves (fun _ _ => Set.toFinite _) (fun _ _ _ => separated_of_background) (fun s r h hs done f F ht => ?_)
    fun s k h hk hno hd => ?_
  · have hmoves := triggerProgressImpl_moves root r (s.node r).fields s.fabric
    rw [show triggerProgressImpl root r (s.node r).fields s.fabric = _ from ht] at hmoves
    obtain hdone | hsame | ⟨hi, hn, hN, hstep⟩ := hmoves
    · exact .inl hdone
    · exact .inr (.inl hsame)
    · have := r.isLt
      obtain ⟨I, hI⟩ := holds_of_separated hN (by omega) h
      have := hI.iteration r hs
      have hstep : f.iteration = (s.node r).fields.iteration + 1 := hstep
      exact .inr (.inr (by omega))
  · obtain ⟨q, hq⟩ := hno
    have := q.isLt
    by_cases htriv : n = 1 ∨ number_elements = 0
    · have hrun := running_of_started (hk q) hq
      have ht : triggerProgressImpl root q (s.node q).fields s.fabric = (true, (s.node q).fields, s.fabric) :=
        if_pos htriv
      exact ⟨q, hrun, Collective.proceeds_of_trigger hrun ht (.inl rfl)⟩
    · obtain ⟨I, hI⟩ := holds_of_separated (by omega) (by omega) h
      obtain ⟨r, hrun, hr⟩ := exists_behind_running (fun _ => steps n) hk ⟨q, hq⟩ (fun r hs => steps_finished hs)
        fun r hs => hI.steps_lt hs
      exact ⟨r, hrun, hI.proceeds (by omega) (by omega) hd hr⟩

/-! ## Results -/

section

variable {Thread : Type} [DecidableEq Thread] {user th : Thread}
  {g : Deployed (Fin n) Thread (Port n) (Fin n) (Vec number_elements T) Fields (Vec number_elements T)}
  {ls : List (Label (Fin n) Thread (Port n))}

variable (root) in
/-- Every rank's user drives a `Broadcast<T, BASIC_LINEAR>`. -/
abbrev DeployedStep (input : Fin n → Nat → Vec number_elements T) (user : Thread) :=
  Step (broadcast number_elements root T) input user fun r => .broadcast r root

variable (root) in
/-- The same with runs kept apart. -/
abbrev DeployedSeparatedStep (input : Fin n → Nat → Vec number_elements T) (user : Thread) :=
  SeparatedStep (broadcast number_elements root T) input user fun r => .broadcast r root

variable (root m) in
abbrev constructed : Deployed (Fin n) Thread (Port n) (Fin n) (Vec number_elements T) Fields (Vec number_elements T) :=
  .constructed (broadcast number_elements root T) m

/-- **The deployed linear broadcast**: in every run of users, engines and network in
which the users keep their calls of `start` apart, nothing throws but the overload
of `start` meant for the others, the `k`-th vector of every rank is what the root
passed to its `k`-th `start`, and whenever all ranks have called
`waitForCompletion` for it, all these calls can return. -/
theorem broadcast_basic_linear_deployed
    (h : Trace (DeployedSeparatedStep root input user) (constructed root m) ls g) (hne : th ≠ user) :
    (∀ r k what, .rank r k ∈ ls → k.throws = some what →
      ∃ overload, k = .start overload ∧ (Wrappers.Wrapper.broadcast r root).Refuses overload) ∧
    (∀ r k out, (g.object r).outputs[k]? = some out → out = input root k) ∧
    ∀ k, (∀ r, k < (ls.flatMap (Label.localSteps r)).countP waited) →
      ∃ ks g', Trace (DeployedStep root input user) g ks g' ∧ (∀ l ∈ ks, l.inside) ∧
        ∀ r, k < (g'.object r).outputs.length := by
  have hstep := trace_of_separated h
  refine ⟨fun r k what hk ht => throws hstep hk ht, fun r k out hout => ?_, fun k hwait => ?_⟩
  · exact outputs_eq_input (s := g.sys) (reach_separated h) hout
  · exact all_return ends hstep (reach_separated h) hne hwait

/-- Rank 1 broadcasts to three ranks, twice. -/
theorem broadcast_basic_linear_deployed_chain :
    ∃ (ls : List (Label (Fin 3) Bool (Port 3))) (g : _),
      Trace (DeployedSeparatedStep 1 tag true) (constructed 1 fun _ _ => 7) ls g ∧
      ∀ r, (g.object r).outputs[1]? = some fun _ => 11 := by
  obtain ⟨ls, g, htr, hk⟩ : ∃ ls g, Trace (DeployedSeparatedStep 1 tag true) (constructed 1 fun _ _ => 7) ls g ∧
      Rounds true 2 ls g := exists_rounds ends (fun _ _ h => reach_separated h) Bool.false_ne_true 2
  refine ⟨ls, g, htr, fun r => ?_⟩
  have hout := List.getElem?_eq_getElem (show 1 < (g.object r).outputs.length by rw [hk.results r]; decide)
  rw [hout, (broadcast_basic_linear_deployed htr Bool.false_ne_true).2.1 r 1 _ hout]
  decide

end

end GaspiCxx.Collectives.BroadcastBasicLinear
