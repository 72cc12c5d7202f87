import GaspiCxx.Collectives.BroadcastSendToAll.OneRun
import GaspiCxx.Collectives.Deployment.Completion

/-!
# The direct broadcast, deployed

What the users of `Broadcast<T, SEND_TO_ALL>` get if they keep their runs apart,
for any number of ranks, any root and vectors of any length.
-/

namespace GaspiCxx.Collectives.BroadcastSendToAll

open OneSided SingleSided Runs Deployment

variable {n number_elements : Nat} {T : Type} {root : Fin n} {input : Fin n → Nat → Vec number_elements T}
  {s : GroupSys number_elements n T} {m : Loc n → Vec number_elements T} {r : Fin n}

/-! ## Separated runs -/

theorem holds_of_separated (hn : 2 ≤ n) (h : (broadcast number_elements root T).Reach input m Separated s) :
    ∃ I acks, Holds root input s I acks := by
  refine holds_of_reach hn (h.of_separated fun s a t htog _ ha => ?_)
  cases ha with
  | start hs hc =>
    rintro rfl q -
    exact htog _ (.inl hs) q
  | waitForSetup | copyIn | trigger | idle | copyOut | network => trivial

/-- The one rank copies out what it copied into the buffer of the root. -/
theorem kept_of_one_rank {root : Fin 1} {input : Fin 1 → Nat → Vec number_elements T}
    {s : GroupSys number_elements 1 T} {m : Loc 1 → Vec number_elements T}
    {guard : GroupSys number_elements 1 T → Action (Fin 1) (Port 1) → Prop}
    (h : (broadcast number_elements root T).Reach input m guard s) (r : Fin 1) :
    Collective.Kept (fun _ mem => mem .source) id id (input r) (s.node r) s.fabric := by
  have hroot : ∀ r : Fin 1, r = root := fun r => Subsingleton.elim r root
  refine h.of_one_rank (fun r x f F f' F' hc => ?_) (fun r f F f' F' hc => ?_) (fun r f F done f' F' hc => ?_)
    (fun r f F => ?_) r
  · have hcopy : copyInImpl root r x f F = (f, F.write .source x) := if_pos (hroot r)
    cases hcopy.symm.trans hc
    exact ⟨rfl, by simp [Fabric.write_mem]⟩
  · cases hc
    exact ⟨rfl, rfl⟩
  · cases hc
    exact ⟨rfl, rfl⟩
  · exact if_pos (hroot r)

/-- Every rank copies out what the root copied in, run by run. -/
theorem outputs_eq_input (h : (broadcast number_elements root T).Reach input m Separated s) {k : Nat}
    {out : Vec number_elements T} (hk : (s.node r).outputs[k]? = some out) : out = input root k := by
  have := r.isLt
  by_cases hn : n = 1
  · subst hn
    rw [(kept_of_one_rank h r).outputs k out hk, Subsingleton.elim r root]
    rfl
  · obtain ⟨I, acks, hI⟩ := holds_of_separated (by omega) h
    exact hI.outputs r k out hk

/-! ## Progress -/

variable (root r) in
/-- A progress call completes, changes nothing, or finds an acknowledgement. -/
theorem triggerProgressImpl_moves (f : Fields) (F : Net number_elements n T) :
    (triggerProgressImpl root r f F).1 = true ∨ (triggerProgressImpl root r f F).2.1 = f ∨
    (triggerProgressImpl root r f F).2.1.transfers_in_progress < f.transfers_in_progress := by
  unfold triggerProgressImpl
  split
  · exact .inl rfl
  · split
    · have hle := checkAll_le (source_buffers root) (f.transfers_in_progress, F)
      obtain he | hlt := Nat.eq_or_lt_of_le hle
      · exact .inr (.inl (congrArg Fields.mk he))
      · exact .inr (.inr hlt)
    · dsimp only
      split
      · exact .inl rfl
      · exact .inr (.inl rfl)

def Port.code : Port n → Bool × Fin n
  | .source r => (false, r)
  | .target r => (true, r)

instance : Finite (Port n) := by
  refine Finite.of_injective Port.code fun p q h => ?_
  cases p <;> cases q <;> simp_all [Port.code]

theorem lt_completed {k : Nat} {N : Node Fields (Vec number_elements T)} (h : Completed k N) : k < completed N := by
  unfold completed
  obtain hlt | ⟨rfl, hs⟩ := h
  · exact Nat.lt_add_right _ hlt
  · rw [if_pos hs]
    exact Nat.lt_succ_self _

/-- Once everything sent has arrived, a rank that runs can go on. -/
theorem Holds.live {I : Channels (Port n) (Loc n) (Vec number_elements T)} {acks : Fin n → Nat}
    (h : Holds root input s I acks) (hn : 2 ≤ n) {k : Nat} (hk : ∀ r, Started k (s.node r))
    (hno : ∃ r, ¬ Completed k (s.node r)) (hd : s.fabric.Delivered) :
    ∃ r, (s.node r).state = .running ∧ (broadcast number_elements root T).Proceeds input s r := by
  have hrun : ∀ r, ¬ Completed k (s.node r) → (s.node r).run = k := fun r hr =>
    ((hk r).resolve_left fun hlt => hr (.inl hlt)).1.symm
  by_cases hall : ∀ r, r ≠ root → Completed k (s.node r)
  · -- only the root is left
    obtain ⟨r, hr⟩ := hno
    obtain rfl : r = root := by
      by_contra hne
      exact hr (hall r hne)
    have hs := running_of_started (hk r) hr
    exact ⟨r, hs, h.proceeds_root hn hd hs fun q hq => by rw [hrun r hr]; exact lt_completed (hall q hq)⟩
  · obtain ⟨r, hr⟩ := not_forall.mp hall
    obtain ⟨hr, hnot⟩ := Classical.not_imp.mp hr
    have hs := running_of_started (hk r) hnot
    refine ⟨r, hs, h.proceeds_other hn hd hr ?_ (by simp [hs])⟩
    rw [hrun r hnot]
    exact hk root

theorem ends : (broadcast number_elements root T).Ends input m Separated
    (Collective.left fun _ f => f.transfers_in_progress) := by
  refine .of_moves (fun _ _ => Set.toFinite _) (fun _ _ _ => separated_of_background) (fun s r h hs done f F ht => ?_)
    fun s k h hk hno hd => ?_
  · have hmoves := triggerProgressImpl_moves root r (s.node r).fields s.fabric
    rwa [show triggerProgressImpl root r (s.node r).fields s.fabric = _ from ht] at hmoves
  · obtain ⟨q, hq⟩ := hno
    have := q.isLt
    by_cases hn : n = 1
    · have hrun := running_of_started (hk q) hq
      have ht : triggerProgressImpl root q (s.node q).fields s.fabric = (true, (s.node q).fields, s.fabric) := if_pos hn
      exact ⟨q, hrun, Collective.proceeds_of_trigger hrun ht (.inl rfl)⟩
    · obtain ⟨I, acks, hI⟩ := holds_of_separated (by omega) h
      exact hI.live (by omega) hk ⟨q, hq⟩ hd

/-! ## Results -/

section

variable {Thread : Type} [DecidableEq Thread] {user th : Thread}
  {g : Deployed (Fin n) Thread (Port n) (Loc n) (Vec number_elements T) Fields (Vec number_elements T)}
  {ls : List (Label (Fin n) Thread (Port n))}

variable (root) in
/-- Every rank's user drives a `Broadcast<T, SEND_TO_ALL>`. -/
abbrev DeployedStep (input : Fin n → Nat → Vec number_elements T) (user : Thread) :=
  Step (broadcast number_elements root T) input user fun r => .broadcast r root

variable (root) in
/-- The same with runs kept apart. -/
abbrev DeployedSeparatedStep (input : Fin n → Nat → Vec number_elements T) (user : Thread) :=
  SeparatedStep (broadcast number_elements root T) input user fun r => .broadcast r root

variable (root m) in
abbrev constructed : Deployed (Fin n) Thread (Port n) (Loc n) (Vec number_elements T) Fields (Vec number_elements T) :=
  .constructed (broadcast number_elements root T) m

/-- **The deployed direct broadcast**: in every run of users, engines and network in
which the users keep their calls of `start` apart, nothing throws but the overload
of `start` meant for the others, the `k`-th vector of every rank is what the root
passed to its `k`-th `start`, and whenever all ranks have called
`waitForCompletion` for it, all these calls can return. -/
theorem broadcast_send_to_all_deployed
    (h : Trace (DeployedSeparatedStep root input user) (constructed root m) ls g) (hne : th ≠ user) :
    (∀ r k what, .rank r k ∈ ls → k.throws = some what →
      ∃ overload, k = .start overload ∧ (Wrappers.Wrapper.broadcast r root).Refuses overload) ∧
    (∀ r k out, (g.object r).outputs[k]? = some out → out = input root k) ∧
    ∀ k, (∀ r, k < (ls.flatMap (Label.localSteps r)).countP waited) →
      ∃ ks g', Trace (DeployedStep root input user) g ks g' ∧ (∀ l ∈ ks, l.inside) ∧
        ∀ r, k < (g'.object r).outputs.length := by
  have hstep := trace_of_separated h
  refine ⟨fun r k what hk ht => throws hstep hk ht, fun r k out hout => ?_, fun k hwait => ?_⟩
  · exact outputs_eq_input (s := g.sys) (reach_separated h) hout
  · exact all_return ends hstep (reach_separated h) hne hwait

/-- Rank 0 broadcasts to rank 1, twice. -/
theorem broadcast_send_to_all_deployed_pair :
    ∃ (ls : List (Label (Fin 2) Bool (Port 2))) (g : _),
      Trace (DeployedSeparatedStep 0 tag true) (constructed 0 fun _ _ => 7) ls g ∧
      ∀ r, (g.object r).outputs[1]? = some fun _ => 10 := by
  obtain ⟨ls, g, htr, hk⟩ : ∃ ls g, Trace (DeployedSeparatedStep 0 tag true) (constructed 0 fun _ _ => 7) ls g ∧
      Rounds true 2 ls g := exists_rounds ends (fun _ _ h => reach_separated h) Bool.false_ne_true 2
  refine ⟨ls, g, htr, fun r => ?_⟩
  have hout := List.getElem?_eq_getElem (show 1 < (g.object r).outputs.length by rw [hk.results r]; decide)
  rw [hout, (broadcast_send_to_all_deployed htr Bool.false_ne_true).2.1 r 1 _ hout]
  decide

end

end GaspiCxx.Collectives.BroadcastSendToAll
