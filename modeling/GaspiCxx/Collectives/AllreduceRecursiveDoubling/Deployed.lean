import GaspiCxx.Collectives.AllreduceRecursiveDoubling.Correct
import GaspiCxx.Collectives.AllreduceRing.Deployed

/-!
# The recursive-doubling allreduce, deployed

What the users of `Allreduce<T, RECURSIVE_DOUBLING>` get if they keep their runs
apart, for any number of ranks and of elements. For a commutative and
associative operation it is, element by element, what the ring computes.
-/

namespace GaspiCxx.Collectives.AllreduceRecursiveDoubling

open OneSided Runs Deployment AllreduceCommon

variable {n number_elements : Nat} {T : Type} {op : T → T → T} {input : Fin n → Nat → Vec number_elements T}
  {s : GroupSys n number_elements T} {m : Loc n → Vec number_elements T} {r : Fin n}

/-! ## Nothing to communicate -/

/-- The one rank keeps its input until it copies it out. -/
theorem kept_of_one_rank (hN : 0 < number_elements) {input : Fin 1 → Nat → Vec number_elements T}
    {s : GroupSys 1 number_elements T} {m : Loc 1 → Vec number_elements T}
    {guard : GroupSys 1 number_elements T → Action (Fin 1) (Port 1) → Prop}
    (h : (allreduce 1 number_elements op).Reach input m guard s) (r : Fin 1) :
    Collective.Kept (fun f _ => f.data_for_1rank_case) some id (input r) (s.node r) s.fabric := by
  refine h.of_one_rank (fun r x f F f' F' hc => ?_) (fun r f F f' F' hc => ?_) (fun r f F done f' F' hc => ?_)
    (fun r f F => ?_) r
  · have hcopy : copyInImpl r x f F = ({ f with data_for_1rank_case := some x }, F) := by
      rw [copyInImpl, if_neg (by simp), if_pos ⟨hN, rfl⟩]
    cases hcopy.symm.trans hc
    exact ⟨rfl, rfl⟩
  · have hstart : startImpl r f F = (f, F) := by simp [startImpl]
    cases hstart.symm.trans hc
    exact ⟨rfl, rfl⟩
  · have htrigger : triggerProgressImpl op r f F = (true, f, F) := by simp [triggerProgressImpl]
    cases htrigger.symm.trans hc
    exact ⟨rfl, rfl⟩
  · show copyOutImpl r f F = _
    rw [copyOutImpl, if_neg (by simp), if_pos ⟨hN, rfl⟩]
    rfl

/-! ## Separated runs -/

theorem holds_of_separated (hN : 0 < number_elements) (hn : 2 ≤ n)
    (h : (allreduce n number_elements op).Reach input m Separated s) : ∃ I, Holds op input s I := by
  refine h.separated_invariant (P := fun s => ∃ I, Holds op input s I) ⟨_, Holds.initial m⟩ ?_
  rintro s a t ⟨I, hI⟩ htog hg ha
  cases a with
  | call r c =>
    refine hI.call hN hn ha fun i hp => ?_
    -- who posts is in a run, and then its partner is not behind
    have hactive : (s.node r).Active := by
      cases ha with
      | waitForSetup | copyIn | copyOut => cases hp
      | start hs _ => exact .inl hs
      | trigger hs _ => exact .inr (.inl hs)
      | idle hs => simp [posts, hs] at hp
    exact (htog r hactive (neighbor r i)).trans ((progress s (neighbor r i)).run_le_passed _)
  | advance p i => cases ha with | network hG => exact ⟨I, hI.network hG⟩

/-- The `k`-th vector is the fold of the `k`-th inputs, from whichever of them it starts. -/
theorem outputs_eq_fold [Std.Commutative op] [Std.Associative op]
    (h : (allreduce n number_elements op).Reach input m Separated s) {k : Nat} {out : Option (Vec number_elements T)}
    (hk : (s.node r).outputs[k]? = some out) :
    (0 < number_elements → ∀ q, out = some ((Finset.univ.erase q).fold (combine op) (input q k) (round input k))) ∧
    (number_elements = 0 → out = none) := by
  have hpos := r.isLt
  refine ⟨fun hN q => ?_, fun hN => ?_⟩
  · by_cases hn : n = 1
    · subst hn
      rw [(kept_of_one_rank hN h r).outputs k out hk, Subsingleton.elim r q]
      have hempty : (Finset.univ.erase q : Finset (Fin 1)) = ∅ := by
        ext x
        simp [Subsingleton.elim x q]
      rw [hempty, Finset.fold_empty]
      rfl
    · obtain ⟨I, hI⟩ := holds_of_separated hN (by omega) h
      rw [hI.outputs r k out hk, result_fold r q]
  · subst hN
    exact returns_none h (.inl (List.mem_of_getElem? hk))

/-! ## Progress -/

/-- How far a running rank is from its end. An odd rank passes the time until the
final step by counting the iterations in the initial one. -/
def place (n : Nat) (f : Fields number_elements T) : Nat :=
  match f.alg_stage with
  | .NOT_STARTED => 0
  | .INITIAL_STEP_NON_POWER_TWO => 4 * number_iterations n - f.iteration
  | .WAIT_FOR_DATA => 3 * number_iterations n - 2 * f.iteration
  | .WAIT_FOR_ACK => 3 * number_iterations n - 2 * f.iteration - 1
  | .FINAL_STEP_NON_POWER_TWO => 0

/-- A progress call completes, changes nothing, or brings the rank closer to its end. -/
def Moves (n : Nat) (f : Fields number_elements T) (x : Bool × Fields number_elements T × Net number_elements n T) :
    Prop :=
  x.1 = true ∨ x.2.1 = f ∨ place n x.2.1 < place n f

variable (op) in
theorem proceedImpl_moves {f : Fields number_elements T} (F : Net number_elements n T) (hrun : Running r f)
    (hodd : f.alg_stage = .INITIAL_STEP_NON_POWER_TWO → is_odd_non_extra_rank r) :
    Moves n f (proceedImpl op r f F) := by
  cases hst : f.alg_stage with
  | NOT_STARTED => simp only [Running, hst] at hrun
  | INITIAL_STEP_NON_POWER_TWO =>
    simp only [Running, hst] at hrun
    rw [proceedImpl_count hst (hodd hst)]
    right; right
    by_cases hl : is_last_iteration n f.iteration
    · simp only [place, if_pos hl, hst]
      omega
    · simp only [is_last_iteration] at hl
      simp only [place, if_neg hl, hst]
      omega
  | WAIT_FOR_DATA =>
    simp only [Running, hst] at hrun
    cases hslot : F.slot (.target r f.iteration) with
    | false => rw [proceedImpl_data_clear hst hrun.1 hslot]; exact .inr (.inl rfl)
    | true =>
      rw [proceedImpl_data_set hst hrun.1 hslot]
      right; right
      simp only [place, hst]
      omega
  | WAIT_FOR_ACK =>
    simp only [Running, hst] at hrun
    cases hslot : F.slot (.source r f.iteration) with
    | false => rw [proceedImpl_ack_clear hst hrun.1 hslot]; exact .inr (.inl rfl)
    | true =>
      rcases Nat.lt_or_ge (f.iteration + 1) (number_iterations n) with hi | hi
      · rw [proceedImpl_ack_next hst hrun.1 hslot hi]
        right; right
        simp only [place, hst]
        omega
      · rw [proceedImpl_ack_last hst hrun.1 hslot (by omega)]
        right; right
        simp only [place, hst]
        omega
  | FINAL_STEP_NON_POWER_TWO =>
    by_cases hextra : is_extra_rank r
    · rw [proceedImpl_final_extra hst hextra]; exact .inl rfl
    · by_cases heven : is_even_non_extra_rank r
      · rw [proceedImpl_final_ack hst heven]; exact .inr (.inl rfl)
      · have hodd : is_odd_non_extra_rank r := ⟨by
          have : ¬ r.val % 2 = 0 := fun he => heven ⟨he, hextra⟩
          omega, hextra⟩
        cases hslot : F.slot (.target_non_power_two r) with
        | false => rw [proceedImpl_final_clear hst hodd hslot]; exact .inr (.inl rfl)
        | true => rw [proceedImpl_final_set hst hodd hslot]; exact .inl rfl

variable (op) in
theorem triggerProgressImpl_moves {f : Fields number_elements T} (F : Net number_elements n T)
    (hN : 0 < number_elements) (hn : 2 ≤ n) (hrun : Running r f) :
    Moves n f (triggerProgressImpl op r f F) := by
  by_cases hinit : is_even_non_extra_rank r ∧ f.alg_stage = .INITIAL_STEP_NON_POWER_TWO
  · obtain ⟨heven, hst⟩ := hinit
    simp only [Running, hst] at hrun
    have h0 := hrun.2.2 heven
    cases hslot : F.slot (.target_non_power_two r) with
    | false => rw [triggerProgressImpl_initial_clear hN hn hst heven hslot]; exact .inr (.inl rfl)
    | true =>
      rw [triggerProgressImpl_initial_set hN hn hst heven hslot]
      have hplace : place n ({ f with alg_stage := .WAIT_FOR_DATA } : Fields number_elements T) < place n f := by
        simp only [place, hst]
        omega
      -- the call goes on to the first iteration
      obtain hdone | hsame | hlt := proceedImpl_moves op
        ((apply_reduce_op op (wiring n) (F.reset (.target_non_power_two r)) (.source r f.iteration)
          (.target_non_power_two r)).post (.target (neighbor r f.iteration) f.iteration))
        (show Running r { f with alg_stage := .WAIT_FOR_DATA } from ⟨.inl heven, hrun.2.1⟩) (by simp)
      · exact .inl hdone
      · exact .inr (.inr (by rw [hsame]; exact hplace))
      · exact .inr (.inr (hlt.trans hplace))
  · rw [triggerProgressImpl_proceed hN hn hinit]
    refine proceedImpl_moves op F hrun fun hst => ?_
    simp only [Running, hst] at hrun
    have hnot : ¬ r.val % 2 = 0 := fun he => hinit ⟨⟨he, hrun.1⟩, hst⟩
    exact ⟨by omega, hrun.1⟩

/-- The ports that operations are ever posted to. -/
theorem finite_used (n : Nat) : {p : Port n | (schedule n).used p = true}.Finite := by
  have hiter := Set.finite_Iio (number_iterations n)
  refine (((Set.finite_univ.image2 Port.source hiter).union (Set.finite_univ.image2 Port.target hiter)).union
    ((Set.finite_range Port.source_non_power_two).union (Set.finite_range Port.target_non_power_two))).subset ?_
  intro p hp
  cases p with
  | source q i => exact .inl (.inl ⟨q, trivial, i, (used_source.mp hp).2, rfl⟩)
  | target q i => exact .inl (.inr ⟨q, trivial, i, (used_target.mp hp).2, rfl⟩)
  | source_non_power_two q => exact .inr (.inl ⟨q, rfl⟩)
  | target_non_power_two q => exact .inr (.inr ⟨q, rfl⟩)

/-- One rank, or vectors without elements. -/
def Trivial (n number_elements : Nat) : Prop := number_elements = 0 ∨ n = 1

theorem quiet_of_trivial (htriv : Trivial n number_elements)
    (h : (allreduce n number_elements op).Reach input m Separated s) : s.fabric = Fabric.quiet m := by
  unfold Trivial at htriv
  refine h.quiet (fun r x f F => ?_) (fun r f F => ?_) (fun r f F => ?_)
  · show (copyInImpl r x f F).2 = F
    unfold copyInImpl
    rw [if_neg (by omega)]
    split <;> rfl
  · show (startImpl r f F).2 = F
    unfold startImpl
    rw [if_pos htriv]
  · show (triggerProgressImpl op r f F).2.2 = F
    unfold triggerProgressImpl
    rw [if_pos htriv]

theorem triggerProgressImpl_trivial (htriv : Trivial n number_elements) (f : Fields number_elements T)
    (F : Net number_elements n T) : triggerProgressImpl op r f F = (true, f, F) := if_pos htriv

theorem holds_of_not_trivial (htriv : ¬ Trivial n number_elements) (r : Fin n)
    (h : (allreduce n number_elements op).Reach input m Separated s) :
    0 < number_elements ∧ 2 ≤ n ∧ ∃ I, Holds op input s I := by
  have := r.isLt
  unfold Trivial at htriv
  exact ⟨by omega, by omega, holds_of_separated (by omega) (by omega) h⟩

theorem ends : (allreduce n number_elements op).Ends input m Separated (Collective.left fun _ => place n) := by
  refine .of_moves (fun s h => ?_) (fun _ _ _ => separated_of_background) (fun s r h hs done f F ht => ?_)
    fun s k h hk hno hd => ?_
  · by_cases htriv : Trivial n number_elements
    · rw [quiet_of_trivial htriv h]
      exact Set.finite_empty.subset fun p hp => hp rfl
    · refine (finite_used n).subset fun p hp => ?_
      obtain ⟨-, -, I, hI⟩ := holds_of_not_trivial htriv ((schedule n).owner p) h
      exact Schedule.used_of_lt (hI.tracks.lt_of_flight hp)
  · have ht : triggerProgressImpl op r (s.node r).fields s.fabric = (done, f, F) := ht
    by_cases htriv : Trivial n number_elements
    · rw [triggerProgressImpl_trivial htriv] at ht
      cases ht
      exact .inl rfl
    · obtain ⟨hN, hn, I, hI⟩ := holds_of_not_trivial htriv r h
      have hmoves := triggerProgressImpl_moves op s.fabric hN hn (hI.running r hs)
      rw [ht] at hmoves
      exact hmoves
  · obtain ⟨q, hq⟩ := hno
    by_cases htriv : Trivial n number_elements
    · have hrun := running_of_started (hk q) hq
      exact ⟨q, hrun, Collective.proceeds_of_trigger hrun (triggerProgressImpl_trivial htriv _ _) (.inl rfl)⟩
    · obtain ⟨hN, hn, I, hI⟩ := holds_of_not_trivial htriv q h
      obtain ⟨r, hrun, hr⟩ := exists_behind_running steps hk ⟨q, hq⟩ (fun r hs => steps_finished hs)
        fun r hs => hI.steps_lt hs
      exact ⟨r, hrun, hI.proceeds hN hn hd hr⟩

/-! ## Results -/

section

variable {Thread : Type} [DecidableEq Thread] {user th : Thread}
  {g : Deployed (Fin n) Thread (Port n) (Loc n) (Vec number_elements T) (Fields number_elements T)
    (Option (Vec number_elements T))}
  {ls : List (Label (Fin n) Thread (Port n))}

variable (op) in
/-- Every rank's user drives an `Allreduce<T, RECURSIVE_DOUBLING>`. -/
abbrev DeployedStep (input : Fin n → Nat → Vec number_elements T) (user : Thread) :=
  Step (allreduce n number_elements op) input user fun _ => .allreduce

variable (op) in
/-- The same with runs kept apart. -/
abbrev DeployedSeparatedStep (input : Fin n → Nat → Vec number_elements T) (user : Thread) :=
  SeparatedStep (allreduce n number_elements op) input user fun _ => .allreduce

variable (op m) in
abbrev constructed : Deployed (Fin n) Thread (Port n) (Loc n) (Vec number_elements T) (Fields number_elements T)
    (Option (Vec number_elements T)) :=
  .constructed (allreduce n number_elements op) m

variable (op input m) in
theorem exists_runs (hne : th ≠ user) (k : Nat) :
    ∃ ls g, Trace (DeployedSeparatedStep op input user) (constructed op m) ls g ∧ Rounds user k ls g :=
  exists_rounds ends (fun _ _ h => reach_separated h) hne k

/-- **The deployed recursive-doubling allreduce**: in every run of users, engines
and network in which the users keep their calls of `start` apart, no call
throws, the `k`-th vector of every rank is the fold of what all ranks passed to
their `k`-th `start`, and whenever all ranks have called `waitForCompletion` for
it, all these calls can return. -/
theorem allreduce_recursive_doubling_deployed [Std.Commutative op] [Std.Associative op]
    (h : Trace (DeployedSeparatedStep op input user) (constructed op m) ls g) (hne : th ≠ user) :
    (∀ r k, .rank r k ∈ ls → k.throws = none) ∧
    (∀ r k out, (g.object r).outputs[k]? = some out →
      (0 < number_elements → ∀ q, out = some ((Finset.univ.erase q).fold (combine op) (input q k) (round input k))) ∧
      (number_elements = 0 → out = none)) ∧
    ∀ k, (∀ r, k < (ls.flatMap (Label.localSteps r)).countP waited) →
      ∃ ks g', Trace (DeployedStep op input user) g ks g' ∧ (∀ l ∈ ks, l.inside) ∧
        ∀ r, k < (g'.object r).outputs.length := by
  have hstep := trace_of_separated h
  refine ⟨fun r k hk => throws_none hstep (by rintro rank root_rank ⟨⟩) hk, fun r k out hout => ?_,
    fun k hwait => ?_⟩
  · exact outputs_eq_fold (s := g.sys) (reach_separated h) hout
  · exact all_return ends hstep (reach_separated h) hne hwait

/-- Three ranks go through two runs. -/
theorem allreduce_recursive_doubling_deployed_three :
    ∃ (ls : List (Label (Fin 3) Bool (Port 3))) (g : _),
      Trace (DeployedSeparatedStep (fun a b : Nat => a + b) (tag 3) true) (constructed (fun a b : Nat => a + b) fun _ _ => 7)
        ls g ∧
      ∀ r, (g.object r).outputs[1]? = some (some fun _ => 33) := by
  obtain ⟨ls, g, htr, hk⟩ := exists_runs (fun a b : Nat => a + b) (tag 3) (fun _ _ => 7) Bool.false_ne_true 2
  refine ⟨ls, g, htr, fun r => ?_⟩
  have hlt : 1 < (g.object r).outputs.length := by rw [hk.results r]; decide
  have hout := List.getElem?_eq_getElem hlt
  obtain ⟨-, houts, -⟩ := allreduce_recursive_doubling_deployed htr Bool.false_ne_true
  rw [hout, (houts r 1 _ hout).1 (by decide) 0]
  decide

/-! ## Both algorithms -/

/-- The fold of vectors, element by element. -/
theorem fold_combine_apply [Std.Commutative op] [Std.Associative op] (A : Finset (Fin n)) (v : Vec number_elements T)
    (x : Fin n → Vec number_elements T) (e : Fin number_elements) :
    (A.fold (combine op) v x) e = A.fold op (v e) fun q => x q e := by
  induction A using Finset.induction_on with
  | empty => rfl
  | @insert q A hq ih =>
    rw [Finset.fold_insert hq, Finset.fold_insert hq, ← ih]
    rfl

/-- **Both algorithms compute the same**: deployed on equal inputs, a rank's `k`-th
vector from the ring and any rank's from recursive doubling agree in every
element, whichever the interleavings. -/
theorem allreduce_algorithms_agree [Std.Commutative op] [Std.Associative op] {inputs : Fin n → Nat → Nat → T}
    {m' : AllreduceRing.Loc n → AllreduceRing.Chunk n number_elements T}
    {ls' : List (Label (Fin n) Thread (AllreduceRing.Port n))}
    {g' : Deployed (Fin n) Thread (AllreduceRing.Port n) (AllreduceRing.Loc n) (AllreduceRing.Chunk n number_elements T)
      (AllreduceRing.Fields n T) (Nat → Option T)}
    (hsame : ∀ q k (e : Fin number_elements), input q k e = inputs q k e)
    (h : Trace (DeployedSeparatedStep op input user) (constructed op m) ls g)
    (h' : Trace (AllreduceRing.DeployedStep number_elements op inputs user) (AllreduceRing.constructed number_elements op m')
      ls' g')
    {r q : Fin n} {k : Nat} {out : Option (Vec number_elements T)} {out' : Nat → Option T}
    (hr : (g.object r).outputs[k]? = some out) (hq : (g'.object q).outputs[k]? = some out') :
    ∀ e : Fin number_elements, out' e = out.map fun v => v e := by
  intro e
  have hN : 0 < number_elements := Nat.lt_of_le_of_lt (Nat.zero_le _) e.isLt
  have hring := AllreduceRing.outputs_eq_result (s := g'.sys) (reach h') hq
  have hchunk := AllreduceRing.chunk_lt (n := n) e.isLt q.isLt
  rw [hring, AllreduceRing.result, dif_pos ⟨hchunk, e.isLt⟩, AllreduceRing.reduction_fold _ _ r,
    (outputs_eq_fold (s := g.sys) (reach_separated h) hr).1 hN r]
  simp only [Option.map_some, fold_combine_apply, round, hsame]

/-- Two ranks add up three elements each, by both algorithms, twice. -/
theorem allreduce_algorithms_agree_pair :
    ∃ (ls : List (Label (Fin 2) Bool (Port 2))) (g : _) (ls' : List (Label (Fin 2) Bool (AllreduceRing.Port 2))) (g' : _)
        (out : Option (Vec 3 Nat)) (out' : Nat → Option Nat),
      Trace (DeployedSeparatedStep (fun a b => a + b) (fun q k e => AllreduceRing.stamp q k e) true)
        (constructed (fun a b => a + b) fun _ _ => 7) ls g ∧
      Trace (AllreduceRing.DeployedStep 3 (fun a b => a + b) AllreduceRing.stamp true)
        (AllreduceRing.constructed 3 (fun a b => a + b) fun _ _ => 7) ls' g' ∧
      (g.object 0).outputs[1]? = some out ∧ (g'.object 1).outputs[1]? = some out' ∧
      ∀ e : Fin 3, out' e = out.map fun v => v e := by
  obtain ⟨ls, g, htr, hk⟩ := exists_runs (fun a b : Nat => a + b) (fun (q : Fin 2) k (e : Fin 3) => AllreduceRing.stamp q k e)
    (fun _ _ => 7) Bool.false_ne_true 2
  obtain ⟨ls', g', htr', hk'⟩ := AllreduceRing.exists_runs 3 (fun a b : Nat => a + b) AllreduceRing.stamp (fun _ _ => 7)
    Bool.false_ne_true 2
  have hr := List.getElem?_eq_getElem (show 1 < (g.object 0).outputs.length by rw [hk.results 0]; decide)
  have hq := List.getElem?_eq_getElem (show 1 < (g'.object 1).outputs.length by rw [hk'.results 1]; decide)
  exact ⟨ls, g, ls', g', _, _, htr, trace_of_separated htr', hr, hq,
    allreduce_algorithms_agree (fun _ _ _ => rfl) htr (trace_of_separated htr') hr hq⟩

end

end GaspiCxx.Collectives.AllreduceRecursiveDoubling
