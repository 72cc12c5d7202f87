import GaspiCxx.Collectives.AllgathervRing.Correct
import GaspiCxx.Collectives.Deployment.Completion

/-!
# The ring allgatherv, deployed

What the users of `Allgatherv<T, RING>` get if they keep their runs apart, for
any number of ranks and any counts, empty blocks included. A single rank
copies in as many elements as the `int` sum of the counts says; for it the
elements have to fit an `int`.
-/

namespace GaspiCxx.Collectives.AllgathervRing

open OneSided Runs Deployment AllgathervCommon

variable {n : Nat} {T : Type} {counts : Fin n → Nat} {input : Fin n → Nat → Nat → T} {s : GroupSys n T}
  {m : Loc n → List T} {r : Fin n}

/-! ## Separated runs -/

theorem holds_of_separated (hn : 2 ≤ n) (h : (allgatherv counts).Reach input m Separated s) :
    ∃ I, Holds counts input s I := by
  refine holds_of_reach hn (h.of_separated fun s a t htog _ ha => ?_)
  cases ha with
  | start hs hc => exact fun _ => htog _ (.inl hs) _
  | network _ => trivial
  | waitForSetup | copyIn | trigger | idle | copyOut => rintro ⟨⟩

/-- The one rank copies out the block it copied in. -/
theorem kept_of_one_rank {counts : Fin 1 → Nat} {input : Fin 1 → Nat → Nat → T} {s : GroupSys 1 T}
    {m : Loc 1 → List T} {guard : GroupSys 1 T → Action (Fin 1) (Port 1) → Prop}
    (h : (allgatherv counts).Reach input m guard s) (r : Fin 1) :
    Collective.Kept (fun f _ => f.data_for_1rank_case) (fun x => readFrom x (number_elements counts))
      (copyTo (fun _ => none) 0) (input r) (s.node r) s.fabric := by
  refine h.of_one_rank (fun r x f F f' F' hc => ?_) (fun r f F f' F' hc => ?_) (fun r f F done f' F' hc => ?_)
    (fun r f F => ?_) r
  · have hcopy : copyInImpl counts r x f F =
        ({ f with data_for_1rank_case := readFrom x (number_elements counts) }, F) := by simp [copyInImpl]
    obtain ⟨rfl, rfl⟩ := Prod.mk.inj (hcopy.symm.trans hc)
    exact ⟨rfl, by dsimp only⟩
  · have hstart : startImpl counts r f F = (f, F) := by simp [startImpl]
    cases hstart.symm.trans hc
    exact ⟨rfl, rfl⟩
  · have htrigger : triggerProgressImpl counts r f F = (true, f, F) := by simp [triggerProgressImpl]
    cases htrigger.symm.trans hc
    exact ⟨rfl, rfl⟩
  · show copyOutImpl counts r f F = _
    simp [copyOutImpl]

theorem gathered_of_one_rank {counts : Fin 1 → Nat} (inputs : Fin 1 → Nat → T) {r : Fin 1}
    (hfit : number_elements counts = before counts 1) :
    Gathered counts inputs (copyTo (fun _ => none) 0 (readFrom (inputs r) (number_elements counts))) := by
  have hoff : ∀ q, offsets counts q = 0 := fun q => by
    rw [offsets_eq, Subsingleton.elim q 0]
    exact before_zero counts
  have hall : before counts 1 = counts 0 := by
    have := before_succ counts 0
    rwa [show ((0 : Fin 1) : Nat) = 0 from rfl, before_zero, Nat.zero_add, Nat.zero_add] at this
  constructor
  · intro q i hi
    obtain rfl : q = r := Subsingleton.elim q r
    obtain rfl : q = 0 := Subsingleton.elim q 0
    rw [hoff, Nat.zero_add, copyTo, length_readFrom, hfit, hall, if_pos ⟨Nat.zero_le i, by omega⟩]
    exact getElem?_readFrom _ hi
  · intro j hj
    rw [copyTo, length_readFrom, hfit, if_neg (by omega)]

/-- Every output holds every rank's block of the same run. -/
theorem outputs_gathered (hfit : n = 1 → before counts n < 2 ^ 31)
    (h : (allgatherv counts).Reach input m Separated s) {k : Nat} {out : Nat → Option T}
    (hk : (s.node r).outputs[k]? = some out) : Gathered counts (fun q => input q k) out := by
  have := r.isLt
  by_cases hn : n = 1
  · subst hn
    rw [(kept_of_one_rank h r).outputs k out hk]
    have hlt := hfit rfl
    exact gathered_of_one_rank (fun q => input q k) ((number_elements_eq_iff counts (by omega)).mpr (.inl hlt))
  · obtain ⟨I, hI⟩ := holds_of_separated (by omega) h
    exact hI.outputs r k out hk

/-! ## Progress -/

variable (counts r) in
/-- A progress call completes, changes nothing, or goes on by one step. -/
theorem triggerProgressImpl_moves (fields : Fields T) (F : Net n T) :
    (triggerProgressImpl counts r fields F).1 = true ∨ (triggerProgressImpl counts r fields F).2.1 = fields ∨
    (n ≠ 1 ∧ (triggerProgressImpl counts r fields F).2.1.current_step = fields.current_step + 1) := by
  unfold triggerProgressImpl
  split
  · exact .inl rfl
  · next hn =>
    split
    · exact .inr (.inl rfl)
    · dsimp only
      split
      · exact .inr (.inl rfl)
      · split <;> exact .inr (.inr ⟨hn, rfl⟩)

theorem finite_used (counts : Fin n → Nat) : {p : Port n | (schedule counts).used p = true}.Finite := by
  have hstep := Set.finite_Iio n
  refine ((Set.finite_univ.image2 Port.source hstep).union (Set.finite_univ.image2 Port.target hstep)).subset ?_
  intro p hp
  cases p with
  | source q i => exact .inl ⟨q, trivial, i, Set.mem_Iio.mpr (by have := (used_source q).mp hp; omega), rfl⟩
  | target q i => exact .inr ⟨q, trivial, i, Set.mem_Iio.mpr (by have := (used_target q).mp hp; omega), rfl⟩

/-- With nothing in flight, the call that is due on a rank behind all others
changes its object. -/
theorem Holds.proceeds {I : Channels (Port n) (Loc n) (List T)} (h : Holds counts input s I) (hn : 2 ≤ n)
    (hd : s.fabric.Delivered) (hs : (s.node r).state = .running)
    (hr : ∀ q, (progress s r).Behind (progress s q)) : (allgatherv counts).Proceeds input s r := by
  have hlt := h.step_lt r hs
  have hst : (progress s r).steps = (s.node r).fields.current_step + 1 := by simp [progressOf, steps, hs]
  by_cases hlast : (s.node r).fields.current_step = n - 1
  · have hslot := Schedule.awaited (S := schedule counts) h.tracks (p := .source r (n - 2)) hr
      ((used_source r).mpr (by omega)) (by simp only [schedule]; omega) (by simp only [schedule]; omega) (hd _)
    exact Collective.proceeds_of_trigger hs (triggerProgressImpl_ack_set (by omega) hlast hslot) (.inl rfl)
  · have hslot := Schedule.awaited (S := schedule counts) h.tracks (p := .target r (s.node r).fields.current_step) hr
      ((used_target r).mpr (by omega)) (by simp only [schedule]; omega) (by simp only [schedule]; omega) (hd _)
    refine Collective.proceeds_of_trigger hs (triggerProgressImpl_target_set (by omega) hlast hslot)
      (.inr fun he => ?_)
    have := congrArg Fields.current_step he
    simp at this

theorem ends : (allgatherv counts).Ends input m Separated
    (Collective.left fun _ fields => n - fields.current_step) := by
  refine .of_moves (fun s h => ?_) (fun _ _ _ => separated_of_background) (fun s r h hs done f F ht => ?_)
    fun s k h hk hno hd => ?_
  · by_cases hn : 2 ≤ n
    · obtain ⟨I, hI⟩ := holds_of_separated hn h
      exact (finite_used counts).subset fun p hp => Schedule.used_of_lt (hI.tracks.lt_of_flight hp)
    · have : n = 0 ∨ n = 1 := by omega
      obtain rfl | rfl := this
      · have hnone : IsEmpty (Port 0) := ⟨fun p => by cases p with | source q _ | target q _ => exact q.elim0⟩
        exact Set.toFinite _
      · exact Set.finite_empty.subset fun p hp => hp ((kept_of_one_rank h 0).quiet p)
  · have hmoves := triggerProgressImpl_moves counts r (s.node r).fields s.fabric
    rw [show triggerProgressImpl counts r (s.node r).fields s.fabric = _ from ht] at hmoves
    obtain hdone | hsame | ⟨hn, hstep⟩ := hmoves
    · exact .inl hdone
    · exact .inr (.inl hsame)
    · have := r.isLt
      obtain ⟨I, hI⟩ := holds_of_separated (by omega) h
      have := hI.step_lt r hs
      have hstep : f.current_step = (s.node r).fields.current_step + 1 := hstep
      exact .inr (.inr (by omega))
  · obtain ⟨q, hq⟩ := hno
    have := q.isLt
    by_cases hn : n = 1
    · subst hn
      have hrun := running_of_started (hk q) hq
      have ht : triggerProgressImpl counts q (s.node q).fields s.fabric = (true, (s.node q).fields, s.fabric) := rfl
      exact ⟨q, hrun, Collective.proceeds_of_trigger hrun ht (.inl rfl)⟩
    · obtain ⟨I, hI⟩ := holds_of_separated (by omega) h
      obtain ⟨r, hrun, hr⟩ := exists_behind_running (fun _ => steps n) hk ⟨q, hq⟩ (fun r hs => steps_finished hs)
        fun r hs => hI.steps_lt hs
      exact ⟨r, hrun, hI.proceeds (by omega) hd hrun hr⟩

/-! ## Results -/

section

variable {Thread : Type} [DecidableEq Thread] {user th : Thread}
  {g : Deployed (Fin n) Thread (Port n) (Loc n) (List T) (Fields T) (Nat → Option T)}
  {ls : List (Label (Fin n) Thread (Port n))}

variable (counts) in
/-- Every rank's user drives an `Allgatherv<T, RING>`. -/
abbrev DeployedStep (input : Fin n → Nat → Nat → T) (user : Thread) :=
  Step (allgatherv counts) input user fun _ => .allgatherv

variable (counts) in
/-- The same with runs kept apart. -/
abbrev DeployedSeparatedStep (input : Fin n → Nat → Nat → T) (user : Thread) :=
  SeparatedStep (allgatherv counts) input user fun _ => .allgatherv

variable (counts m) in
abbrev constructed : Deployed (Fin n) Thread (Port n) (Loc n) (List T) (Fields T) (Nat → Option T) :=
  .constructed (allgatherv counts) m

/-- **The deployed ring allgatherv**: in every run of users, engines and network in
which the users keep their calls of `start` apart, no call throws, the `k`-th
vector of every rank holds every rank's `k`-th block at its offset and nothing
else, and whenever all ranks have called `waitForCompletion` for it, all these
calls can return. -/
theorem allgatherv_ring_deployed (hfit : n = 1 → before counts n < 2 ^ 31)
    (h : Trace (DeployedSeparatedStep counts input user) (constructed counts m) ls g) (hne : th ≠ user) :
    (∀ r k, .rank r k ∈ ls → k.throws = none) ∧
    (∀ r k out, (g.object r).outputs[k]? = some out → Gathered counts (fun q => input q k) out) ∧
    ∀ k, (∀ r, k < (ls.flatMap (Label.localSteps r)).countP waited) →
      ∃ ks g', Trace (DeployedStep counts input user) g ks g' ∧ (∀ l ∈ ks, l.inside) ∧
        ∀ r, k < (g'.object r).outputs.length := by
  have hstep := trace_of_separated h
  refine ⟨fun r k hk => throws_none hstep (by rintro rank root_rank ⟨⟩) hk, fun r k out hout => ?_,
    fun k hwait => ?_⟩
  · exact outputs_gathered (s := g.sys) hfit (reach_separated h) hout
  · exact all_return ends hstep (reach_separated h) hne hwait

/-- Two ranks gather twice; the second output holds `10` and `11`. -/
theorem allgatherv_ring_deployed_pair :
    ∃ (ls : List (Label (Fin 2) Bool (Port 2))) (g : _),
      Trace (DeployedSeparatedStep ones stamp true) (constructed ones fun _ => []) ls g ∧
      ∀ r, ∃ out, (g.object r).outputs[1]? = some out ∧ out 0 = some 10 ∧ out 1 = some 11 := by
  obtain ⟨ls, g, htr, hk⟩ : ∃ ls g, Trace (DeployedSeparatedStep ones stamp true) (constructed ones fun _ => []) ls g
      ∧ Rounds true 2 ls g := exists_rounds ends (fun _ _ h => reach_separated h) Bool.false_ne_true 2
  refine ⟨ls, g, htr, fun r => ?_⟩
  have hout := List.getElem?_eq_getElem (show 1 < (g.object r).outputs.length by rw [hk.results r]; decide)
  obtain ⟨-, houts, -⟩ := allgatherv_ring_deployed (by decide) htr Bool.false_ne_true
  exact ⟨_, hout, (houts r 1 _ hout).block 0 0 (by decide), (houts r 1 _ hout).block 1 0 (by decide)⟩

end

end GaspiCxx.Collectives.AllgathervRing
