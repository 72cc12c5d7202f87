import GaspiCxx.Collectives.AllreduceRing.Correct
import GaspiCxx.Collectives.Deployment.Completion
import GaspiCxx.Reduction.Butterfly

/-!
# The ring allreduce, deployed

What the users of `Allreduce<T, RING>` get, for any number of ranks and of
elements: a group of one rank and vectors without elements communicate nothing,
but go through the same calls.
-/

namespace GaspiCxx.Collectives.AllreduceRing

open OneSided Runs Deployment Reduction GroupUtilities AllreduceCommon

variable {n number_elements : Nat} {T : Type} {f : T → T → T} {input : Fin n → Nat → Nat → T}
  {s : GroupSys n number_elements T} {m : Loc n → Chunk n number_elements T}

/-! ## Nothing to communicate -/

/-- The one rank keeps its input until it copies it out. -/
theorem kept_of_one_rank {input : Fin 1 → Nat → Nat → T} {s : GroupSys 1 number_elements T}
    {m : Loc 1 → Chunk 1 number_elements T} (h : (allreduce 1 number_elements f).Reach input m (fun _ _ => True) s)
    (r : Fin 1) :
    Collective.Kept (fun fields _ => fields.data_for_1rank_case) (fun x => readFrom x number_elements)
      (copyTo (fun _ => none) 0) (input r) (s.node r) s.fabric := by
  refine h.of_one_rank (fun r x f' F f₁ F₁ hc => ?_) (fun r f' F f₁ F₁ hc => ?_) (fun r f' F done f₁ F₁ hc => ?_)
    (fun _ _ _ => rfl) r
  · cases hc
    exact ⟨rfl, rfl⟩
  · have hstart : startImpl r f' F = (f', F) := by simp [startImpl]
    cases hstart.symm.trans hc
    exact ⟨rfl, rfl⟩
  · have htrigger : triggerProgressImpl f r f' F = (true, f', F) := by simp [triggerProgressImpl]
    cases htrigger.symm.trans hc
    exact ⟨rfl, rfl⟩

theorem number_elements_padded_one : number_elements_padded 1 number_elements = number_elements := by
  simp [number_elements_padded, ceil_div]

/-- In every group and for every vector, empty or not, the `k`-th output is the `k`-th result. -/
theorem outputs_eq_result (h : (allreduce n number_elements f).Reach input m (fun _ _ => True) s) {r : Fin n}
    {k : Nat} {out : Nat → Option T} (hk : (s.node r).outputs[k]? = some out) :
    out = result number_elements f input k := by
  have hpos := r.isLt
  by_cases hn : n = 1
  · subst hn
    rw [(kept_of_one_rank h r).outputs k out hk]
    funext j
    unfold copyTo result
    rw [length_readFrom, Nat.zero_add]
    by_cases hj : j < number_elements
    · have hchunk : j / number_elements_padded 1 number_elements < 1 := by
        rw [number_elements_padded_one, Nat.div_eq_of_lt hj]
        decide
      rw [if_pos ⟨Nat.zero_le j, hj⟩, Nat.sub_zero, getElem?_readFrom _ hj, dif_pos ⟨hchunk, hj⟩]
      exact congrArg (fun q => some (input q k j)) (Subsingleton.elim r ⟨_, hchunk⟩)
    · rw [if_neg fun hx => hj hx.2, dif_neg fun hx => hj hx.2]
  · rcases Nat.eq_zero_or_pos number_elements with rfl | hN
    · -- without elements there are no buffers
      obtain ⟨f', F, rfl⟩ := h.exists_copyOut r out (List.mem_of_getElem? hk)
      funext j
      rw [result, dif_neg fun hx => Nat.not_lt_zero j hx.2]
      show copyOutImpl r f' F j = none
      rw [copyOutImpl, if_neg hn, buffers, if_neg fun hx => Nat.lt_irrefl 0 hx.1]
      rfl
    · obtain ⟨I, hI⟩ := holds_of_reach hN (by omega) h
      exact hI.outputs r k out hk

/-- Every element is in one of the chunks. -/
theorem chunk_lt {j i : Nat} (hj : j < number_elements) (hi : i < n) :
    j / number_elements_padded n number_elements < n := by
  obtain ⟨c, e, rfl⟩ := exists_element (n := n) hj (by omega)
  rw [element_div]
  exact c.isLt

/-! ## Progress -/

/-- A progress call completes, changes nothing, or goes on by one step. -/
theorem triggerProgressImpl_moves (r : Fin n) (fields : Fields n T) (F : Net n number_elements T) :
    (triggerProgressImpl f r fields F).1 = true ∨ (triggerProgressImpl f r fields F).2.1 = fields ∨
    (0 < number_elements ∧ n ≠ 1 ∧
      (triggerProgressImpl f r fields F).2.1.current_step = fields.current_step + 1) := by
  unfold triggerProgressImpl
  split
  · exact .inl rfl
  · next hno =>
    split
    · exact .inr (.inl rfl)
    · dsimp only
      split <;>
      · split
        · exact .inr (.inl rfl)
        · exact .inr (.inr ⟨by omega, by omega, rfl⟩)

/-- The four families of ports, told apart by two bits. -/
def Port.code : Port n → Bool × Bool × Fin n × Fin n
  | .source_reduce r j => (false, false, r, j)
  | .target_reduce r j => (false, true, r, j)
  | .source_gather r j => (true, false, r, j)
  | .target_gather r j => (true, true, r, j)

instance : Finite (Port n) := by
  refine Finite.of_injective Port.code fun p q h => ?_
  cases p <;> cases q <;> simp_all [Port.code]

theorem ends : (allreduce n number_elements f).Ends input m (fun _ _ => True)
    (Collective.left fun _ fields => 2 * n - fields.current_step) := by
  refine .of_moves (fun _ _ => Set.toFinite _) (fun _ _ _ _ => trivial) (fun s r h hs done f' F ht => ?_)
    fun s k h hk hno hd => ?_
  · have hmoves := triggerProgressImpl_moves (f := f) r (s.node r).fields s.fabric
    rw [show triggerProgressImpl f r (s.node r).fields s.fabric = _ from ht] at hmoves
    obtain hdone | hsame | ⟨hN, hn, hstep⟩ := hmoves
    · exact .inl hdone
    · exact .inr (.inl hsame)
    · have := r.isLt
      obtain ⟨I, hI⟩ := holds_of_reach hN (by omega) h
      have := hI.step_le r hs
      have hstep : f'.current_step = (s.node r).fields.current_step + 1 := hstep
      exact .inr (.inr (by omega))
  · obtain ⟨r, hr⟩ := hno
    have := r.isLt
    by_cases hN : number_elements = 0 ∨ n = 1
    · -- whoever runs completes at once
      have hrun := running_of_started (hk r) hr
      have ht : triggerProgressImpl f r (s.node r).fields s.fabric = (true, (s.node r).fields, s.fabric) := by
        rw [triggerProgressImpl, if_pos hN]
      exact ⟨r, hrun, Collective.proceeds_of_trigger hrun ht (.inl rfl)⟩
    · obtain ⟨I, hI⟩ := holds_of_reach (by omega) (by omega) h
      exact hI.live (by omega) (by omega) hk ⟨r, hr⟩ hd

/-! ## Commutative and associative reductions -/

/-- From rank `i` on, `n` steps around the ring visit every rank once. -/
theorem map_ringIndex_range (i : Fin n) :
    (Multiset.range n).map (fun e => ringIndex (i + e) i) = Finset.univ.val := by
  have hi := i.isLt
  have hval : ∀ e, e < n → (ringIndex (i + e) i).val = if i.val + e < n then i.val + e else i.val + e - n := by
    intro e he
    simp only [ringIndex]
    split
    · exact Nat.mod_eq_of_lt ‹_›
    · rw [Nat.mod_eq_sub_mod (by omega), Nat.mod_eq_of_lt (by omega)]
  refine ((Multiset.Nodup.map_on ?_ (Multiset.nodup_range n)).ext Finset.univ.nodup).mpr fun q => ?_
  · intro e he d hd heq
    rw [Multiset.mem_range] at he hd
    have := congrArg Fin.val heq
    rw [hval e he, hval d hd] at this
    split at this <;> split at this <;> omega
  · refine ⟨fun _ => Finset.mem_univ q, fun _ => Multiset.mem_map.mpr ⟨GroupUtilities.dist i q, ?_, ringIndex_eq rfl i⟩⟩
    exact Multiset.mem_range.mpr (dist_lt i q)

/-- The reduction along the ring is the fold over all ranks, from whichever of them it starts. -/
theorem reduction_fold [Std.Commutative f] [Std.Associative f] (x : Fin n → T) (i q : Fin n) :
    reduction f x i (n - 1) = (Finset.univ.erase q).fold f (x q) x := by
  have hi := i.isLt
  have hpart : ∀ d, IsFold f ((Multiset.range (d + 1)).map fun e => x (ringIndex (i + e) i)) (reduction f x i d) := by
    intro d
    induction d with
    | zero =>
      have hself : ringIndex (i + 0) i = i := ringIndex_eq (dist_self i) i
      rw [Multiset.range_succ, Multiset.range_zero, Multiset.map_cons, Multiset.map_zero, hself]
      exact IsFold.singleton _
    | succ d ih =>
      rw [Multiset.range_succ, Multiset.map_cons, ← Multiset.singleton_add]
      exact (IsFold.singleton _).add ih
  have hall := hpart (n - 1)
  have hmap : (Multiset.range n).map (fun e => x (ringIndex (i + e) i)) = Finset.univ.val.map x := by
    rw [← map_ringIndex_range i, Multiset.map_map]
    rfl
  rw [show n - 1 + 1 = n by omega, hmap] at hall
  have hsplit : (Finset.univ : Finset (Fin n)).val = q ::ₘ (Finset.univ.erase q).val := by
    rw [Finset.erase_val, Multiset.cons_erase (Finset.mem_univ q)]
  rw [hsplit, Multiset.map_cons] at hall
  exact hall.eq_fold

/-! ## Results -/

section

variable {Thread : Type} [DecidableEq Thread] {user th : Thread}
  {g : Deployed (Fin n) Thread (Port n) (Loc n) (Chunk n number_elements T) (Fields n T) (Nat → Option T)}
  {ls : List (Label (Fin n) Thread (Port n))}

variable (number_elements f) in
/-- Every rank's user drives an `Allreduce<T, RING>`. -/
abbrev DeployedStep (input : Fin n → Nat → Nat → T) (user : Thread) :=
  Step (allreduce n number_elements f) input user fun _ => .allreduce

variable (number_elements f m) in
abbrev constructed : Deployed (Fin n) Thread (Port n) (Loc n) (Chunk n number_elements T) (Fields n T) (Nat → Option T) :=
  .constructed (allreduce n number_elements f) m

/-- **The deployed ring allreduce**: in every run of users, engines and network,
through any number of `start` and `waitForCompletion`, no call throws, every
`waitForCompletion` that is over has brought one vector, and the `k`-th vector
is the reduction of what all ranks passed to their `k`-th `start`. -/
theorem allreduce_ring_deployed
    (h : Trace (DeployedStep number_elements f input user) (constructed number_elements f m) ls g) :
    (∀ r k, .rank r k ∈ ls → k.throws = none) ∧
    ∀ r, ((g.wrapped r).rest = [] →
        (g.object r).outputs.length = (ls.flatMap (Label.localSteps r)).countP waited) ∧
      ∀ k out, (g.object r).outputs[k]? = some out → out = result number_elements f input k := by
  exact ⟨fun r k hk => throws_none h (by rintro rank root_rank ⟨⟩) hk,
    fun r => ⟨length_outputs_of_idle h, fun k out hk => outputs_eq_result (reach h) hk⟩⟩

variable (number_elements f input m) in
theorem exists_runs (hne : th ≠ user) (k : Nat) :
    ∃ ls g, Trace (SeparatedStep (allreduce n number_elements f) input user fun _ => .allreduce)
        (constructed number_elements f m) ls g ∧ Rounds user k ls g :=
  exists_rounds ends (fun _ _ h => reach (trace_of_separated h)) hne k

theorem allreduce_ring_deployed_pair :
    ∃ (ls : List (Label (Fin 2) Bool (Port 2))) (g : _), Trace (DeployedStep 3 (ReductionOp.functor .SUM) stamp true)
        (constructed 3 (ReductionOp.functor .SUM) fun _ _ => 0) ls g ∧
      ∀ r, (g.object r).outputs[1]? = some (result 3 (ReductionOp.functor .SUM) stamp 1) := by
  obtain ⟨ls, g, htr, hk⟩ := exists_runs 3 (ReductionOp.functor .SUM) (stamp : Fin 2 → _) (fun _ _ => 0)
    Bool.false_ne_true 2
  refine ⟨ls, g, trace_of_separated htr, fun r => ?_⟩
  have hout := List.getElem?_eq_getElem (show 1 < (g.object r).outputs.length by rw [hk.results r]; decide)
  rw [hout, ((allreduce_ring_deployed (trace_of_separated htr)).2 r).2 1 _ hout]

/-- **No deadlock of the deployed ring allreduce**: whenever every rank has
called `waitForCompletion` for its `k`-th `start`, all these calls can return. -/
theorem allreduce_ring_returns
    (h : Trace (DeployedStep number_elements f input user) (constructed number_elements f m) ls g)
    (hne : th ≠ user) {k : Nat} (hwait : ∀ r, k < (ls.flatMap (Label.localSteps r)).countP waited) :
    ∃ ks g', Trace (DeployedStep number_elements f input user) g ks g' ∧ (∀ l ∈ ks, l.inside) ∧
      ∀ r, k < (g'.object r).outputs.length :=
  all_return ends h (reach h) hne hwait

/-- After the second run all ranks call `waitForCompletion` a third time. -/
theorem allreduce_ring_returns_pair :
    ∃ (ls : List (Label (Fin 2) Bool (Port 2))) (g : _), Trace (DeployedStep 3 (ReductionOp.functor .SUM) stamp true)
        (constructed 3 (ReductionOp.functor .SUM) fun _ _ => 0) ls g ∧ ∀ r, 2 < (g.object r).outputs.length := by
  obtain ⟨ls, g, htr, hk⟩ := exists_runs 3 (ReductionOp.functor .SUM) (stamp : Fin 2 → _) (fun _ _ => 0)
    Bool.false_ne_true 2
  obtain ⟨ks, g', hks, -, hcounts⟩ := hk.waits htr
  have hstep := (trace_of_separated htr).append hks
  obtain ⟨ks', g'', hks', -, hres⟩ := allreduce_ring_returns hstep Bool.false_ne_true (k := 2) fun r => by
    rw [(hcounts r).1]; decide
  exact ⟨_, g'', hstep.append hks', hres⟩

end

end GaspiCxx.Collectives.AllreduceRing
