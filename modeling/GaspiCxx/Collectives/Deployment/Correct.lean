import GaspiCxx.Collectives.AllreduceRing.Deployed

/-!
# Deployed collectives refine sequential ones
-/

namespace GaspiCxx.Collectives.Deployment

open OneSided Runs
open Wrappers (Wrapped Wrapper)

variable {Rank Thread Port Loc Val Fields In Out : Type} [DecidableEq Rank] [DecidableEq Thread]
  [DecidableEq Port] [DecidableEq Loc] {C : Collective Rank Port Loc Val Fields In Out}
  {input : Rank → Nat → In} {m : Loc → Val} {user : Thread} {w : Rank → Wrapper Rank}
  {s : Deployed Rank Thread Port Loc Val Fields Out} {ls : List (Label Rank Thread Port)}

/-- What the threads of a rank have done, seen from its user. -/
structure Served (user : Thread) (v : Wrapper Rank) (ks : List (Wrappers.Label Thread)) (W : Wrapped Thread)
    (results : Nat) : Prop where
  wrapper : Trace (Wrappers.Step user v) .constructed ks W
  throws : ∀ k ∈ ks, ∀ what, k.throws = some what → ∃ overload, k = .start overload ∧ v.Refuses overload
  results : W.rest = [] → results = ks.countP waited

/-- **Any collective, deployed, is its algorithm under the sequential life cycle**: what
the users, the engines' threads and the network do together is, hook by hook, a
run of public calls and network steps that the life cycle allows; and every user
sees a wrapper that throws nothing but a refused `start` and hands out one
result for each `waitForCompletion`. -/
theorem deployed_refines (h : Trace (Step C input user w) (.constructed C m) ls s) :
    Trace (Sequential C input) (C.initial m) (ls.flatMap Label.actions) s.sys ∧
    ∀ r, Served user (w r) (ls.flatMap (Label.localSteps r)) (s.wrapped r) (s.object r).outputs.length := by
  refine ⟨refines_sequential.trace h, fun r => ⟨(refines_wrapper r).trace h, fun k hk what ht => ?_,
    length_outputs_of_idle h⟩⟩
  obtain ⟨l, hl, hmem⟩ := List.mem_flatMap.mp hk
  cases l with
  | network p i => cases hmem
  | rank q k' =>
    rw [Label.localSteps] at hmem
    split at hmem
    · next hq =>
      subst hq
      obtain rfl := List.mem_singleton.mp hmem
      exact throws h hl ht
    · cases hmem

/-- Two ranks reduce once by the ring, and have one result each. -/
theorem deployed_refines_ring :
    ∃ (ls : List (Label (Fin 2) Bool (AllreduceRing.Port 2))) (s : AllreduceRing.GroupSys 2 3 Nat),
      Trace (Sequential (AllreduceRing.allreduce 2 3 fun a b : Nat => a + b) AllreduceRing.stamp)
        (Collective.initial (AllreduceRing.allreduce 2 3 fun a b : Nat => a + b) fun _ _ => 0)
        (ls.flatMap Label.actions) s ∧
      ∀ r, (s.node r).outputs.length = 1 ∧ (ls.flatMap (Label.localSteps r)).countP waited = 1 := by
  obtain ⟨ls, s, htr, hk⟩ := AllreduceRing.exists_runs 3 (fun a b : Nat => a + b) (AllreduceRing.stamp : Fin 2 → _)
    (fun _ _ => 0) Bool.false_ne_true 1
  obtain ⟨hseq, hserved⟩ := deployed_refines (trace_of_separated htr)
  exact ⟨ls, s.sys, hseq, fun r => ⟨hk.results r, by rw [← (hserved r).results (hk.idle r).rest, hk.results r]⟩⟩

end GaspiCxx.Collectives.Deployment
