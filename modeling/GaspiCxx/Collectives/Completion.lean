import GaspiCxx.Collectives.LowLevel
import GaspiCxx.OneSided.Delivery

/-!
# A started collective can always be completed

`Ends` is what an algorithm has to promise: every effective `triggerProgress`
brings its rank closer to its end, and as long as a started run is not complete
some rank can take such a step once everything in flight has arrived. Then from
every reachable state progress calls and the network alone lead to the end of
the run: there is neither a deadlock nor a point of no return.
-/

namespace GaspiCxx.Collectives

open OneSided

variable {Rank Port Loc Val Fields In Out : Type}

/-- What goes on without the users: progress calls of running ranks, and the network. -/
def Background (s : Sys Rank Port Loc Val Fields Out) : Action Rank Port → Prop
  | .call r c => c = .triggerProgress ∧ (s.node r).state = .running
  | .advance _ _ => True

/-- A started run that is not complete is running. -/
theorem running_of_started {N : Node Fields Out} {k : Nat} (hk : Started k N) (hno : ¬ Completed k N) :
    N.state = .running := by
  obtain hlt | ⟨he, hst | hst⟩ := hk
  · exact absurd (.inl hlt) hno
  · exact hst
  · exact absurd (.inr ⟨he, hst⟩) hno

namespace Collective

variable [DecidableEq Rank] [DecidableEq Port] [DecidableEq Loc]

/-- The algorithm gets to the end of its runs; `remaining` bounds the effective
progress calls that rank `r` still has to make, and the operations in flight go
to finitely many ports. -/
structure Ends (C : Collective Rank Port Loc Val Fields In Out) (input : Rank → Nat → In) (m : Loc → Val)
    (guard : Sys Rank Port Loc Val Fields Out → Action Rank Port → Prop)
    (remaining : Rank → Node Fields Out → Nat) : Prop where
  finite : ∀ s, C.Reach input m guard s → {p | s.fabric.flight p ≠ []}.Finite
  admits : ∀ s a, C.Reach input m guard s → Background s a → guard s a
  lowers : ∀ s r t, C.Reach input m guard s → (s.node r).state = .running →
    C.step input s (.call r .triggerProgress) = some t → t.node r ≠ s.node r →
    remaining r (t.node r) < remaining r (s.node r)
  live : ∀ s k, C.Reach input m guard s → (∀ r, Started k (s.node r)) → (∃ r, ¬ Completed k (s.node r)) →
    s.fabric.Delivered → ∃ r, (s.node r).state = .running ∧ C.Proceeds input s r

variable {C : Collective Rank Port Loc Val Fields In Out} {input : Rank → Nat → In} {m : Loc → Val}
  {guard : Sys Rank Port Loc Val Fields Out → Action Rank Port → Prop}
  {remaining : Rank → Node Fields Out → Nat} {s t : Sys Rank Port Loc Val Fields Out}

/-- The effective progress calls left, counted on the fields of a running rank. -/
def left (place : Rank → Fields → Nat) (r : Rank) (N : Node Fields Out) : Nat :=
  if N.state = .running then place r N.fields + 1 else 0

/-- `lowers` follows from what `triggerProgressImpl` does to the fields: it
completes, changes nothing, or goes on. -/
theorem Ends.of_moves {place : Rank → Fields → Nat}
    (finite : ∀ s, C.Reach input m guard s → {p | s.fabric.flight p ≠ []}.Finite)
    (admits : ∀ s a, C.Reach input m guard s → Background s a → guard s a)
    (moves : ∀ s r, C.Reach input m guard s → (s.node r).state = .running →
      ∀ done f F, C.triggerProgressImpl r (s.node r).fields s.fabric = (done, f, F) →
        done = true ∨ f = (s.node r).fields ∨ place r f < place r (s.node r).fields)
    (live : ∀ s k, C.Reach input m guard s → (∀ r, Started k (s.node r)) → (∃ r, ¬ Completed k (s.node r)) →
      s.fabric.Delivered → ∃ r, (s.node r).state = .running ∧ C.Proceeds input s r) :
    C.Ends input m guard (left place) where
  finite := finite
  admits := admits
  lowers s r t h hs ht hne := by
    obtain ⟨⟨N, F⟩, hc, rfl⟩ := Option.map_eq_some_iff.mp ht
    obtain ⟨hst, -, -⟩ | ⟨-, done, f, hf, rfl⟩ := call_triggerProgress hc
    · exact absurd hs hst
    simp only [Function.update_self] at hne ⊢
    rw [left, left, if_pos hs]
    cases done with
    | true =>
      rw [if_neg (by simp)]
      exact Nat.succ_pos _
    | false =>
      obtain hdone | rfl | hlt := moves s r h hs false f F hf
      · cases hdone
      · exact absurd (by simp only [Bool.false_eq_true, if_false, ← hs]) hne
      · rw [if_pos (by simp)]
        exact Nat.succ_lt_succ hlt
  live := live

/-- Nothing in the background starts or copies out a run. -/
theorem kept_of_background {a : Action Rank Port} (hg : Background s a) (h : C.step input s a = some t)
    (r : Rank) : (t.node r).outputs = (s.node r).outputs ∧
      ((s.node r).state = .running ∨ (s.node r).state = .finished →
        (t.node r).state = .running ∨ (t.node r).state = .finished) := by
  have hs := stepped h
  cases hs with
  | @trigger q done f G hq hc =>
    by_cases hr : r = q
    · subst hr
      rw [setNode_self]
      refine ⟨rfl, fun _ => ?_⟩
      cases done
      · exact .inl rfl
      · exact .inr rfl
    · rw [setNode_of_ne s hr]
      exact ⟨rfl, id⟩
  | idle _ => exact ⟨rfl, id⟩
  | network hG => exact ⟨rfl, id⟩
  | waitForSetup _ => exact absurd hg.1 (by decide)
  | copyIn _ _ => exact absurd hg.1 (by decide)
  | start _ _ => exact absurd hg.1 (by decide)
  | copyOut _ => exact absurd hg.1 (by decide)

theorem started_of_background {a : Action Rank Port} {k : Nat} (hg : Background s a)
    (h : C.step input s a = some t) {r : Rank} (hs : Started k (s.node r)) : Started k (t.node r) := by
  obtain ⟨hout, hst⟩ := kept_of_background hg h r
  unfold Started Node.run at *
  rw [hout]
  exact hs.imp_right fun ⟨hk, hst'⟩ => ⟨hk, hst hst'⟩

/-- The steps of the network are steps of the group. -/
theorem reaches_of_moves {F : Fabric Port Loc Val} (h : Relation.ReflTransGen (Fabric.Moves C.wiring) s.fabric F) :
    Reaches (C.step input) Background s { s with fabric := F } := by
  induction h with
  | refl => exact .refl
  | @tail F G _ hm ih =>
    obtain ⟨p, i, hF⟩ := hm
    have hadvance : C.step input { s with fabric := F } (.advance p i) = some { s with fabric := G } :=
      congrArg (Option.map fun F => Sys.mk s.node F) hF
    exact ih.tail ⟨.advance p i, trivial, hadvance⟩

theorem Ends.reach (h : Ends C input m guard remaining) (hs : C.Reach input m guard s)
    (hr : Reaches (C.step input) Background s t) : C.Reach input m guard t := by
  induction hr with
  | refl => exact hs
  | tail _ hab ih =>
    obtain ⟨a, hg, ha⟩ := hab
    exact ih.next (h.admits _ a ih hg) ha

theorem Ends.started {k : Nat} (hr : Reaches (C.step input) Background s t)
    (hs : ∀ r, Started k (s.node r)) : ∀ r, Started k (t.node r) :=
  Reaches.invariant (P := fun s => ∀ r, Started k (s.node r)) hr hs fun _ _ _ hs hg ha r =>
    started_of_background hg ha (hs r)

/-- **Progress calls and the network alone complete a started run.** -/
theorem Ends.completes [Finite Rank] (h : Ends C input m guard remaining) {k : Nat}
    (hs : C.Reach input m guard s) (hk : ∀ r, Started k (s.node r)) :
    ∃ t, Reaches (C.step input) Background s t ∧ ∀ r, Completed k (t.node r) := by
  have := Fintype.ofFinite Rank
  induction hn : ∑ r, remaining r (s.node r) using Nat.strong_induction_on generalizing s with
  | _ n ih =>
    by_cases hall : ∀ r, Completed k (s.node r)
    · exact ⟨s, .refl, hall⟩
    obtain ⟨F, hF, hd⟩ := s.fabric.exists_delivered C.wiring (h.finite s hs)
    have hdeliver : Reaches (C.step input) Background s { s with fabric := F } := reaches_of_moves hF
    have hs' := h.reach hs hdeliver
    obtain ⟨r, hr, u, hu, hne⟩ := h.live { s with fabric := F } k hs' hk (not_forall.mp hall) hd
    rw [hr, State.due] at hu
    have hg : Background { s with fabric := F } (.call r .triggerProgress) := ⟨rfl, hr⟩
    have hstep : Reaches (C.step input) Background s u := hdeliver.next hg hu
    -- one rank is closer to its end, the others are where they were
    have hlower : remaining r (u.node r) < remaining r (s.node r) := h.lowers { s with fabric := F } r u hs' hr hu hne
    have hlt : ∑ q, remaining q (u.node q) < n := by
      rw [← hn]
      refine Finset.sum_lt_sum (fun q _ => ?_) ⟨r, Finset.mem_univ r, hlower⟩
      by_cases hq : q = r
      · subst hq
        exact hlower.le
      · obtain ⟨⟨N, G⟩, -, rfl⟩ := Option.map_eq_some_iff.mp hu
        exact (congrArg (remaining q) (setNode_of_ne _ hq N G)).le
    obtain ⟨t, ht, hc⟩ := ih _ hlt (h.reach hs hstep) (Ends.started hstep hk) rfl
    exact ⟨t, Relation.ReflTransGen.trans hstep ht, hc⟩

end Collective

end GaspiCxx.Collectives
