import GaspiCxx.Collectives.Completion

/-!
# Separated runs

A rank that starts its next run waits until every rank has copied out as many
runs as it has, as it does after a barrier. Then nobody is ahead of anybody by
more than the run that is open (`Reach.separated`), and an algorithm that
asks less of its callers gets what it asks (`Reach.of_separated`).

A group of one rank needs no such care (`Reach.of_one_rank`).
-/

namespace GaspiCxx.Collectives

open OneSided

variable {Rank Port Loc Val Fields In Out : Type}

/-- A rank copies in only when all ranks have copied out as many runs. -/
def Separated (s : Sys Rank Port Loc Val Fields Out) : Action Rank Port → Prop
  | .call r c => c = .copyIn → ∀ q, (s.node r).run ≤ (s.node q).run
  | .advance _ _ => True

/-- The input of the current run has been copied in. -/
def Node.Active (N : Node Fields Out) : Prop :=
  N.state = .ready ∨ N.state = .running ∨ N.state = .finished

/-- No rank in a run is ahead of another. -/
def Together (s : Sys Rank Port Loc Val Fields Out) : Prop :=
  ∀ r, (s.node r).Active → ∀ q, (s.node r).run ≤ (s.node q).run

theorem separated_of_background {s : Sys Rank Port Loc Val Fields Out} {a : Action Rank Port}
    (h : Background s a) : Separated s a := by
  cases a with
  | advance p i => trivial
  | call r c =>
    intro hc
    rw [h.1] at hc
    cases hc

namespace Collective

variable [DecidableEq Rank] [DecidableEq Port] [DecidableEq Loc]
  {C : Collective Rank Port Loc Val Fields In Out} {input : Rank → Nat → In} {m : Loc → Val}
  {s t : Sys Rank Port Loc Val Fields Out} {a : Action Rank Port}

omit [DecidableEq Port] [DecidableEq Loc] in
/-- A rank whose runs only grow, and that joins a run only with all others. -/
theorem together_setNode {r : Rank} {N : Node Fields Out} {F : Fabric Port Loc Val} (h : Together s)
    (hrun : (s.node r).run ≤ N.run)
    (hactive : N.Active → N.run = (s.node r).run ∧ ∀ q, (s.node r).run ≤ (s.node q).run) :
    Together (setNode s r N F) := by
  have hgrows : ∀ q, (s.node q).run ≤ ((setNode s r N F).node q).run := by
    intro q
    by_cases hq : q = r
    · subst hq; rw [setNode_self]; exact hrun
    · rw [setNode_of_ne s hq]
  intro p hp q
  by_cases hpr : p = r
  · subst hpr
    rw [setNode_self] at hp ⊢
    obtain ⟨he, hle⟩ := hactive hp
    rw [he]
    exact (hle q).trans (hgrows q)
  · rw [setNode_of_ne s hpr] at hp ⊢
    exact (h p hp q).trans (hgrows q)

theorem Stepped.together (h : Together s) (hg : Separated s a) (ha : Stepped C input s a t) : Together t := by
  cases ha with
  | waitForSetup hs => exact together_setNode h (Nat.le_refl _) (by simp [Node.Active])
  | @copyIn q f G hs hc => exact together_setNode h (Nat.le_refl _) fun _ => ⟨rfl, hg rfl⟩
  | @start q f G hs hc => exact together_setNode h (Nat.le_refl _) fun _ => ⟨rfl, h q (.inl hs)⟩
  | @trigger q done f G hs hc => exact together_setNode h (Nat.le_refl _) fun _ => ⟨rfl, h q (.inr (.inl hs))⟩
  | idle hs => exact h
  | copyOut hs =>
    refine together_setNode h ?_ (by simp [Node.Active])
    simp only [Node.run, List.length_append]
    omega
  | network hG => exact h

omit [DecidableEq Rank] [DecidableEq Port] [DecidableEq Loc] in
theorem together_initial : Together (C.initial m) := fun r hr => by simp [initial, Node.Active] at hr

/-- **The invariant rule for separated runs.** -/
theorem Reach.separated_invariant {P : Sys Rank Port Loc Val Fields Out → Prop} (initial : P (C.initial m))
    (next : ∀ s a t, P s → Together s → Separated s a → Stepped C input s a t → P t)
    (h : C.Reach input m Separated s) : P s :=
  (Reach.invariant (P := fun s => P s ∧ Together s) ⟨initial, together_initial⟩
    (fun s a t ⟨hs, htog⟩ hg ha => ⟨next s a t hs htog hg ha, ha.together htog hg⟩) h).1

/-- Separated runs keep every guard that asks a rank in a run only not to be ahead. -/
theorem Reach.of_separated {guard : Sys Rank Port Loc Val Fields Out → Action Rank Port → Prop}
    (hg : ∀ s a t, Together s → Separated s a → Stepped C input s a t → guard s a)
    (h : C.Reach input m Separated s) : C.Reach input m guard s := by
  refine (Reaches.invariant (P := fun s => C.Reach input m guard s ∧ Together s) h
    ⟨Relation.ReflTransGen.refl, together_initial⟩ ?_).1
  rintro s a t ⟨hs, htog⟩ hsep ha
  exact ⟨hs.next (hg s a t htog hsep (stepped ha)) ha, (stepped ha).together htog hsep⟩

/-! ## One rank -/

/-- What one rank keeps of its input, in its fields or in its memory. -/
structure Kept {Data : Type} (data : Fields → (Loc → Val) → Data) (set : In → Data) (out : Data → Out)
    (input : Nat → In) (N : Node Fields Out) (F : Fabric Port Loc Val) : Prop where
  quiet : F.Delivered
  data : N.Active → data N.fields F.mem = set (input N.run)
  outputs : ∀ k o, N.outputs[k]? = some o → o = out (set (input k))

/-- **A group of one rank communicates nothing**: the rank gets back what it put in. -/
theorem Reach.of_one_rank [Subsingleton Rank]
    {guard : Sys Rank Port Loc Val Fields Out → Action Rank Port → Prop} {Data : Type}
    {data : Fields → (Loc → Val) → Data} {set : In → Data} {out : Data → Out}
    (copyIn : ∀ r x f F f' F', C.copyInImpl r x f F = (f', F') → F'.flight = F.flight ∧ data f' F'.mem = set x)
    (start : ∀ r f F f' F', C.startImpl r f F = (f', F') →
      F'.flight = F.flight ∧ data f' F'.mem = data f F.mem)
    (trigger : ∀ r f F done f' F', C.triggerProgressImpl r f F = (done, f', F') →
      F'.flight = F.flight ∧ data f' F'.mem = data f F.mem)
    (copyOut : ∀ r f F, C.copyOutImpl r f F = out (data f F.mem)) (h : C.Reach input m guard s) (r : Rank) :
    Kept data set out (input r) (s.node r) s.fabric := by
  refine Reach.invariant (P := fun s => Kept data set out (input r) (s.node r) s.fabric)
    ⟨fun _ => rfl, by simp [Node.Active, initial], by simp [initial]⟩ (fun s a t hs _ ha => ?_) h
  have hquiet : ∀ {F : Fabric Port Loc Val}, F.flight = s.fabric.flight → F.Delivered := fun hF p => by
    rw [hF]; exact hs.quiet p
  cases ha with
  | @waitForSetup q hst =>
    obtain rfl := Subsingleton.elim q r
    rw [setNode_self]
    exact ⟨hs.quiet, by simp [Node.Active], hs.outputs⟩
  | @copyIn q f F hst hc =>
    obtain rfl := Subsingleton.elim q r
    obtain ⟨hF, hdata⟩ := copyIn _ _ _ _ _ _ hc
    rw [setNode_self]
    exact ⟨hquiet hF, fun _ => hdata, hs.outputs⟩
  | @start q f F hst hc =>
    obtain rfl := Subsingleton.elim q r
    obtain ⟨hF, hdata⟩ := start _ _ _ _ _ hc
    rw [setNode_self]
    exact ⟨hquiet hF, fun _ => hdata.trans (hs.data (.inl hst)), hs.outputs⟩
  | @trigger q done f F hst hc =>
    obtain rfl := Subsingleton.elim q r
    obtain ⟨hF, hdata⟩ := trigger _ _ _ _ _ _ hc
    rw [setNode_self]
    exact ⟨hquiet hF, fun _ => hdata.trans (hs.data (.inr (.inl hst))), hs.outputs⟩
  | idle hst => exact hs
  | @copyOut q hst =>
    obtain rfl := Subsingleton.elim q r
    rw [setNode_self]
    refine ⟨hs.quiet, by simp [Node.Active], fun k o hk => ?_⟩
    obtain hk | ⟨rfl, rfl⟩ := Node.getElem?_append_outputs hk
    · exact hs.outputs k o hk
    · rw [copyOut, hs.data (.inr (.inr hst))]
  | @network p i F hF => simp [Fabric.advance, hs.quiet p] at hF

end Collective

end GaspiCxx.Collectives
