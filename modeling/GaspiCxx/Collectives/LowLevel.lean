import GaspiCxx.OneSided.Fabric
import GaspiCxx.OneSided.Runs

/-!
# The life cycle of a non-blocking collective (`CollectiveLowLevel`)

A `Collective` is the set of virtual functions an algorithm implements; its
public calls are guarded by the life-cycle state. A call in the wrong state
throws `logic_error` and has no effect: it is no step of the system (`none`).
`triggerProgress` may be called in any state.

`Sys` is the whole group: every rank's object, with the vectors it has copied
out so far, and the fabric between them. The ranks' calls and the network's
steps interleave arbitrarily; in its `k`-th run rank `r` copies in `input r k`.
-/

namespace GaspiCxx.Collectives

open OneSided

inductive State where
  | uninitialized | initialized | ready | running | finished
  deriving DecidableEq, Repr

/-- The algorithm behind the life cycle: its buffers and its hooks. -/
structure Collective (Rank Port Loc Val Fields In Out : Type) where
  wiring : Wiring Port Loc
  /-- The member variables after construction. -/
  construct : Rank → Fields
  copyInImpl : Rank → In → Fields → Fabric Port Loc Val → Fields × Fabric Port Loc Val
  startImpl : Rank → Fields → Fabric Port Loc Val → Fields × Fabric Port Loc Val
  triggerProgressImpl : Rank → Fields → Fabric Port Loc Val → Bool × Fields × Fabric Port Loc Val
  copyOutImpl : Rank → Fields → Fabric Port Loc Val → Out

/-- One rank's object and the outputs of its completed runs. -/
structure Node (Fields Out : Type) where
  state : State
  fields : Fields
  outputs : List Out

/-- The number of completed runs, the index of the current one. -/
def Node.run {Fields Out : Type} (N : Node Fields Out) : Nat := N.outputs.length

/-- An output is an earlier one or the one just copied out. -/
theorem Node.getElem?_append_outputs {Fields Out : Type} {N : Node Fields Out} {out : Out} {k : Nat}
    {o : Out} (h : (N.outputs ++ [out])[k]? = some o) : N.outputs[k]? = some o ∨ k = N.run ∧ o = out := by
  rw [List.getElem?_append] at h
  split at h
  · exact .inl h
  · have := (List.getElem?_eq_some_iff.mp h).1
    simp only [List.length_singleton] at this
    obtain rfl : k = N.run := by simp only [Node.run]; omega
    simp only [Node.run, Nat.sub_self, List.getElem?_cons_zero, Option.some.injEq] at h
    exact .inr ⟨rfl, h.symm⟩

structure Sys (Rank Port Loc Val Fields Out : Type) where
  node : Rank → Node Fields Out
  fabric : Fabric Port Loc Val

inductive Call where
  | waitForSetup | copyIn | start | triggerProgress | copyOut
  deriving DecidableEq, Repr

inductive Action (Rank Port : Type) where
  | call (r : Rank) (c : Call)
  | advance (p : Port) (i : Nat)
  deriving DecidableEq, Repr

variable {Rank Port Loc Val Fields In Out : Type}

namespace Collective

section

variable [DecidableEq Rank]

/-- States of the group in which rank `r`'s object is replaced. -/
abbrev setNode (s : Sys Rank Port Loc Val Fields Out) (r : Rank) (N : Node Fields Out)
    (F : Fabric Port Loc Val) : Sys Rank Port Loc Val Fields Out :=
  { node := Function.update s.node r N, fabric := F }

theorem setNode_self (s : Sys Rank Port Loc Val Fields Out) (r : Rank) (N : Node Fields Out)
    (F : Fabric Port Loc Val) : (setNode s r N F).node r = N :=
  Function.update_self r N s.node

theorem setNode_of_ne (s : Sys Rank Port Loc Val Fields Out) {r q : Rank} (h : q ≠ r)
    (N : Node Fields Out) (F : Fabric Port Loc Val) : (setNode s r N F).node q = s.node q :=
  Function.update_of_ne h N s.node

theorem run_le_setNode {s : Sys Rank Port Loc Val Fields Out} {r : Rank} {N : Node Fields Out}
    {F : Fabric Port Loc Val} (h : (s.node r).run ≤ N.run) (q : Rank) :
    (s.node q).run ≤ ((setNode s r N F).node q).run := by
  by_cases hq : q = r
  · subst hq; rwa [setNode_self]
  · exact Nat.le_of_eq (by rw [setNode_of_ne s hq])

theorem setNode_same (s : Sys Rank Port Loc Val Fields Out) (r : Rank) :
    setNode s r (s.node r) s.fabric = s := by
  simp [setNode]

end

variable (C : Collective Rank Port Loc Val Fields In Out) (input : Rank → Nat → In)

/-- A public call on rank `r`'s object; `none` where it throws. -/
def call (r : Rank) (N : Node Fields Out) (F : Fabric Port Loc Val) :
    Call → Option (Node Fields Out × Fabric Port Loc Val)
  | .waitForSetup =>
    if N.state = .uninitialized then some ({ N with state := .initialized }, F) else none
  | .copyIn =>
    if N.state = .initialized then
      let (f, F) := C.copyInImpl r (input r N.run) N.fields F
      some ({ N with state := .ready, fields := f }, F)
    else none
  | .start =>
    if N.state = .ready then
      let (f, F) := C.startImpl r N.fields F
      some ({ N with state := .running, fields := f }, F)
    else none
  | .triggerProgress =>
    if N.state = .running then
      let (done, f, F) := C.triggerProgressImpl r N.fields F
      some ({ N with state := if done then .finished else .running, fields := f }, F)
    else some (N, F)
  | .copyOut =>
    if N.state = .finished then
      some ({ N with
        state := .initialized
        outputs := N.outputs ++ [C.copyOutImpl r N.fields F] }, F)
    else none

variable [DecidableEq Rank] [DecidableEq Port] [DecidableEq Loc]

def step (s : Sys Rank Port Loc Val Fields Out) :
    Action Rank Port → Option (Sys Rank Port Loc Val Fields Out)
  | .call r c => (C.call input r (s.node r) s.fabric c).map fun (N, F) =>
      { node := Function.update s.node r N, fabric := F }
  | .advance p i => (s.fabric.advance C.wiring p i).map fun F => { s with fabric := F }

/-- All objects constructed, nothing communicated; buffers hold anything. -/
def initial (m : Loc → Val) : Sys Rank Port Loc Val Fields Out where
  node r := { state := .uninitialized, fields := C.construct r, outputs := [] }
  fabric := Fabric.quiet m

/-- States reachable by calls and network steps that meet `guard`. -/
abbrev Reach (m : Loc → Val)
    (guard : Sys Rank Port Loc Val Fields Out → Action Rank Port → Prop) :
    Sys Rank Port Loc Val Fields Out → Prop :=
  Reaches (C.step input) guard (C.initial m)

variable {C input}

end Collective

/-! ## What each call does -/

namespace Collective

variable {C : Collective Rank Port Loc Val Fields In Out} {input : Rank → Nat → In} {r : Rank}
  {N N' : Node Fields Out} {F F' : Fabric Port Loc Val}

theorem call_waitForSetup (h : C.call input r N F .waitForSetup = some (N', F')) :
    N.state = .uninitialized ∧ N' = { N with state := .initialized } ∧ F' = F := by
  simp only [call] at h
  split at h
  · cases h; exact ⟨‹_›, rfl, rfl⟩
  · cases h

theorem call_copyIn (h : C.call input r N F .copyIn = some (N', F')) :
    N.state = .initialized ∧ F' = (C.copyInImpl r (input r N.run) N.fields F).2 ∧
      N' = { N with state := .ready, fields := (C.copyInImpl r (input r N.run) N.fields F).1 } := by
  simp only [call] at h
  split at h
  · cases h; exact ⟨‹_›, rfl, rfl⟩
  · cases h

theorem call_start (h : C.call input r N F .start = some (N', F')) :
    N.state = .ready ∧ F' = (C.startImpl r N.fields F).2 ∧
      N' = { N with state := .running, fields := (C.startImpl r N.fields F).1 } := by
  simp only [call] at h
  split at h
  · cases h; exact ⟨‹_›, rfl, rfl⟩
  · cases h

theorem call_triggerProgress (h : C.call input r N F .triggerProgress = some (N', F')) :
    (N.state ≠ .running ∧ N' = N ∧ F' = F) ∨
    (N.state = .running ∧ ∃ done f, C.triggerProgressImpl r N.fields F = (done, f, F') ∧
      N' = { N with state := if done then .finished else .running, fields := f }) := by
  simp only [call] at h
  split at h
  · cases h; exact .inr ⟨‹_›, _, _, rfl, rfl⟩
  · cases h; exact .inl ⟨‹_›, rfl, rfl⟩

theorem call_copyOut (h : C.call input r N F .copyOut = some (N', F')) :
    N.state = .finished ∧ F' = F ∧
      N' = { N with state := .initialized, outputs := N.outputs ++ [C.copyOutImpl r N.fields F] } := by
  simp only [call] at h
  split at h
  · cases h; exact ⟨‹_›, rfl, rfl⟩
  · cases h

section

variable [DecidableEq Rank] [DecidableEq Port] [DecidableEq Loc]

variable (C input) in
/-- Everything a step of the group can be. -/
inductive Stepped (s : Sys Rank Port Loc Val Fields Out) :
    Action Rank Port → Sys Rank Port Loc Val Fields Out → Prop where
  | waitForSetup {q} (hs : (s.node q).state = .uninitialized) :
    Stepped s (.call q .waitForSetup) (setNode s q { s.node q with state := .initialized } s.fabric)
  | copyIn {q f G} (hs : (s.node q).state = .initialized)
    (hc : C.copyInImpl q (input q (s.node q).run) (s.node q).fields s.fabric = (f, G)) :
    Stepped s (.call q .copyIn) (setNode s q { s.node q with state := .ready, fields := f } G)
  | start {q f G} (hs : (s.node q).state = .ready)
    (hc : C.startImpl q (s.node q).fields s.fabric = (f, G)) :
    Stepped s (.call q .start) (setNode s q { s.node q with state := .running, fields := f } G)
  | trigger {q done f G} (hs : (s.node q).state = .running)
    (hc : C.triggerProgressImpl q (s.node q).fields s.fabric = (done, f, G)) :
    Stepped s (.call q .triggerProgress)
      (setNode s q { s.node q with state := if done then .finished else .running, fields := f } G)
  /-- `triggerProgress` outside a run. -/
  | idle {q} (hs : (s.node q).state ≠ .running) : Stepped s (.call q .triggerProgress) s
  | copyOut {q} (hs : (s.node q).state = .finished) :
    Stepped s (.call q .copyOut) (setNode s q { s.node q with
      state := .initialized
      outputs := (s.node q).outputs ++ [C.copyOutImpl q (s.node q).fields s.fabric] } s.fabric)
  | network {p i G} (hG : s.fabric.advance C.wiring p i = some G) :
    Stepped s (.advance p i) { s with fabric := G }

theorem stepped {s t : Sys Rank Port Loc Val Fields Out} {a : Action Rank Port}
    (h : C.step input s a = some t) : Stepped C input s a t := by
  cases a with
  | call r c =>
    obtain ⟨⟨N, F⟩, hc, rfl⟩ := Option.map_eq_some_iff.mp h
    cases c with
    | waitForSetup => obtain ⟨hst, rfl, rfl⟩ := call_waitForSetup hc; exact .waitForSetup hst
    | copyIn => obtain ⟨hst, rfl, rfl⟩ := call_copyIn hc; exact .copyIn hst rfl
    | start => obtain ⟨hst, rfl, rfl⟩ := call_start hc; exact .start hst rfl
    | triggerProgress =>
      rcases call_triggerProgress hc with ⟨hst, rfl, rfl⟩ | ⟨hst, done, f, ht, rfl⟩
      · show Stepped C input s _ (setNode s r (s.node r) s.fabric)
        rw [setNode_same]
        exact .idle hst
      · exact .trigger hst ht
    | copyOut => obtain ⟨hst, rfl, rfl⟩ := call_copyOut hc; exact .copyOut hst
  | advance p i =>
    obtain ⟨F, hF, rfl⟩ := Option.map_eq_some_iff.mp h
    exact .network hF

/-- **The invariant rule**: an invariant has to survive everything a step can be. -/
theorem Reach.invariant {m : Loc → Val}
    {guard : Sys Rank Port Loc Val Fields Out → Action Rank Port → Prop}
    {P : Sys Rank Port Loc Val Fields Out → Prop} (initial : P (C.initial m))
    (next : ∀ s a t, P s → guard s a → Stepped C input s a t → P t)
    {s : Sys Rank Port Loc Val Fields Out} (h : C.Reach input m guard s) : P s :=
  Reaches.invariant h initial fun s a t hs hg ha => next s a t hs hg (stepped ha)

end

end Collective

/-! ## One run -/

/-- Every rank executes one run. -/
def FirstRun (s : Sys Rank Port Loc Val Fields Out) : Action Rank Port → Prop
  | .call r _ => (s.node r).run = 0
  | .advance _ _ => True

instance (s : Sys Rank Port Loc Val Fields Out) : DecidablePred (FirstRun s)
  | .call r _ => inferInstanceAs (Decidable ((s.node r).run = 0))
  | .advance _ _ => inferInstanceAs (Decidable True)

/-- The first run is not over. -/
def Unfinished (N : Node Fields Out) : Prop := N.run = 0 ∧ N.state ≠ .finished

/-- The object has called `start` for run `k`. -/
def Started (k : Nat) (N : Node Fields Out) : Prop :=
  k < N.run ∨ k = N.run ∧ (N.state = .running ∨ N.state = .finished)

/-- `triggerProgress` has returned true for run `k`. -/
def Completed (k : Nat) (N : Node Fields Out) : Prop := k < N.run ∨ k = N.run ∧ N.state = .finished

/-- The call that is due in each state. -/
def State.due : State → Call
  | .uninitialized => .waitForSetup
  | .initialized => .copyIn
  | .ready => .start
  | .running => .triggerProgress
  | .finished => .copyOut

namespace Collective

variable [DecidableEq Rank] [DecidableEq Port] [DecidableEq Loc]
  (C : Collective Rank Port Loc Val Fields In Out) (input : Rank → Nat → In)

/-- The call that is due on rank `r` changes its state. -/
def Proceeds (s : Sys Rank Port Loc Val Fields Out) (r : Rank) : Prop :=
  ∃ t, C.step input s (.call r (s.node r).state.due) = some t ∧ t.node r ≠ s.node r

variable {C input} {s : Sys Rank Port Loc Val Fields Out} {r : Rank}

/-- Outside `triggerProgress` no call waits. -/
theorem proceeds_of_not_running (hs : (s.node r).state ≠ .running) : C.Proceeds input s r := by
  have key : ∀ N F, C.call input r (s.node r) s.fabric (s.node r).state.due = some (N, F) →
      N.state ≠ (s.node r).state → C.Proceeds input s r := by
    intro N F hc hN
    refine ⟨setNode s r N F, ?_, fun he => hN ?_⟩
    · rw [step, hc]
      rfl
    · rw [← he, setNode_self]
  cases hst : (s.node r).state with
  | running => exact absurd hst hs
  | uninitialized => exact key _ _ (by simp only [hst, State.due, call, if_true]; rfl) (by simp [hst])
  | initialized => exact key _ _ (by simp only [hst, State.due, call, if_true]; rfl) (by simp [hst])
  | ready => exact key _ _ (by simp only [hst, State.due, call, if_true]; rfl) (by simp [hst])
  | finished => exact key _ _ (by simp only [hst, State.due, call, if_true]; rfl) (by simp [hst])

theorem proceeds_of_trigger (hs : (s.node r).state = .running) {done : Bool} {f : Fields}
    {F : Fabric Port Loc Val} (ht : C.triggerProgressImpl r (s.node r).fields s.fabric = (done, f, F))
    (hne : done = true ∨ f ≠ (s.node r).fields) : C.Proceeds input s r := by
  refine ⟨setNode s r { s.node r with state := if done then .finished else .running, fields := f } F, ?_,
    fun he => ?_⟩
  · rw [hs, State.due, step, call, if_pos hs, ht]
    rfl
  · rw [setNode_self] at he
    rcases hne with rfl | hne
    · have := congrArg Node.state he
      simp [hs] at this
    · exact hne (congrArg Node.fields he)

/-- What every call on an object keeps holds of all objects. -/
theorem Reach.forall_node {m : Loc → Val} {guard : Sys Rank Port Loc Val Fields Out → Action Rank Port → Prop}
    {P : Rank → Node Fields Out → Prop} (h : C.Reach input m guard s)
    (initial : ∀ r, P r ((C.initial m).node r))
    (next : ∀ s r c N F, P r (s.node r) → guard s (.call r c) →
      C.call input r (s.node r) s.fabric c = some (N, F) → P r N) : ∀ r, P r (s.node r) := by
  refine Reaches.invariant (P := fun s => ∀ r, P r (s.node r)) h initial fun s a t hs hg ha q => ?_
  cases a with
  | call r c =>
    obtain ⟨⟨N, F⟩, hc, rfl⟩ := Option.map_eq_some_iff.mp ha
    show P q ((setNode s r N F).node q)
    by_cases hq : q = r
    · subst hq
      rw [setNode_self]
      exact next s q c N F (hs q) hg hc
    · rw [setNode_of_ne s hq]
      exact hs q
  | advance p i =>
    obtain ⟨F, -, rfl⟩ := Option.map_eq_some_iff.mp ha
    exact hs q

/-- In its one run a rank either has not copied out or is back in the initial
state for good. -/
theorem Reach.first_run {m : Loc → Val} (h : C.Reach input m FirstRun s) :
    ∀ r, (s.node r).run = 0 ∨ (s.node r).run = 1 ∧ (s.node r).state = .initialized := by
  refine h.forall_node (P := fun _ N => N.run = 0 ∨ N.run = 1 ∧ N.state = .initialized)
    (fun _ => .inl rfl) fun s r c N F _ hg hc => ?_
  have h0 : (s.node r).run = 0 := hg
  cases c with
  | waitForSetup => obtain ⟨-, rfl, -⟩ := call_waitForSetup hc; exact .inl h0
  | copyIn => obtain ⟨-, -, rfl⟩ := call_copyIn hc; exact .inl h0
  | start => obtain ⟨-, -, rfl⟩ := call_start hc; exact .inl h0
  | triggerProgress =>
    rcases call_triggerProgress hc with ⟨-, rfl, -⟩ | ⟨-, done, f, -, rfl⟩
    · exact .inl h0
    · exact .inl h0
  | copyOut =>
    obtain ⟨-, -, rfl⟩ := call_copyOut hc
    exact .inr ⟨by simpa [Node.run] using h0, rfl⟩

/-- Who is finished is still in its one run. -/
theorem Reach.run_of_finished {m : Loc → Val} (h : C.Reach input m FirstRun s)
    (hs : (s.node r).state = .finished) : (s.node r).run = 0 := by
  rcases h.first_run r with h0 | ⟨-, h1⟩
  · exact h0
  · rw [hs] at h1; cases h1

/-- What a rank has copied out is the output of its one run. -/
theorem Reach.getElem?_of_mem_outputs {m : Loc → Val} (h : C.Reach input m FirstRun s) {out : Out}
    (hout : out ∈ (s.node r).outputs) : (s.node r).outputs[0]? = some out := by
  obtain ⟨k, hk⟩ := List.getElem?_of_mem hout
  have hlt := (List.getElem?_eq_some_iff.mp hk).1
  obtain rfl : k = 0 := by
    rcases h.first_run r with h0 | ⟨h1, -⟩ <;> simp only [Node.run] at * <;> omega
  exact hk

/-- Every output has been copied out of some state. -/
theorem Reach.exists_copyOut {m : Loc → Val}
    {guard : Sys Rank Port Loc Val Fields Out → Action Rank Port → Prop} (h : C.Reach input m guard s) :
    ∀ r, ∀ out ∈ (s.node r).outputs, ∃ f F, out = C.copyOutImpl r f F := by
  refine h.forall_node (P := fun r N => ∀ out ∈ N.outputs, ∃ f F, out = C.copyOutImpl r f F)
    (fun _ _ ho => absurd ho List.not_mem_nil) fun s r c N F hs _ hc => ?_
  cases c with
  | waitForSetup => obtain ⟨-, rfl, -⟩ := call_waitForSetup hc; exact hs
  | copyIn => obtain ⟨-, -, rfl⟩ := call_copyIn hc; exact hs
  | start => obtain ⟨-, -, rfl⟩ := call_start hc; exact hs
  | triggerProgress =>
    rcases call_triggerProgress hc with ⟨-, rfl, -⟩ | ⟨-, done, f, -, rfl⟩
    · exact hs
    · exact hs
  | copyOut =>
    obtain ⟨-, -, rfl⟩ := call_copyOut hc
    intro out ho
    rcases List.mem_append.mp ho with ho | ho
    · exact hs out ho
    · exact ⟨_, _, List.mem_singleton.mp ho⟩

/-- A collective that communicates nothing leaves the network quiet. -/
theorem Reach.quiet {m : Loc → Val} {guard : Sys Rank Port Loc Val Fields Out → Action Rank Port → Prop}
    (h : C.Reach input m guard s) (copyIn : ∀ r x f F, (C.copyInImpl r x f F).2 = F)
    (start : ∀ r f F, (C.startImpl r f F).2 = F) (trigger : ∀ r f F, (C.triggerProgressImpl r f F).2.2 = F) :
    s.fabric = Fabric.quiet m := by
  refine Reach.invariant (P := fun s => s.fabric = Fabric.quiet m) rfl (fun s a t hs _ ha => ?_) h
  cases ha with
  | waitForSetup | idle | copyOut => exact hs
  | copyIn _ hc => exact ((congrArg Prod.snd hc).symm.trans (copyIn _ _ _ _)).trans hs
  | start _ hc => exact ((congrArg Prod.snd hc).symm.trans (start _ _ _)).trans hs
  | trigger _ hc => exact ((congrArg (fun x => x.2.2) hc).symm.trans (trigger _ _ _)).trans hs
  | network hG =>
    rw [hs] at hG
    cases hG

end Collective

end GaspiCxx.Collectives
