import GaspiCxx.Collectives.Separated
import GaspiCxx.Collectives.Wrappers
import GaspiCxx.Runs.Refinement

/-!
# A deployed collective

A group as it runs: on every rank one user thread calls the wrapper's `start`
and `waitForCompletion` in turn, the engine's threads call `triggerProgress`,
and one network moves the operations of all ranks. Every locked section, every
unlocked read and every phase of an operation in flight is a step of its own.

A hook that runs in a step acts on the rank's object and on the network, and
`triggerProgressImpl` answers what the algorithm answers there. Two views of
such a run are runs of simpler systems:

* `Deployed.sys` forgets the threads: what is left is a run of the algorithm
  under the sequential life cycle (`Collective.step`);
* `Deployed.wrapped r` forgets the other ranks, the data and the network: what
  is left is a run of one wrapper (`Wrappers.Step`).
-/

namespace GaspiCxx.Collectives.Deployment

open OneSided Runs
open Threads (Hook Pc Shared lifeCycle)
open Wrappers (Wrapped Wrapper Turn Phase Allows)

/-- What the hooks of one rank work on, with the vectors copied out so far. -/
structure Object (Fields Out : Type) where
  fields : Fields
  outputs : List Out

structure Deployed (Rank Thread Port Loc Val Fields Out : Type) where
  wrapped : Rank → Wrapped Thread
  object : Rank → Object Fields Out
  fabric : Fabric Port Loc Val

inductive Label (Rank Thread Port : Type) where
  | rank (r : Rank) (l : Wrappers.Label Thread)
  | network (p : Port) (i : Nat)

variable {Rank Thread Port Loc Val Fields In Out : Type}

section

variable (C : Collective Rank Port Loc Val Fields In Out) (input : Rank → Nat → In)

/-- A hook on rank `r`'s object; `none` where `triggerProgressImpl` answers
something else. The `k`-th run copies in `input r k`. -/
def runHook (r : Rank) (o : Object Fields Out) (F : Fabric Port Loc Val) :
    Hook → Option (Object Fields Out × Fabric Port Loc Val)
  | .waitForSetupImpl => some (o, F)
  | .copyInImpl =>
    let (f, F) := C.copyInImpl r (input r o.outputs.length) o.fields F
    some ({ o with fields := f }, F)
  | .startImpl =>
    let (f, F) := C.startImpl r o.fields F
    some ({ o with fields := f }, F)
  | .triggerProgressImpl isCompleted =>
    let (done, f, F) := C.triggerProgressImpl r o.fields F
    if done = isCompleted then some ({ o with fields := f }, F) else none
  | .copyOutImpl => some ({ o with outputs := o.outputs ++ [C.copyOutImpl r o.fields F] }, F)

def runHooks (r : Rank) (o : Object Fields Out) (F : Fabric Port Loc Val) (hooks : List Hook) :
    Option (Object Fields Out × Fabric Port Loc Val) :=
  hooks.foldlM (fun x hook => runHook C input r x.1 x.2 hook) (o, F)

/-- All ranks in the wrapper's constructor. -/
def Deployed.constructed (m : Loc → Val) : Deployed Rank Thread Port Loc Val Fields Out where
  wrapped _ := .constructed
  object r := { fields := C.construct r, outputs := [] }
  fabric := Fabric.quiet m

variable [DecidableEq Rank] [DecidableEq Thread] [DecidableEq Port] [DecidableEq Loc]

inductive Step (user : Thread) (w : Rank → Wrapper Rank) : Deployed Rank Thread Port Loc Val Fields Out →
    Label Rank Thread Port → Deployed Rank Thread Port Loc Val Fields Out → Prop where
  | rank (s : Deployed Rank Thread Port Loc Val Fields Out) {r : Rank} {l : Wrappers.Label Thread}
      {W : Wrapped Thread} {o : Object Fields Out} {F : Fabric Port Loc Val}
      (hs : Wrappers.Step user (w r) (s.wrapped r) l W)
      (ran : runHooks C input r (s.object r) s.fabric l.hooks = some (o, F)) :
      Step user w s (.rank r l)
        { wrapped := Function.update s.wrapped r W, object := Function.update s.object r o, fabric := F }
  | network (s : Deployed Rank Thread Port Loc Val Fields Out) {p : Port} {i : Nat} {F : Fabric Port Loc Val}
      (hF : s.fabric.advance C.wiring p i = some F) :
      Step user w s (.network p i) { s with fabric := F }

end

/-! ## Without the threads -/

/-- The group as the sequential life cycle has it. -/
def Deployed.sys (s : Deployed Rank Thread Port Loc Val Fields Out) : Sys Rank Port Loc Val Fields Out where
  node r :=
    { state := (s.wrapped r).shared.state
      fields := (s.object r).fields
      outputs := (s.object r).outputs }
  fabric := s.fabric

/-- The public call that runs the hook. -/
def callOf : Hook → Call
  | .waitForSetupImpl => .waitForSetup
  | .copyInImpl => .copyIn
  | .startImpl => .start
  | .triggerProgressImpl _ => .triggerProgress
  | .copyOutImpl => .copyOut

/-- A step that runs no hook is invisible. -/
def Label.actions : Label Rank Thread Port → List (Action Rank Port)
  | .rank r l => l.hooks.map fun hook => .call r (callOf hook)
  | .network p i => [.advance p i]

variable {C : Collective Rank Port Loc Val Fields In Out} {input : Rank → Nat → In}

/-- A hook that the life cycle allows is what the call does. -/
theorem call_of_runHook {r : Rank} {o o' : Object Fields Out} {F F' : Fabric Port Loc Val} {hook : Hook}
    {a b : State} (hnext : Allows a hook b) (hrun : runHook C input r o F hook = some (o', F')) :
    C.call input r { state := a, fields := o.fields, outputs := o.outputs } F (callOf hook) =
      some ({ state := b, fields := o'.fields, outputs := o'.outputs }, F') := by
  obtain ⟨rfl, rfl, rfl⟩ | ⟨rfl, rfl, rfl⟩ | ⟨rfl, rfl, rfl⟩ | ⟨rfl, rfl, rfl⟩ | ⟨rfl, rfl, rfl⟩ |
    ⟨rfl, rfl, rfl⟩ := Threads.lifeCycle_cases hnext
  · cases hrun; rfl
  · cases hrun; rfl
  · cases hrun; rfl
  · simp only [runHook] at hrun
    split at hrun
    · next hdone =>
      cases hrun
      simp only [callOf, Collective.call, if_true, hdone, Bool.false_eq_true, if_false]
    · cases hrun
  · simp only [runHook] at hrun
    split at hrun
    · next hdone =>
      cases hrun
      simp only [callOf, Collective.call, if_true, hdone]
    · cases hrun
  · cases hrun; rfl

section

variable [DecidableEq Rank] [DecidableEq Thread] [DecidableEq Port] [DecidableEq Loc]
  {user : Thread} {w : Rank → Wrapper Rank} {s t : Deployed Rank Thread Port Loc Val Fields Out}
  {l : Label Rank Thread Port} {ls : List (Label Rank Thread Port)} {m : Loc → Val}

omit [DecidableEq Thread] [DecidableEq Port] [DecidableEq Loc] in
theorem sys_update (s : Deployed Rank Thread Port Loc Val Fields Out) (r : Rank) (W : Wrapped Thread)
    (o : Object Fields Out) (F : Fabric Port Loc Val) :
    Deployed.sys
      { wrapped := Function.update s.wrapped r W, object := Function.update s.object r o, fabric := F } =
      Collective.setNode s.sys r { state := W.shared.state, fields := o.fields, outputs := o.outputs } F := by
  unfold Deployed.sys Collective.setNode
  congr 1
  funext q
  by_cases hq : q = r
  · subst hq; simp only [Function.update_self]
  · simp only [Function.update_of_ne hq]

/-- The calls and the network's steps of the sequential life cycle. -/
def Sequential (C : Collective Rank Port Loc Val Fields In Out) (input : Rank → Nat → In)
    (s : Sys Rank Port Loc Val Fields Out) (a : Action Rank Port) (t : Sys Rank Port Loc Val Fields Out) : Prop :=
  C.step input s a = some t

/-- A step is invisible, or it is one call or one step of the network. -/
theorem Step.actions (hs : Step C input user w s l t) :
    l.actions = [] ∧ t.sys = s.sys ∨ ∃ a, l.actions = [a] ∧ Sequential C input s.sys a t.sys := by
  cases hs with
  | @rank r l W o F hs ran =>
    rw [sys_update]
    obtain ⟨hh, he⟩ | ⟨hook, hh, hnext⟩ := hs.hooks
    · -- no hook: the object and the state are what they were
      rw [hh] at ran
      cases ran
      rw [Label.actions, hh, he]
      exact .inl ⟨rfl, Collective.setNode_same s.sys r⟩
    · rw [Label.actions, hh]
      rw [hh] at ran
      have hrun : runHook C input r (s.object r) s.fabric hook = some (o, F) := by
        simpa [runHooks] using ran
      have hcall := congrArg (Option.map fun x => Collective.setNode s.sys r x.1 x.2) (call_of_runHook hnext hrun)
      exact .inr ⟨_, rfl, hcall⟩
  | network hF =>
    have hadvance := congrArg (Option.map fun F => Sys.mk s.sys.node F) hF
    exact .inr ⟨_, rfl, hadvance⟩

/-- **Without its threads a deployed collective is the algorithm under the
sequential life cycle**: a locked section that runs a hook is the public call,
every other step of a thread is invisible. -/
theorem refines_sequential : Refines (Step C input user w) (Sequential C input) Deployed.sys Label.actions := by
  intro s l t hs
  obtain ⟨hl, he⟩ | ⟨a, hl, ha⟩ := hs.actions
  · rw [hl, he]; exact .refl _
  · rw [hl]; exact .single ha

/-- What the deployed group has computed, the sequential group can compute. -/
theorem reach (h : Trace (Step C input user w) (.constructed C m) ls s) :
    C.Reach input m (fun _ _ => True) s.sys := by
  refine h.invariant (P := fun s : Deployed Rank Thread Port Loc Val Fields Out =>
    C.Reach input m (fun _ _ => True) s.sys) Relation.ReflTransGen.refl ?_
  intro s l t hr hs
  obtain ⟨-, he⟩ | ⟨a, -, ha⟩ := hs.actions
  · rw [he]; exact hr
  · exact hr.next trivial ha

/-! ## One rank -/

/-- The steps that rank `r`'s threads take. -/
def Label.localSteps (r : Rank) : Label Rank Thread Port → List (Wrappers.Label Thread)
  | .rank q l => if q = r then [l] else []
  | .network _ _ => []

theorem refines_wrapper (r : Rank) :
    Refines (Step C input user w) (Wrappers.Step user (w r)) (fun s => s.wrapped r) (Label.localSteps r) := by
  intro s l t hs
  cases hs with
  | @rank q l W o F hs ran =>
    by_cases hq : q = r
    · subst hq
      rw [Label.localSteps, if_pos rfl]
      simpa only [Function.update_self] using Trace.single hs
    · rw [Label.localSteps, if_neg hq]
      simp only [Function.update_of_ne (Ne.symm hq)]
      exact .refl _
  | network hF => exact .refl _

theorem phase (h : Trace (Step C input user w) (.constructed C m) ls s) (r : Rank) :
    (s.wrapped r).Phase user :=
  Wrappers.run_phase ((refines_wrapper r).trace h)

/-- Nothing is thrown but a refused overload of `start`. -/
theorem throws (h : Trace (Step C input user w) (.constructed C m) ls s) {r : Rank}
    {k : Wrappers.Label Thread} (hk : .rank r k ∈ ls) {what : String} (ht : k.throws = some what) :
    ∃ overload, k = .start overload ∧ (w r).Refuses overload := by
  obtain ⟨before, after, rfl⟩ := List.append_of_mem hk
  obtain ⟨s, t, hbefore, hs, -⟩ := h.split_cons
  cases hs with
  | rank hs _ => exact hs.refuses (phase hbefore r) ht

/-- A wrapper without a root refuses nothing. -/
theorem throws_none (h : Trace (Step C input user w) (.constructed C m) ls s) {r : Rank}
    (hw : ∀ rank root_rank, w r ≠ .broadcast rank root_rank) {k : Wrappers.Label Thread} (hk : .rank r k ∈ ls) :
    k.throws = none := by
  by_contra hne
  obtain ⟨what, ht⟩ := Option.ne_none_iff_exists'.mp hne
  obtain ⟨overload, -, rank, root_rank, he, -⟩ := throws h hk ht
  exact hw rank root_rank he

/-! ### Calls and results -/

/-- An accepted `start`. -/
def began : Wrappers.Label Thread → Bool
  | .start (.ok _) => true
  | _ => false

def waited : Wrappers.Label Thread → Bool
  | .waitForCompletion => true
  | _ => false

/-- `waitForCompletion` has yet to copy out. -/
def collecting (W : Wrapped Thread) : Nat := if .call .copyOut ∈ W.rest then 1 else 0

/-- The last `start` has not been waited for. -/
def due (W : Wrapped Thread) : Nat := if W.next = .waitForCompletion then 1 else 0

/-- How the rank's calls and the results it copied out keep up with each other. -/
structure Counts (ks : List (Wrappers.Label Thread)) (W : Wrapped Thread) (results : Nat) : Prop where
  waited : ks.countP waited = results + collecting W
  began : ks.countP began = results + collecting W + due W

omit [DecidableEq Rank] [DecidableEq Port] [DecidableEq Loc] in
/-- `triggerProgress` runs no hook but its own. -/
theorem not_copyOut_of_trigger {S S' : Shared Thread} {th : Thread} {returned : Bool} {ran : List Hook}
    (h : Threads.Step S (.triggerProgress th returned ran) S') : .copyOutImpl ∉ ran := by
  have hran : ∀ locked impl, ∀ a : State, .copyOutImpl ∉ (Threads.triggerProgress locked impl a).2.1 := by
    intro locked impl a
    obtain he | ⟨b, t, he, -⟩ := Threads.triggerProgress_cases locked impl a <;> rw [he] <;> simp
  generalize hl : Threads.Label.triggerProgress th returned ran = l at h
  cases h with
  | triggerProgress th' locked impl hpc =>
    injection hl with _ _ hr
    rw [hr]
    exact hran locked impl S.state
  | progress th' locked impl hpc =>
    injection hl with _ _ hr
    rw [hr]
    exact hran locked impl S.state
  | _ => cases hl

section

variable {v : Wrapper Rank} {W W' : Wrapped Thread} {k : Wrappers.Label Thread} {ks : List (Wrappers.Label Thread)}

/-- The result still to be copied out is copied out by the last call of the list. -/
theorem call_copies {turn : Turn} {c : Threads.Guarded} {rest : List Wrappers.Op} {pc : Pc} {a : State}
    (h : Phase turn (.call c :: rest) pc a) : ∃ hook, (c.run a).1 = .ok hook ∧
      (if .call .copyOut ∈ rest then 1 else 0) + [hook].count .copyOutImpl =
        if .call .copyOut ∈ Wrappers.Op.call c :: rest then 1 else 0 := by
  cases h with
  | constructing => exact ⟨.waitForSetupImpl, rfl, by decide⟩
  | copyIn => exact ⟨.copyInImpl, rfl, by decide⟩
  | start => exact ⟨.startImpl, rfl, by decide⟩
  | copyOut => exact ⟨.copyOutImpl, rfl, by decide⟩

omit [DecidableEq Thread] in
/-- A step within a call of the wrapper that runs no `copyOutImpl`. -/
theorem counts_within (hr : W'.rest = W.rest) (hn : W'.next = W.next) (hh : .copyOutImpl ∉ k.hooks)
    (hw : waited k = false) (hb : began k = false) :
    collecting W' + k.hooks.count .copyOutImpl = collecting W + (if waited k then 1 else 0) ∧
    due W' + (if waited k then 1 else 0) = due W + (if began k then 1 else 0) := by
  rw [List.count_eq_zero_of_not_mem hh, hw, hb]
  unfold collecting due
  rw [hr, hn]
  exact ⟨rfl, rfl⟩

omit [DecidableEq Port] [DecidableEq Loc] in
/-- What a step of a rank does to its counts. -/
theorem step_counts (hs : Wrappers.Step user v W k W') (h : W.Phase user) :
    collecting W' + k.hooks.count .copyOutImpl = collecting W + (if waited k then 1 else 0) ∧
    due W' + (if waited k then 1 else 0) = due W + (if began k then 1 else 0) := by
  cases hs with
  | engine hne hs => exact counts_within rfl rfl (not_copyOut_of_trigger hs) rfl rfl
  | start idle turn hmem =>
    obtain rfl | ⟨-, what, rfl⟩ := Wrapper.starts_cases hmem
    · simp [collecting, due, waited, began, Wrappers.Label.hooks, Wrapped.started, Wrappers.copyInAndStart, idle, turn]
    · exact counts_within rfl rfl List.not_mem_nil rfl rfl
  | waitForCompletion idle turn =>
    simp [collecting, due, waited, began, Wrappers.Label.hooks, v.waitForCompletion_eq, Wrappers.waitAndCopyOut, idle,
      turn]
  | call hrest hs =>
    unfold Wrapped.Phase at h
    rw [hrest] at h
    obtain ⟨hook, hok, hcount⟩ := call_copies h
    cases hs
    rw [hok]
    unfold collecting due
    rw [hrest]
    exact ⟨hcount, rfl⟩
  | enter hrest hs => exact counts_within rfl rfl List.not_mem_nil rfl rfl
  | again hrest hs => exact counts_within rfl rfl List.not_mem_nil rfl rfl
  | progress hrest body hs => exact counts_within rfl rfl (not_copyOut_of_trigger hs) rfl rfl
  | leave hrest hs =>
    refine ⟨?_, rfl⟩
    simp [collecting, waited, Wrappers.Label.hooks, Threads.Label.hooks, hrest]

/-- `results` are the vectors copied out so far. -/
theorem Counts.step {results results' : Nat} (hc : Counts ks W results) (hs : Wrappers.Step user v W k W')
    (h : W.Phase user) (hr : results' = results + k.hooks.count .copyOutImpl) :
    Counts (ks ++ [k]) W' results' := by
  obtain ⟨hcol, hdue⟩ := step_counts hs h
  have hw := hc.waited
  have hb := hc.began
  constructor
  · rw [List.countP_append, List.countP_singleton]
    omega
  · rw [List.countP_append, List.countP_singleton]
    omega

end

omit [DecidableEq Rank] [DecidableEq Port] [DecidableEq Loc] in
/-- Only `copyOutImpl` produces a result. -/
theorem length_outputs_of_run {r : Rank} {o o' : Object Fields Out} {F F' : Fabric Port Loc Val}
    {hooks : List Hook} (h : runHooks C input r o F hooks = some (o', F')) :
    o'.outputs.length = o.outputs.length + hooks.count .copyOutImpl := by
  unfold runHooks at h
  induction hooks generalizing o F with
  | nil => cases h; rfl
  | cons hook hooks ih =>
    rw [List.foldlM_cons] at h
    obtain ⟨⟨o₁, F₁⟩, hhook, hrest⟩ := Option.bind_eq_some_iff.mp h
    rw [ih hrest, List.count_cons]
    cases hook with
    | waitForSetupImpl => cases hhook; simp
    | copyInImpl => cases hhook; simp
    | startImpl => cases hhook; simp
    | triggerProgressImpl isCompleted =>
      simp only [runHook] at hhook
      split at hhook
      · cases hhook; simp
      · cases hhook
    | copyOutImpl => cases hhook; simp; omega

/-- In every run a rank has a result for each `waitForCompletion` that is over. -/
theorem counts (h : Trace (Step C input user w) (.constructed C m) ls s) (r : Rank) :
    Counts (ls.flatMap (Label.localSteps r)) (s.wrapped r) (s.object r).outputs.length := by
  refine (h.history
    (P := fun ls s => Trace (Step C input user w) (.constructed C m) ls s ∧
      Counts (ls.flatMap (Label.localSteps r)) (s.wrapped r) (s.object r).outputs.length)
    ⟨.refl _, ⟨rfl, rfl⟩⟩ ?_).2
  rintro ls s l t ⟨htr, hc⟩ hs
  refine ⟨htr.snoc hs, ?_⟩
  rw [List.flatMap_append, List.flatMap_singleton]
  cases hs with
  | @rank q k W o F hk ran =>
    by_cases hq : q = r
    · subst hq
      rw [Label.localSteps, if_pos rfl]
      simp only [Function.update_self]
      exact hc.step hk (phase htr q) (length_outputs_of_run ran)
    · rw [Label.localSteps, if_neg hq, List.append_nil]
      simpa only [Function.update_of_ne (Ne.symm hq)] using hc
  | network hF => rwa [Label.localSteps, List.append_nil]

/-- Outside its calls a user has one result for each `waitForCompletion`. -/
theorem length_outputs_of_idle (h : Trace (Step C input user w) (.constructed C m) ls s) {r : Rank}
    (hrest : (s.wrapped r).rest = []) :
    (s.object r).outputs.length = (ls.flatMap (Label.localSteps r)).countP waited := by
  rw [(counts h r).waited, collecting, hrest, if_neg List.not_mem_nil, Nat.add_zero]

/-! ### Separated runs -/

/-- Nothing is copied out before the set-up. -/
theorem outputs_of_uninitialized (h : Trace (Step C input user w) (.constructed C m) ls s) (r : Rank) :
    (s.wrapped r).shared.state = .uninitialized → (s.object r).outputs = [] := by
  refine (reach h).forall_node (P := fun _ N => N.state = .uninitialized → N.outputs = []) (fun _ _ => rfl)
    (fun s r c N F hs _ hc => ?_) r
  cases c with
  | waitForSetup => obtain ⟨-, rfl, -⟩ := Collective.call_waitForSetup hc; intro h; cases h
  | copyIn => obtain ⟨-, -, rfl⟩ := Collective.call_copyIn hc; intro h; cases h
  | start => obtain ⟨-, -, rfl⟩ := Collective.call_start hc; intro h; cases h
  | triggerProgress =>
    rcases Collective.call_triggerProgress hc with ⟨-, rfl, -⟩ | ⟨-, done, f, -, rfl⟩
    · exact hs
    · intro h; cases done <;> cases h
  | copyOut => obtain ⟨-, -, rfl⟩ := Collective.call_copyOut hc; intro h; cases h

/-- The runs the rank has begun and not brought to a result. -/
def pending (W : Wrapped Thread) : Nat := collecting W + due W

omit [DecidableEq Rank] [DecidableEq Thread] [DecidableEq Port] [DecidableEq Loc] in
/-- A rank has one run at a time, and between copying in and copying out it has one. -/
theorem pending_of_phase {W : Wrapped Thread} (h : W.Phase user) : pending W ≤ 1 ∧
    (W.shared.state = .ready ∨ W.shared.state = .running ∨ W.shared.state = .finished → pending W = 1) := by
  have hcount : ∀ {turn : Turn} {rest : List Wrappers.Op} {pc : Pc} {a : State}, Phase turn rest pc a →
      (if .call .copyOut ∈ rest then 1 else 0) + (if turn = .waitForCompletion then 1 else 0) ≤ 1 ∧
      (a = .ready ∨ a = .running ∨ a = .finished →
        (if .call .copyOut ∈ rest then 1 else 0) + (if turn = .waitForCompletion then 1 else 0) = 1) := by
    intro turn rest pc a h
    cases h with
    | constructing | idle => simp
    | copyIn => exact ⟨by decide, fun _ => rfl⟩
    | _ => exact ⟨by decide, fun _ => rfl⟩
  exact hcount h

/-- Who starts a run has all ranks' results of the runs before, as after a barrier. -/
def Separated (s : Deployed Rank Thread Port Loc Val Fields Out) : Label Rank Thread Port → Prop
  | .rank r k => began k = true → ∀ q, (s.object r).outputs.length ≤ (s.object q).outputs.length
  | .network _ _ => True

variable (C input) in
/-- A step of a group whose users keep their runs apart. -/
def SeparatedStep (user : Thread) (w : Rank → Wrapper Rank) (s : Deployed Rank Thread Port Loc Val Fields Out)
    (l : Label Rank Thread Port) (t : Deployed Rank Thread Port Loc Val Fields Out) : Prop :=
  Step C input user w s l t ∧ Separated s l

theorem trace_of_separated (h : Trace (SeparatedStep C input user w) s ls t) : Trace (Step C input user w) s ls t :=
  h.mono fun _ _ _ hs => hs.1

/-- Nobody has a result less than a rank with a pending run. -/
def Apart (s : Deployed Rank Thread Port Loc Val Fields Out) : Prop :=
  ∀ r, pending (s.wrapped r) = 1 → ∀ q, (s.object r).outputs.length ≤ (s.object q).outputs.length

theorem ready_of_copyIn {a b : State} {hook : Hook} (h : Allows a hook b) (hc : callOf hook = .copyIn) : b = .ready := by
  cases hook with
  | copyInImpl => cases a <;> cases h; rfl
  | _ => cases hc

omit [DecidableEq Thread] in
/-- `start` itself runs no hook. -/
theorem hooks_of_began {k : Wrappers.Label Thread} (h : began k = true) : k.hooks = [] := by
  cases k with
  | start _ => rfl
  | waitForCompletion => rfl
  | collective _ => cases h

/-- A pending run was pending before, or it has just begun; either way there is no result yet. -/
theorem pending_before {W W' : Wrapped Thread} {v : Wrapper Rank} {k : Wrappers.Label Thread}
    (hs : Wrappers.Step user v W k W') (h : W.Phase user) (hp : pending W' = 1) :
    k.hooks.count .copyOutImpl = 0 ∧ (began k = true ∨ pending W = 1) := by
  obtain ⟨hcol, hdue⟩ := step_counts hs h
  have hone := (pending_of_phase h).1
  unfold pending at hp hone ⊢
  cases hb : began k with
  | false =>
    simp only [hb, Bool.false_eq_true, if_false] at hdue
    exact ⟨by omega, .inr (by omega)⟩
  | true =>
    rw [hooks_of_began hb]
    exact ⟨rfl, .inl rfl⟩

theorem Apart.next (h : Apart s) (hphase : ∀ r, (s.wrapped r).Phase user) (hs : SeparatedStep C input user w s l t) :
    Apart t := by
  obtain ⟨hs, hsep⟩ := hs
  cases hs with
  | @rank r k W o F hs ran =>
    have hlen := length_outputs_of_run ran
    have hgrows : ∀ q, (s.object q).outputs.length ≤ ((Function.update s.object r o) q).outputs.length := by
      intro q
      by_cases hq : q = r
      · subst hq; rw [Function.update_self]; omega
      · rw [Function.update_of_ne hq]
    intro p hp q
    refine Nat.le_trans ?_ (hgrows q)
    by_cases hpr : p = r
    · subst hpr
      simp only [Function.update_self] at hp ⊢
      obtain ⟨hno, hb⟩ := pending_before hs (hphase p) hp
      rw [hlen, hno, Nat.add_zero]
      exact hb.elim (fun hb => hsep hb q) fun hb => h p hb q
    · simp only [Function.update_of_ne hpr] at hp ⊢
      exact h p hp q
  | network hF => exact h

/-- **Users that keep their runs apart keep the algorithm's runs apart.** -/
theorem reach_separated (h : Trace (SeparatedStep C input user w) (.constructed C m) ls s) :
    C.Reach input m Collectives.Separated s.sys := by
  refine (h.history
    (P := fun ls s => Trace (Step C input user w) (.constructed C m) ls s ∧ Apart s ∧
      C.Reach input m Collectives.Separated s.sys)
    ⟨.refl _, fun r hr => absurd hr (show (0 : Nat) ≠ 1 by decide), Relation.ReflTransGen.refl⟩ ?_).2.2
  rintro ls s l t ⟨htr, hapart, hreach⟩ hs
  have hphase := phase htr
  refine ⟨htr.snoc hs.1, hapart.next hphase hs, ?_⟩
  obtain ⟨-, he⟩ | ⟨a, hl, ha⟩ := hs.1.actions
  · rw [he]; exact hreach
  · refine hreach.next ?_ ha
    cases hs.1 with
    | network hF =>
      injection hl with hl
      subst hl
      trivial
    | @rank r k W o F hs' ran =>
      obtain ⟨hook, hk, rfl⟩ := List.map_eq_singleton_iff.mp hl
      intro hc
      -- after copying in the run is pending, and it did not begin with this step
      have hready : W.shared.state = .ready := by
        obtain ⟨hh, -⟩ | ⟨hook', hh, hnext⟩ := hs'.hooks
        · rw [hk] at hh; cases hh
        · rw [hk] at hh
          cases hh
          exact ready_of_copyIn hnext hc
      have hphase' := phase (htr.snoc hs.1) r
      simp only [Function.update_self] at hphase'
      obtain ⟨-, hb | hb⟩ := pending_before hs' (hphase r) ((pending_of_phase hphase').2 (.inl hready))
      · rw [hooks_of_began hb] at hk
        cases hk
      · exact hapart r hb

theorem outputs_mono (h : Trace (Step C input user w) s ls t) (r : Rank) :
    (s.object r).outputs.length ≤ (t.object r).outputs.length := by
  refine h.invariant (P := fun t => (s.object r).outputs.length ≤ (t.object r).outputs.length) (Nat.le_refl _) ?_
  intro t l u hle hs
  refine hle.trans ?_
  cases hs with
  | @rank q k W o F hs ran =>
    by_cases hq : r = q
    · subst hq
      simp only [Function.update_self, length_outputs_of_run ran, Nat.le_add_right]
    · simp only [Function.update_of_ne hq, Nat.le_refl]
  | network hF => exact Nat.le_refl _

/-- Users keep their runs apart as long as they start only the run after those
that all ranks have a result of. -/
theorem separated_append {ks : List (Label Rank Thread Port)}
    (h : Trace (SeparatedStep C input user w) (.constructed C m) ls s) (hk : Trace (Step C input user w) s ks t)
    (hb : ∀ r q, ((ls ++ ks).flatMap (Label.localSteps r)).countP began ≤ (s.object q).outputs.length + 1) :
    Trace (SeparatedStep C input user w) (.constructed C m) (ls ++ ks) t := by
  induction hk with
  | refl => rwa [List.append_nil]
  | @snoc t u ks l hks hs ih =>
    rw [← List.append_assoc] at hb ⊢
    have hbefore := ih fun r q => by
      have := hb r q
      rw [List.flatMap_append, List.countP_append] at this
      omega
    refine hbefore.snoc ⟨hs, ?_⟩
    cases l with
    | network p i => trivial
    | rank r k =>
      intro hk q
      have hbegan := (counts (trace_of_separated hbefore) r).began
      have hmono := outputs_mono hks q
      have := hb r q
      rw [List.flatMap_append, List.countP_append, List.flatMap_singleton, Label.localSteps, if_pos rfl,
        List.countP_singleton, hk, if_pos rfl] at this
      omega

end

end GaspiCxx.Collectives.Deployment
