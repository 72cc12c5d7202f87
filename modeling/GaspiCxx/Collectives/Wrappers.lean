import GaspiCxx.Collectives.Threads

/-!
# The wrappers of the non-blocking collectives

`Allreduce`, `Allgatherv` and `Broadcast` hold one `CollectiveLowLevel` each.
The constructor sets it up and registers it; after that one thread calls the
wrapper's `start` and `waitForCompletion` in turn, and the engine's threads call
`triggerProgress` on the collective whenever they like.

A wrapper's call is the list of calls it makes on the collective. The thread
works that list off one locked section at a time, so the engine can step in
between any two of them, also inside the loop of `waitForCompletion`.
-/

namespace GaspiCxx.Collectives.Wrappers

open Runs Threads Computability

/-! ## What the wrappers call -/

/-- A call on the collective: a locked section that may throw, or the loop of
`CollectiveLowLevel::waitForCompletion`. -/
inductive Op where
  | call (c : Guarded)
  | waitForCompletion
  deriving DecidableEq, Repr

/-- An overload of `start`: what it throws first, or what it calls. -/
abbrev Start := Except String (List Op)

def constructor : List Op := [.call .waitForSetup]

/-- `copyIn` the inputs (or `NO_DATA`), then `start`. -/
def copyInAndStart : List Op := [.call .copyIn, .call .start]

def waitAndCopyOut : List Op := [.waitForCompletion, .call .copyOut]

def Allreduce.start : Start := .ok copyInAndStart

def Allreduce.waitForCompletion : List Op := waitAndCopyOut

def Allgatherv.start : Start := .ok copyInAndStart

def Allgatherv.waitForCompletion : List Op := waitAndCopyOut

section

variable {Rank : Type} [DecidableEq Rank]

/-- `start(void const* inputs)` -/
def Broadcast.startInputs (rank root_rank : Rank) : Start :=
  if rank ≠ root_rank then
    .error "Broadcast: start(void const* inputs) may only be called on root rank."
  else .ok copyInAndStart

/-- `start()` -/
def Broadcast.startNoData (rank root_rank : Rank) : Start :=
  if rank = root_rank then
    .error "Broadcast: start() may only be called on non-root ranks."
  else .ok copyInAndStart

def Broadcast.waitForCompletion : List Op := waitAndCopyOut

inductive Wrapper (Rank : Type) where
  | allreduce
  | allgatherv
  | broadcast (rank root_rank : Rank)
  deriving DecidableEq, Repr

/-- The overloads of `start`; the one with a vector only forwards its data. -/
def Wrapper.starts : Wrapper Rank → List Start
  | .allreduce => [Allreduce.start]
  | .allgatherv => [Allgatherv.start]
  | .broadcast rank root_rank => [Broadcast.startInputs rank root_rank, Broadcast.startNoData rank root_rank]

def Wrapper.waitForCompletion : Wrapper Rank → List Op
  | .allreduce => Allreduce.waitForCompletion
  | .allgatherv => Allgatherv.waitForCompletion
  | .broadcast _ _ => Broadcast.waitForCompletion

/-- The overload that `Broadcast` refuses to this rank. -/
def Wrapper.Refuses (w : Wrapper Rank) (overload : Start) : Prop :=
  ∃ rank root_rank, w = .broadcast rank root_rank ∧
    (rank ≠ root_rank ∧ overload = Broadcast.startInputs rank root_rank ∨
      rank = root_rank ∧ overload = Broadcast.startNoData rank root_rank)

omit [DecidableEq Rank] in
theorem Wrapper.waitForCompletion_eq (w : Wrapper Rank) : w.waitForCompletion = waitAndCopyOut := by
  cases w <;> rfl

/-- An overload of `start` is refused, or it is `copyIn` and `start`. -/
theorem Wrapper.starts_cases {w : Wrapper Rank} {overload : Start} (h : overload ∈ w.starts) :
    overload = .ok copyInAndStart ∨ w.Refuses overload ∧ ∃ what, overload = .error what := by
  cases w with
  | allreduce => left; exact List.mem_singleton.mp h
  | allgatherv => left; exact List.mem_singleton.mp h
  | broadcast rank root_rank =>
    by_cases hr : rank = root_rank
    · obtain rfl | h := List.mem_cons.mp h
      · left; exact if_neg (not_not.mpr hr)
      · obtain rfl := List.mem_singleton.mp h
        right; exact ⟨⟨rank, root_rank, rfl, .inr ⟨hr, rfl⟩⟩, _, if_pos hr⟩
    · obtain rfl | h := List.mem_cons.mp h
      · right; exact ⟨⟨rank, root_rank, rfl, .inl ⟨hr, rfl⟩⟩, _, if_pos hr⟩
      · obtain rfl := List.mem_singleton.mp h
        left; exact if_neg hr

/-! ## One thread and the engine -/

/-- The wrapper's call that comes next. -/
inductive Turn where
  | start
  | waitForCompletion
  deriving DecidableEq, Repr

/-- `rest` is what the wrapper's current call still has to do. -/
structure Wrapped (Thread : Type) where
  shared : Shared Thread
  next : Turn
  rest : List Op

inductive Label (Thread : Type) where
  | start (overload : Start)
  | waitForCompletion
  | collective (l : Threads.Label Thread)

namespace Label

variable {Thread : Type}

def hooks : Label Thread → List Hook
  | .collective l => l.hooks
  | _ => []

/-- The `logic_error` that comes out of the wrapper's call. -/
def throws : Label Thread → Option String
  | .start (.error what) => some what
  | .collective (.call _ _ (.error what)) => some what
  | _ => none

end Label

variable {Thread : Type} [DecidableEq Thread]

/-- In the constructor, with its `waitForSetup` still to run. -/
def Wrapped.constructed : Wrapped Thread := ⟨.constructed, .start, constructor⟩

/-- A refused `start` changes nothing: it is still `start`'s turn. -/
def Wrapped.started (W : Wrapped Thread) : Start → Wrapped Thread
  | .ok calls => { W with next := .waitForCompletion, rest := calls }
  | .error _ => W

/-- What is left of a call after its next locked section; an exception ends it. -/
def afterCall (rest : List Op) : Except String Hook → List Op
  | .ok _ => rest
  | .error _ => []

inductive Step (user : Thread) (w : Wrapper Rank) : Wrapped Thread → Label Thread → Wrapped Thread → Prop where
  | engine (W : Wrapped Thread) {th : Thread} {returned : Bool} {ran : List Hook} {S : Shared Thread}
      (h : th ≠ user) (hs : Threads.Step W.shared (.triggerProgress th returned ran) S) :
      Step user w W (.collective (.triggerProgress th returned ran)) { W with shared := S }
  | start (W : Wrapped Thread) {overload : Start} (idle : W.rest = []) (turn : W.next = .start)
      (h : overload ∈ w.starts) :
      Step user w W (.start overload) (W.started overload)
  | waitForCompletion (W : Wrapped Thread) (idle : W.rest = []) (turn : W.next = .waitForCompletion) :
      Step user w W .waitForCompletion { W with next := .start, rest := w.waitForCompletion }
  | call (W : Wrapped Thread) {c : Guarded} {o : Except String Hook} {rest : List Op} {S : Shared Thread}
      (h : W.rest = .call c :: rest) (hs : Threads.Step W.shared (.call user c o) S) :
      Step user w W (.collective (.call user c o)) { W with shared := S, rest := afterCall rest o }
  | enter (W : Wrapped Thread) {rest : List Op} {S : Shared Thread} (h : W.rest = .waitForCompletion :: rest)
      (hs : Threads.Step W.shared (.waitForCompletion user) S) :
      Step user w W (.collective (.waitForCompletion user)) { W with shared := S }
  | again (W : Wrapped Thread) {rest : List Op} {S : Shared Thread} (h : W.rest = .waitForCompletion :: rest)
      (hs : Threads.Step W.shared (.again user) S) :
      Step user w W (.collective (.again user)) { W with shared := S }
  | progress (W : Wrapped Thread) {rest : List Op} {returned : Bool} {ran : List Hook} {S : Shared Thread}
      (h : W.rest = .waitForCompletion :: rest) (body : W.shared.pc user = .body)
      (hs : Threads.Step W.shared (.triggerProgress user returned ran) S) :
      Step user w W (.collective (.triggerProgress user returned ran)) { W with shared := S }
  | leave (W : Wrapped Thread) {rest : List Op} {returned : Bool} {S : Shared Thread}
      (h : W.rest = .waitForCompletion :: rest)
      (hs : Threads.Step W.shared (.waitForCompletionReturns user returned) S) :
      Step user w W (.collective (.waitForCompletionReturns user returned)) { W with shared := S, rest := rest }

variable {user : Thread} {w : Wrapper Rank} {W W' : Wrapped Thread} {l : Label Thread} {ls : List (Label Thread)}

/-! ## Where the thread and the collective are -/

/-- The states the collective can be in at each place of the thread. From `start`
on, the engine decides whether it still runs. -/
inductive Phase : Turn → List Op → Pc → State → Prop where
  | constructing : Phase .start [.call .waitForSetup] .outside .uninitialized
  | idle : Phase .start [] .outside .initialized
  | copyIn : Phase .waitForCompletion [.call .copyIn, .call .start] .outside .initialized
  | start : Phase .waitForCompletion [.call .start] .outside .ready
  | started {s : State} (h : s = .running ∨ s = .finished) : Phase .waitForCompletion [] .outside s
  | waiting {s : State} (h : s = .running ∨ s = .finished) :
      Phase .start [.waitForCompletion, .call .copyOut] .outside s
  | loop {s : State} (h : s = .running ∨ s = .finished) :
      Phase .start [.waitForCompletion, .call .copyOut] (.loop false) s
  | completed : Phase .start [.waitForCompletion, .call .copyOut] (.loop true) .finished
  | body {s : State} (h : s = .running ∨ s = .finished) :
      Phase .start [.waitForCompletion, .call .copyOut] .body s
  | copyOut : Phase .start [.call .copyOut] .outside .finished

/-- Another thread may complete the collective wherever it runs. -/
theorem Phase.finish {turn : Turn} {rest : List Op} {pc : Pc} (h : Phase turn rest pc .running) :
    Phase turn rest pc .finished := by
  cases h with
  | started _ => exact .started (.inr rfl)
  | waiting _ => exact .waiting (.inr rfl)
  | loop _ => exact .loop (.inr rfl)
  | body _ => exact .body (.inr rfl)

/-- A locked section finds the state it expects. -/
theorem Phase.call {turn : Turn} {c : Guarded} {rest : List Op} {pc : Pc} {s : State}
    (h : Phase turn (.call c :: rest) pc s) :
    ∃ hook, (c.run s).1 = .ok hook ∧ Phase turn rest pc (c.run s).2 := by
  cases h with
  | constructing => exact ⟨.waitForSetupImpl, rfl, .idle⟩
  | copyIn => exact ⟨.copyInImpl, rfl, .start⟩
  | start => exact ⟨.startImpl, rfl, .started (.inl rfl)⟩
  | copyOut => exact ⟨.copyOutImpl, rfl, .idle⟩

theorem Phase.copyInAndStart {pc : Pc} {s : State} (h : Phase .start [] pc s) :
    Phase .waitForCompletion copyInAndStart pc s := by
  cases h with
  | idle => exact .copyIn

theorem Phase.waitAndCopyOut {pc : Pc} {s : State} (h : Phase .waitForCompletion [] pc s) :
    Phase .start waitAndCopyOut pc s := by
  cases h with
  | started hgo => exact .waiting hgo

section

variable {turn : Turn} {rest : List Op} {s : State}

theorem Phase.enter (h : Phase turn (.waitForCompletion :: rest) .outside s) :
    Phase turn (.waitForCompletion :: rest) (.loop false) s := by
  cases h with
  | waiting hgo => exact .loop hgo

theorem Phase.again (h : Phase turn (.waitForCompletion :: rest) (.loop false) s) :
    Phase turn (.waitForCompletion :: rest) .body s := by
  cases h with
  | loop hgo => exact .body hgo

theorem Phase.unfinished (h : Phase turn (.waitForCompletion :: rest) .body s) :
    Phase turn (.waitForCompletion :: rest) (.loop false) s := by
  cases h with
  | body hgo => exact .loop hgo

theorem Phase.completes (h : Phase turn (.waitForCompletion :: rest) .body s) :
    Phase turn (.waitForCompletion :: rest) (.loop true) .finished := by
  cases h with
  | body _ => exact .completed

/-- The loop ends on its own progress or on the state it read: finished either way. -/
theorem Phase.leave {thisThreadCompletes : Bool}
    (h : Phase turn (.waitForCompletion :: rest) (.loop thisThreadCompletes) s)
    (stop : thisThreadCompletes = true ∨ s ≠ .running) : Phase turn rest .outside s := by
  cases h with
  | loop hgo =>
    obtain hrun | hfin := hgo
    · simp [hrun] at stop
    · rw [hfin]; exact .copyOut
  | completed => exact .copyOut

end

/-- A `triggerProgress` answers false and keeps the state, or it completes the
collective; only the caller's own place may move. -/
theorem progress_cases {S S' : Shared Thread} {th : Thread} {returned : Bool} {ran : List Hook}
    (h : Threads.Step S (.triggerProgress th returned ran) S') :
    (returned = false ∧ S'.state = S.state ∨ returned = true ∧ S.state = .running ∧ S'.state = .finished) ∧
    (S.pc th = .outside ∧ S'.pc = S.pc ∨
      S.pc th = .body ∧ S'.pc = Function.update S.pc th (.loop returned)) := by
  have hanswer : ∀ locked impl, ∀ s : State,
      (triggerProgress locked impl s).1 = false ∧ (triggerProgress locked impl s).2.2 = s ∨
      (triggerProgress locked impl s).1 = true ∧ s = .running ∧
        (triggerProgress locked impl s).2.2 = .finished := by
    intro locked impl s
    cases locked <;> cases impl <;> cases s <;> decide
  generalize hl : Threads.Label.triggerProgress th returned ran = l at h
  cases h with
  | triggerProgress th' locked impl hpc =>
    injection hl with hth hret _
    subst hth hret
    exact ⟨hanswer locked impl S.state, .inl ⟨hpc, rfl⟩⟩
  | progress th' locked impl hpc =>
    injection hl with hth hret _
    subst hth hret
    exact ⟨hanswer locked impl S.state, .inr ⟨hpc, rfl⟩⟩
  | _ => cases hl

section

variable {S S' : Shared Thread} {th : Thread}

theorem enter_step (h : Threads.Step S (.waitForCompletion th) S') :
    S.pc th = .outside ∧ S' = S.goto th (.loop false) S.state := by
  cases h
  exact ⟨by assumption, rfl⟩

theorem again_step (h : Threads.Step S (.again th) S') :
    S.pc th = .loop false ∧ S' = S.goto th .body S.state := by
  cases h
  exact ⟨by assumption, rfl⟩

theorem leave_step {returned : Bool} (h : Threads.Step S (.waitForCompletionReturns th returned) S') :
    S.pc th = .loop returned ∧ (returned = true ∨ S.state ≠ .running) ∧ S' = S.goto th .outside S.state := by
  cases h
  exact ⟨by assumption, by assumption, rfl⟩

end

def Wrapped.Phase (user : Thread) (W : Wrapped Thread) : Prop :=
  Wrappers.Phase W.next W.rest (W.shared.pc user) W.shared.state

/-- The engine's threads keep the phase. -/
theorem Wrapped.Phase.engine {th : Thread} {returned : Bool} {ran : List Hook} {S : Shared Thread}
    (h : W.Phase user) (hne : th ≠ user) (hs : Threads.Step W.shared (.triggerProgress th returned ran) S) :
    Wrapped.Phase user { W with shared := S } := by
  obtain ⟨hstate, hpc⟩ := progress_cases hs
  have huser : S.pc user = W.shared.pc user := by
    obtain ⟨-, hpc⟩ | ⟨-, hpc⟩ := hpc
    · rw [hpc]
    · rw [hpc, Function.update_of_ne hne.symm]
  unfold Wrapped.Phase at h ⊢
  dsimp only
  rw [huser]
  obtain ⟨-, hsame⟩ | ⟨-, hrun, hfin⟩ := hstate
  · rw [hsame]; exact h
  · rw [hrun] at h
    rw [hfin]; exact h.finish

theorem Step.phase (hs : Step user w W l W') (h : W.Phase user) : W'.Phase user := by
  cases hs with
  | engine hne hs => exact h.engine hne hs
  | start idle turn hmem =>
    obtain rfl | ⟨-, what, rfl⟩ := Wrapper.starts_cases hmem
    · unfold Wrapped.Phase at h
      rw [idle, turn] at h
      exact h.copyInAndStart
    · exact h
  | waitForCompletion idle turn =>
    unfold Wrapped.Phase at h ⊢
    rw [idle, turn] at h
    rw [w.waitForCompletion_eq]
    exact h.waitAndCopyOut
  | call hrest hs =>
    unfold Wrapped.Phase at h ⊢
    rw [hrest] at h
    obtain ⟨hook, hok, hnext⟩ := h.call
    cases hs
    rw [hok]
    exact hnext
  | enter hrest hs =>
    unfold Wrapped.Phase at h ⊢
    obtain ⟨hpc, rfl⟩ := enter_step hs
    rw [hpc, hrest] at h
    rw [hrest, Shared.goto_pc]
    exact h.enter
  | again hrest hs =>
    unfold Wrapped.Phase at h ⊢
    obtain ⟨hpc, rfl⟩ := again_step hs
    rw [hpc, hrest] at h
    rw [hrest, Shared.goto_pc]
    exact h.again
  | progress hrest body hs =>
    obtain ⟨hstate, hpc⟩ := progress_cases hs
    unfold Wrapped.Phase at h ⊢
    rw [body, hrest] at h
    obtain ⟨hout, -⟩ | ⟨-, hpc⟩ := hpc
    · rw [body] at hout; cases hout
    · dsimp only
      rw [hpc, Function.update_self, hrest]
      obtain ⟨hret, hsame⟩ | ⟨hret, -, hfin⟩ := hstate
      · rw [hret, hsame]; exact h.unfinished
      · rw [hret, hfin]; exact h.completes
  | leave hrest hs =>
    unfold Wrapped.Phase at h ⊢
    obtain ⟨hpc, stop, rfl⟩ := leave_step hs
    rw [hpc, hrest] at h
    rw [Shared.goto_pc]
    exact h.leave stop

/-- What a step throws is the refusal of an overload. -/
theorem Step.refuses (hs : Step user w W l W') (h : W.Phase user) {what : String} (ht : l.throws = some what) :
    ∃ overload, l = .start overload ∧ w.Refuses overload := by
  cases hs with
  | start idle turn hmem =>
    obtain rfl | ⟨href, what, rfl⟩ := Wrapper.starts_cases hmem
    · cases ht
    · exact ⟨_, rfl, href⟩
  | call hrest hs =>
    unfold Wrapped.Phase at h
    rw [hrest] at h
    obtain ⟨hook, hok, -⟩ := h.call
    cases hs
    rw [hok] at ht
    cases ht
  | _ => cases ht

theorem run_phase (h : Trace (Step user w) Wrapped.constructed ls W) : W.Phase user :=
  h.invariant (P := Wrapped.Phase user) .constructing fun _ _ _ hP hs => hs.phase hP

/-! ## The hooks of a run -/

def Allows (s : State) (hook : Hook) (t : State) : Prop := lifeCycle s hook = some t

theorem Allows.copyOut {s t : State} (h : Allows s .copyOutImpl t) : s = .finished := by
  cases s <;> first | rfl | cases h

theorem Allows.progress {s t : State} {isCompleted : Bool} (h : Allows s (.triggerProgressImpl isCompleted) t) :
    s = .running := by
  cases s <;> first | rfl | cases h

theorem Allows.completed {s t : State} (h : Allows s (.triggerProgressImpl true) t) : t ≠ .running := by
  cases s <;> cases h
  decide

/-- A step moves the collective as one of the threads' steps does, or not at all. -/
theorem Step.hooks (hs : Step user w W l W') :
    l.hooks = [] ∧ W'.shared.state = W.shared.state ∨
    ∃ hook, l.hooks = [hook] ∧ Allows W.shared.state hook W'.shared.state := by
  have hinner : ∀ {k : Threads.Label Thread} {S : Shared Thread}, Threads.Step W.shared k S →
      k.hooks = [] ∧ S.state = W.shared.state ∨ ∃ hook, k.hooks = [hook] ∧ Allows W.shared.state hook S.state := by
    intro k S hk
    obtain ⟨hh, -, he⟩ | ⟨hook, hh, -, hnext⟩ := hk.obeys
    · exact .inl ⟨hh, he⟩
    · exact .inr ⟨hook, hh, hnext⟩
  cases hs with
  | engine _ hs => exact hinner hs
  | @start overload _ _ _ => cases overload <;> exact .inl ⟨rfl, rfl⟩
  | waitForCompletion _ _ => exact .inl ⟨rfl, rfl⟩
  | call _ hs => exact hinner hs
  | enter _ hs => exact hinner hs
  | again _ hs => exact hinner hs
  | progress _ _ hs => exact hinner hs
  | leave _ hs => exact hinner hs

theorem hooks_run (h : Trace (Step user w) W ls W') :
    Trace Allows W.shared.state (ls.flatMap Label.hooks) W'.shared.state := by
  induction h with
  | refl => exact .refl _
  | snoc _ hs ih =>
    rw [List.flatMap_append, List.flatMap_singleton]
    obtain ⟨hh, he⟩ | ⟨hook, hh, hnext⟩ := hs.hooks
    · rw [hh, he, List.append_nil]; exact ih
    · rw [hh]; exact ih.snoc hnext

/-- Only `startImpl` makes a collective run that did not. -/
theorem not_running {s t : State} {hooks : List Hook} (h : Trace Allows s hooks t) (hs : s ≠ .running)
    (hno : .startImpl ∉ hooks) : t ≠ .running := by
  have hkept : .startImpl ∈ hooks ∨ t ≠ .running := by
    refine h.history (P := fun hooks t => .startImpl ∈ hooks ∨ t ≠ .running) (.inr hs) ?_
    intro hooks s hook t ih hnext
    obtain hmem | hs := ih
    · exact .inl (List.mem_append_left _ hmem)
    · obtain ⟨-, -, ht⟩ | ⟨-, -, ht⟩ | ⟨-, hk, -⟩ | ⟨h0, -, -⟩ | ⟨h0, -, -⟩ | ⟨-, -, ht⟩ := lifeCycle_cases hnext
      · right; rw [ht]; decide
      · right; rw [ht]; decide
      · left; rw [hk]; exact List.mem_append_right _ (List.mem_singleton_self _)
      · exact absurd h0 hs
      · exact absurd h0 hs
      · right; rw [ht]; decide
  exact hkept.resolve_left hno

/-- What ran since the last `startImpl` while the collective runs. -/
def Running (hooks : List Hook) : Prop :=
  ∃ old mid, hooks = old ++ .startImpl :: mid ∧ .startImpl ∉ mid

/-- The last hook is the completing round of the last `startImpl`. -/
def Completed (hooks : List Hook) : Prop :=
  ∃ old mid, hooks = old ++ .startImpl :: (mid ++ [.triggerProgressImpl true]) ∧ .startImpl ∉ mid

theorem running_completed {t : State} {hooks : List Hook} (h : Trace Allows .uninitialized hooks t) :
    (t = .running → Running hooks) ∧ (t = .finished → Completed hooks) := by
  refine h.history (P := fun hooks t => (t = .running → Running hooks) ∧ (t = .finished → Completed hooks))
    ⟨fun h => (by cases h), fun h => (by cases h)⟩ ?_
  intro hooks s hook t ih hnext
  obtain ⟨-, -, rfl⟩ | ⟨-, -, rfl⟩ | ⟨-, rfl, rfl⟩ | ⟨rfl, rfl, rfl⟩ | ⟨rfl, rfl, rfl⟩ | ⟨-, -, rfl⟩ :=
    lifeCycle_cases hnext
  · exact ⟨fun h => (by cases h), fun h => (by cases h)⟩
  · exact ⟨fun h => (by cases h), fun h => (by cases h)⟩
  · exact ⟨fun _ => ⟨hooks, [], rfl, List.not_mem_nil⟩, fun h => (by cases h)⟩
  · -- one more unsuccessful round
    refine ⟨fun _ => ?_, fun h => (by cases h)⟩
    obtain ⟨old, mid, rfl, hno⟩ := ih.1 rfl
    exact ⟨old, mid ++ [.triggerProgressImpl false], by simp, by simpa using hno⟩
  · refine ⟨fun h => (by cases h), fun _ => ?_⟩
    obtain ⟨old, mid, rfl, hno⟩ := ih.1 rfl
    exact ⟨old, mid, by simp, hno⟩
  · exact ⟨fun h => (by cases h), fun h => (by cases h)⟩

/-! ## All interleavings -/

/-- For every wrapper and every interleaving: the one `logic_error` is
`Broadcast`'s refusal of the overload of the other ranks; `copyOutImpl` follows the
`triggerProgressImpl` that completed this start; and after such a completion
`triggerProgressImpl` does not run before the next start. -/
theorem wrappers_keep_lifeCycle (h : Trace (Step user w) Wrapped.constructed ls W) :
    (∀ l ∈ ls, ∀ what, l.throws = some what → ∃ overload, l = .start overload ∧ w.Refuses overload) ∧
    (∀ before after, ls.flatMap Label.hooks = before ++ .copyOutImpl :: after → Completed before) ∧
    ∀ before mid after isCompleted,
      ls.flatMap Label.hooks =
          before ++ .triggerProgressImpl true :: (mid ++ .triggerProgressImpl isCompleted :: after) →
        .startImpl ∈ mid := by
  refine ⟨?_, ?_, ?_⟩
  · intro l hl what ht
    obtain ⟨before, after, rfl⟩ := List.append_of_mem hl
    obtain ⟨W0, W1, hbefore, hs, -⟩ := h.split_cons
    exact hs.refuses (run_phase hbefore) ht
  · intro before after heq
    have hrun := hooks_run h
    rw [heq] at hrun
    obtain ⟨s, t, hbefore, hnext, -⟩ := hrun.split_cons
    exact (running_completed hbefore).2 hnext.copyOut
  · intro before mid after isCompleted heq
    have hrun := hooks_run h
    rw [heq] at hrun
    obtain ⟨s, t, -, hdone, hrest⟩ := hrun.split_cons
    obtain ⟨s', t', hmid, hagain, -⟩ := hrest.split_cons
    by_contra hno
    exact not_running hmid hdone.completed hno hagain.progress

/-- On a rank that is not the root: the wrong overload is refused, the engine
completes the start with the other one while the rank waits. -/
theorem wrappers_keep_lifeCycle_broadcast :
    ∃ (ls : List (Label Bool)) (W : Wrapped Bool),
      Trace (Step true (.broadcast 1 0 : Wrapper Nat)) Wrapped.constructed ls W ∧
      ls.flatMap Label.hooks =
        [.waitForSetupImpl, .copyInImpl, .startImpl, .triggerProgressImpl true, .copyOutImpl] ∧
      Completed [.waitForSetupImpl, .copyInImpl, .startImpl, .triggerProgressImpl true] := by
  have constructed : Trace (Step true (.broadcast 1 0 : Wrapper Nat)) Wrapped.constructed _ _ :=
    Trace.single (.call _ rfl (.call _ true .waitForSetup rfl))
  have refused := constructed.snoc (.start _ rfl rfl (List.mem_cons_self ..))
  have started := ((refused.snoc (.start _ rfl rfl (List.mem_cons_of_mem _ (List.mem_cons_self ..)))).snoc
    (.call _ rfl (.call _ true .copyIn rfl))).snoc (.call _ rfl (.call _ true .start rfl))
  have waiting := (started.snoc (.waitForCompletion _ rfl rfl)).snoc (.enter _ rfl (.waitForCompletion _ true rfl))
  have completed := waiting.snoc (.engine _ Bool.false_ne_true (.triggerProgress _ false true true rfl))
  have returned := (completed.snoc (.leave _ rfl (.leave _ true false rfl (.inr (by decide))))).snoc
    (.call _ rfl (.call _ true .copyOut rfl))
  exact ⟨_, _, returned, rfl, (wrappers_keep_lifeCycle returned).2.1 _ [] rfl⟩

/-- `start` does throw when it is the overload of the other ranks. -/
theorem start_refused :
    ∃ (ls : List (Label Unit)) (W : Wrapped Unit) (l : Label Unit),
      Trace (Step () (.broadcast 1 0 : Wrapper Nat)) Wrapped.constructed ls W ∧ l ∈ ls ∧
      l.throws = some "Broadcast: start(void const* inputs) may only be called on root rank." := by
  have constructed : Trace (Step () (.broadcast 1 0 : Wrapper Nat)) Wrapped.constructed _ _ :=
    Trace.single (.call _ rfl (.call _ () .waitForSetup rfl))
  have refused := constructed.snoc (.start _ rfl rfl (List.mem_cons_self ..))
  exact ⟨_, _, _, refused, List.mem_append_right _ (List.mem_singleton_self _), rfl⟩

end

end GaspiCxx.Collectives.Wrappers
