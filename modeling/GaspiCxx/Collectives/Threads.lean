import GaspiCxx.Collectives.LowLevel
import GaspiCxx.Runs.Trace

/-!
# One collective, many threads

The calls of `CollectiveLowLevel` as the threads see them: each locked section
is one step, `try_lock` may fail at any time, and `waitForCompletion` reads the
state without the lock before every `triggerProgress`. What the algorithm does
is left open: only which hook ran, and what `triggerProgressImpl` answered.

`lifeCycle` is the contract of the header: which hook may run in which state.
Its words are the prefixes of one set-up and any number of complete runs. Every
step of the threads runs at most one hook, and that one the contract allows.
-/

namespace GaspiCxx.Collectives.Threads

open Runs Computability

/-- A hook that ran to its end, with the answer of `triggerProgressImpl`. -/
inductive Hook where
  | waitForSetupImpl
  | copyInImpl
  | startImpl
  | triggerProgressImpl (isCompleted : Bool)
  | copyOutImpl
  deriving DecidableEq, Repr

/-! ## The locked sections -/

/-- In the wrong state `logic_error`, otherwise the hook and then the next state. -/
def guarded (expected : State) (what : String) (hook : Hook) (next : State) (s : State) :
    Except String Hook × State :=
  if s ≠ expected then (.error what, s) else (.ok hook, next)

def waitForSetup : State → Except String Hook × State :=
  guarded .uninitialized "[CollectiveLowLevel::waitForSetup] Collective already initialized."
    .waitForSetupImpl .initialized

def copyIn : State → Except String Hook × State :=
  guarded .initialized "[CollectiveLowLevel::copyIn] Collective is not in the INITIALIZED state."
    .copyInImpl .ready

def start : State → Except String Hook × State :=
  guarded .ready "[CollectiveLowLevel::start] Collective already started or not initialized."
    .startImpl .running

def copyOut : State → Except String Hook × State :=
  guarded .finished "[CollectiveLowLevel::copyOut] Collective is not in the FINISHED state."
    .copyOutImpl .initialized

/-- `locked` is the result of `try_lock`, `impl` the hook's answer if it runs.
The value is returned while the lock is held. -/
def triggerProgress (locked impl : Bool) (s : State) : Bool × List Hook × State :=
  if locked then
    if s = .running then (impl, [.triggerProgressImpl impl], if impl then .finished else .running)
    else (false, [], s)
  else (false, [], s)

def checkForCompletion (s : State) : Bool := s = .finished

/-- The calls that throw in the wrong state. -/
inductive Guarded where
  | waitForSetup | copyIn | start | copyOut
  deriving DecidableEq, Repr

def Guarded.run : Guarded → State → Except String Hook × State
  | .waitForSetup => Threads.waitForSetup
  | .copyIn => Threads.copyIn
  | .start => Threads.start
  | .copyOut => Threads.copyOut

/-! ## The contract -/

def lifeCycle : State → Hook → Option State
  | .uninitialized, .waitForSetupImpl => some .initialized
  | .initialized, .copyInImpl => some .ready
  | .ready, .startImpl => some .running
  | .running, .triggerProgressImpl false => some .running
  | .running, .triggerProgressImpl true => some .finished
  | .finished, .copyOutImpl => some .initialized
  | _, _ => none

/-- All transitions of the contract. -/
theorem lifeCycle_cases {s t : State} {hook : Hook} (h : lifeCycle s hook = some t) :
    s = .uninitialized ∧ hook = .waitForSetupImpl ∧ t = .initialized ∨
    s = .initialized ∧ hook = .copyInImpl ∧ t = .ready ∨
    s = .ready ∧ hook = .startImpl ∧ t = .running ∨
    s = .running ∧ hook = .triggerProgressImpl false ∧ t = .running ∨
    s = .running ∧ hook = .triggerProgressImpl true ∧ t = .finished ∨
    s = .finished ∧ hook = .copyOutImpl ∧ t = .initialized := by
  unfold lifeCycle at h
  split at h <;> cases h <;> simp

theorem guarded_error {expected next s : State} {what w : String} {hook : Hook}
    (h : (guarded expected what hook next s).1 = .error w) : (guarded expected what hook next s).2 = s := by
  unfold guarded at h ⊢
  by_cases hs : s = expected
  · rw [if_neg (not_not.mpr hs)] at h; cases h
  · rw [if_pos hs]

theorem guarded_ok {expected next s : State} {what : String} {hook k : Hook}
    (h : (guarded expected what hook next s).1 = .ok k) :
    s = expected ∧ k = hook ∧ (guarded expected what hook next s).2 = next := by
  unfold guarded at h ⊢
  by_cases hs : s = expected
  · rw [if_neg (not_not.mpr hs)] at h ⊢
    injection h with h
    exact ⟨hs, h.symm, rfl⟩
  · rw [if_pos hs] at h; cases h

theorem Guarded.run_error {c : Guarded} {s : State} {what : String} (h : (c.run s).1 = .error what) :
    (c.run s).2 = s := by
  cases c <;> exact guarded_error h

theorem Guarded.run_ok {c : Guarded} {s : State} {hook : Hook} (h : (c.run s).1 = .ok hook) :
    lifeCycle s hook = some (c.run s).2 := by
  cases c <;> (obtain ⟨rfl, rfl, -⟩ := guarded_ok h; rfl)

/-- `triggerProgress` ran no hook and answers false, or the hook's answer. -/
theorem triggerProgress_cases (locked impl : Bool) (s : State) :
    triggerProgress locked impl s = (false, [], s) ∨
    ∃ b t, triggerProgress locked impl s = (b, [.triggerProgressImpl b], t) ∧
      lifeCycle s (.triggerProgressImpl b) = some t := by
  unfold triggerProgress
  cases locked with
  | false => left; rfl
  | true =>
    by_cases hs : s = .running
    · right
      subst hs
      exact ⟨impl, if impl then .finished else .running, by simp only [if_true], by cases impl <;> rfl⟩
    · left; simp only [if_true, if_neg hs]

/-! ## Threads -/

/-- Where a thread is: `loop` is the condition of `waitForCompletion`'s loop,
with its local `thisThreadCompletes`; `body` the `triggerProgress` inside it. -/
inductive Pc where
  | outside
  | loop (thisThreadCompletes : Bool)
  | body
  deriving DecidableEq, Repr

structure Shared (Thread : Type) where
  state : State
  pc : Thread → Pc

inductive Label (Thread : Type) where
  | call (th : Thread) (c : Guarded) (o : Except String Hook)
  | triggerProgress (th : Thread) (returned : Bool) (ran : List Hook)
  | checkForCompletion (th : Thread) (returned : Bool)
  | waitForCompletion (th : Thread)
  | again (th : Thread)
  | waitForCompletionReturns (th : Thread) (returned : Bool)

namespace Label

variable {Thread : Type}

/-- The hooks that ran in a step. -/
def hooks : Label Thread → List Hook
  | .call _ _ (.ok hook) => [hook]
  | .triggerProgress _ _ ran => ran
  | _ => []

/-- A `triggerProgress`, direct or in `waitForCompletion`, returned true. -/
def completes : Label Thread → Bool
  | .triggerProgress _ returned _ => returned
  | _ => false

def starts (l : Label Thread) : Prop := l.hooks = [.startImpl]

end Label

section

variable {Thread : Type} [DecidableEq Thread]

def Shared.constructed : Shared Thread := ⟨.uninitialized, fun _ => .outside⟩

def Shared.goto (S : Shared Thread) (th : Thread) (pc : Pc) (s : State) : Shared Thread :=
  ⟨s, Function.update S.pc th pc⟩

@[simp] theorem Shared.goto_state (S : Shared Thread) (th : Thread) (pc : Pc) (s : State) :
    (S.goto th pc s).state = s := rfl

@[simp] theorem Shared.goto_pc (S : Shared Thread) (th : Thread) (pc : Pc) (s : State) :
    (S.goto th pc s).pc th = pc := Function.update_self ..

inductive Step : Shared Thread → Label Thread → Shared Thread → Prop where
  | call (S : Shared Thread) (th : Thread) (c : Guarded) (h : S.pc th = .outside) :
      Step S (.call th c (c.run S.state).1) { S with state := (c.run S.state).2 }
  | triggerProgress (S : Shared Thread) (th : Thread) (locked impl : Bool) (h : S.pc th = .outside) :
      Step S
        (.triggerProgress th (Threads.triggerProgress locked impl S.state).1
          (Threads.triggerProgress locked impl S.state).2.1)
        { S with state := (Threads.triggerProgress locked impl S.state).2.2 }
  | checkForCompletion (S : Shared Thread) (th : Thread) (h : S.pc th = .outside) :
      Step S (.checkForCompletion th (Threads.checkForCompletion S.state)) S
  | waitForCompletion (S : Shared Thread) (th : Thread) (h : S.pc th = .outside) :
      Step S (.waitForCompletion th) (S.goto th (.loop false) S.state)
  | again (S : Shared Thread) (th : Thread) (h : S.pc th = .loop false) (running : S.state = .running) :
      Step S (.again th) (S.goto th .body S.state)
  | progress (S : Shared Thread) (th : Thread) (locked impl : Bool) (h : S.pc th = .body) :
      Step S
        (.triggerProgress th (Threads.triggerProgress locked impl S.state).1
          (Threads.triggerProgress locked impl S.state).2.1)
        (S.goto th (.loop (Threads.triggerProgress locked impl S.state).1)
          (Threads.triggerProgress locked impl S.state).2.2)
  | leave (S : Shared Thread) (th : Thread) (thisThreadCompletes : Bool) (h : S.pc th = .loop thisThreadCompletes)
      (stop : thisThreadCompletes = true ∨ S.state ≠ .running) :
      Step S (.waitForCompletionReturns th thisThreadCompletes) (S.goto th .outside S.state)

variable {S S' : Shared Thread} {l : Label Thread} {ls : List (Label Thread)}

omit [DecidableEq Thread] in
/-- A step of `triggerProgress`, wherever it is called. -/
theorem triggerProgress_obeys {th : Thread} {locked impl : Bool} {s : State}
    (h : l = .triggerProgress th (triggerProgress locked impl s).1 (triggerProgress locked impl s).2.1) :
    l.hooks = [] ∧ l.completes = false ∧ (triggerProgress locked impl s).2.2 = s ∨
    ∃ hook, l.hooks = [hook] ∧ l.completes = decide (hook = .triggerProgressImpl true) ∧
      lifeCycle s hook = some (triggerProgress locked impl s).2.2 := by
  subst h
  obtain he | ⟨b, t, he, hc⟩ := triggerProgress_cases locked impl s
  · left; rw [he]; exact ⟨rfl, rfl, rfl⟩
  · right
    rw [he]
    refine ⟨.triggerProgressImpl b, rfl, ?_, hc⟩
    cases b <;> rfl

/-- A step runs no hook, keeps the state and completes nothing, or it runs one
hook that the contract allows and completes if that hook did. -/
theorem Step.obeys (h : Step S l S') :
    l.hooks = [] ∧ l.completes = false ∧ S'.state = S.state ∨
    ∃ hook, l.hooks = [hook] ∧ l.completes = decide (hook = .triggerProgressImpl true) ∧
      lifeCycle S.state hook = some S'.state := by
  cases h with
  | call th c =>
    cases hr : (c.run S.state).1 with
    | error what => left; exact ⟨rfl, rfl, Guarded.run_error hr⟩
    | ok hook =>
      right
      refine ⟨hook, rfl, ?_, Guarded.run_ok hr⟩
      have hne : hook ≠ .triggerProgressImpl true := by
        rintro rfl
        cases c <;> (obtain ⟨-, hk, -⟩ := guarded_ok hr; cases hk)
      simp only [Label.completes, hne, decide_false]
  | triggerProgress th locked impl => exact triggerProgress_obeys rfl
  | progress th locked impl => exact triggerProgress_obeys rfl
  | checkForCompletion th => left; exact ⟨rfl, rfl, rfl⟩
  | waitForCompletion th => left; exact ⟨rfl, rfl, rfl⟩
  | again th => left; exact ⟨rfl, rfl, rfl⟩
  | leave th done => left; exact ⟨rfl, rfl, rfl⟩

/-- A call that throws ran no hook and left everything as it was. -/
theorem Step.throws {th : Thread} {c : Guarded} {what : String} (h : Step S (.call th c (.error what)) S') :
    (Label.call th c (.error what)).hooks = [] ∧ S' = S := by
  refine ⟨rfl, ?_⟩
  generalize hl : Label.call th c (.error what) = l at h
  cases h with
  | call th' c' =>
    injection hl with _ hc ho
    subst hc
    rw [Guarded.run_error ho.symm]
  | _ => cases hl

/-! ## The words of the contract -/

/-- One run of the collective: `copyIn start progress(false)* progress(true) copyOut`. -/
def oneRun : Language Hook :=
  {[.copyInImpl]} * {[.startImpl]} * ({[.triggerProgressImpl false]} : Language Hook)∗ *
    {[.triggerProgressImpl true]} * {[.copyOutImpl]}

/-- `setup (copyIn start progress(false)* progress(true) copyOut)*`. -/
def contract : Language Hook := {[.waitForSetupImpl]} * oneRun∗

/-- The hooks that lead to a state. -/
def upTo : State → Language Hook
  | .uninitialized => 1
  | .initialized => contract
  | .ready => contract * {[.copyInImpl]}
  | .running => contract * {[.copyInImpl]} * {[.startImpl]} * ({[.triggerProgressImpl false]} : Language Hook)∗
  | .finished =>
    contract * {[.copyInImpl]} * {[.startImpl]} * ({[.triggerProgressImpl false]} : Language Hook)∗ *
      {[.triggerProgressImpl true]}

theorem upTo_snoc {s t : State} {hook : Hook} (h : lifeCycle s hook = some t) :
    upTo s * {[hook]} ≤ upTo t := by
  obtain ⟨rfl, rfl, rfl⟩ | ⟨rfl, rfl, rfl⟩ | ⟨rfl, rfl, rfl⟩ | ⟨rfl, rfl, rfl⟩ | ⟨rfl, rfl, rfl⟩ |
    ⟨rfl, rfl, rfl⟩ := lifeCycle_cases h <;> unfold upTo
  · -- the set-up, followed by no run yet
    rw [one_mul]
    calc ({[.waitForSetupImpl]} : Language Hook) = {[.waitForSetupImpl]} * 1 := (mul_one _).symm
      _ ≤ contract := mul_le_mul' le_rfl one_le_kstar
  · exact le_rfl
  · calc contract * {[.copyInImpl]} * {[.startImpl]} = contract * {[.copyInImpl]} * {[.startImpl]} * 1 :=
          (mul_one _).symm
      _ ≤ _ := mul_le_mul' le_rfl one_le_kstar
  · -- one more unsuccessful round
    rw [mul_assoc]
    exact mul_le_mul' le_rfl kstar_mul_le_kstar
  · exact le_rfl
  · -- `copyOut` closes the run begun after `contract`
    have hrun : contract * oneRun ≤ contract := by
      unfold contract
      rw [mul_assoc]
      exact mul_le_mul' le_rfl kstar_mul_le_kstar
    simpa only [oneRun, mul_assoc] using hrun

theorem upTo_append {s t : State} {k : Hook} {w : List Hook} (hw : w ∈ upTo s)
    (h : lifeCycle s k = some t) : w ++ [k] ∈ upTo t :=
  upTo_snoc h (Language.append_mem_mul hw (Set.mem_singleton _))

/-- The hooks that complete the current run. -/
def remaining : State → List Hook
  | .uninitialized => [.waitForSetupImpl]
  | .initialized => []
  | .ready => [.startImpl, .triggerProgressImpl true, .copyOutImpl]
  | .running => [.triggerProgressImpl true, .copyOutImpl]
  | .finished => [.copyOutImpl]

/-- What leads to a state can be completed to a word of the contract. -/
theorem upTo_remaining {s : State} {w : List Hook} (hw : w ∈ upTo s) : w ++ remaining s ∈ contract := by
  have hout : ∀ {w}, w ∈ upTo .finished → w ++ [.copyOutImpl] ∈ contract := fun hw =>
    upTo_append (t := .initialized) hw rfl
  have hdone : ∀ {w}, w ∈ upTo .running → w ++ [.triggerProgressImpl true, .copyOutImpl] ∈ contract := by
    intro w hw
    have h := hout (upTo_append (k := .triggerProgressImpl true) (t := .finished) hw rfl)
    rwa [List.append_assoc] at h
  cases s with
  | uninitialized => exact upTo_append (t := .initialized) hw rfl
  | initialized => rw [remaining, List.append_nil]; exact hw
  | ready =>
    have h := hdone (upTo_append (k := .startImpl) (t := .running) hw rfl)
    rwa [List.append_assoc] at h
  | running => exact hdone hw
  | finished => exact hout hw

/-- The hooks of a run from construction lead to its state. -/
theorem hooks_upTo (h : Trace Step Shared.constructed ls S) : ls.flatMap Label.hooks ∈ upTo S.state := by
  refine h.history (P := fun ls (S : Shared Thread) => ls.flatMap Label.hooks ∈ upTo S.state) ?_ ?_
  · exact Language.nil_mem_one
  · intro ls S l S' hw hs
    rw [List.flatMap_append, List.flatMap_singleton]
    obtain ⟨hh, -, he⟩ | ⟨hook, hh, -, hc⟩ := hs.obeys
    · rw [hh, he, List.append_nil]; exact hw
    · rw [hh]; exact upTo_append hw hc

/-! ## Between two starts -/

/-- Since a start no other start has run: the collective still runs and no
`triggerProgress` returned true, or exactly one did, whose hook answered true. -/
def OneCompletion (ls : List (Label Thread)) (S : Shared Thread) : Prop :=
  (∀ l ∈ ls, ¬ l.starts) →
    S.state = .running ∧ ls.filter Label.completes = [] ∨
    (S.state = .finished ∨ S.state = .initialized ∨ S.state = .ready) ∧
      ∃ l, ls.filter Label.completes = [l] ∧ l.hooks = [.triggerProgressImpl true]

theorem Step.oneCompletion (hs : Step S l S') (h : OneCompletion ls S) : OneCompletion (ls ++ [l]) S' := by
  intro hno
  have hls := h fun k hk => hno k (List.mem_append_left _ hk)
  have hl : l.hooks ≠ [.startImpl] := hno l (by simp)
  have hfilter : (ls ++ [l]).filter Label.completes =
      ls.filter Label.completes ++ if l.completes then [l] else [] := by
    rw [List.filter_append, List.filter_cons, List.filter_nil]
  rw [hfilter]
  obtain ⟨-, hc, he⟩ | ⟨hook, hh, hc, hnext⟩ := hs.obeys
  · rw [hc, he]
    simpa using hls
  · rw [hh] at hl
    obtain ⟨hrun, hnone⟩ | ⟨hstate, k, hone, hk⟩ := hls
    · -- still running: the hook can only be a round of progress
      rw [hrun] at hnext
      obtain ⟨h0, -, -⟩ | ⟨h0, -, -⟩ | ⟨h0, -, -⟩ | ⟨-, rfl, ht⟩ | ⟨-, rfl, ht⟩ | ⟨h0, -, -⟩ :=
        lifeCycle_cases hnext
      · cases h0
      · cases h0
      · cases h0
      · left; exact ⟨ht, by rw [hnone, hc]; rfl⟩
      · right; exact ⟨.inl ht, l, by rw [hnone, hc]; rfl, hh⟩
      · cases h0
    · -- completed: the hook takes the results out or brings the next inputs in
      right
      obtain ⟨h0, -, -⟩ | ⟨-, rfl, ht⟩ | ⟨-, rfl, -⟩ | ⟨h0, -, -⟩ | ⟨h0, -, -⟩ | ⟨-, rfl, ht⟩ :=
        lifeCycle_cases hnext
      · simp [h0] at hstate
      · exact ⟨.inr (.inr ht), k, by rw [hone, hc]; rfl, hk⟩
      · exact absurd rfl hl
      · simp [h0] at hstate
      · simp [h0] at hstate
      · exact ⟨.inr (.inl ht), k, by rw [hone, hc]; rfl, hk⟩

/-- A step that runs `startImpl` goes from `ready` to `running` and completes nothing. -/
theorem Step.starts (hs : Step S l S') (h : l.starts) : S.state = .ready ∧ S'.state = .running := by
  unfold Label.starts at h
  obtain ⟨hh, -, -⟩ | ⟨hook, hh, -, hnext⟩ := hs.obeys
  · rw [hh] at h; cases h
  · rw [hh] at h
    injection h with h
    subst h
    obtain ⟨-, h, -⟩ | ⟨-, h, -⟩ | ⟨h, -, ht⟩ | ⟨-, h, -⟩ | ⟨-, h, -⟩ | ⟨-, h, -⟩ := lifeCycle_cases hnext
    all_goals first | exact ⟨h, ht⟩ | cases h

omit [DecidableEq Thread] in
/-- The label of a completing step. -/
theorem Label.eq_of_completes {l : Label Thread} (hc : l.completes = true) (hh : l.hooks = [.triggerProgressImpl true]) :
    ∃ th, l = .triggerProgress th true [.triggerProgressImpl true] := by
  cases l with
  | triggerProgress th returned ran =>
    unfold Label.completes at hc
    unfold Label.hooks at hh
    subst hc hh
    exact ⟨th, rfl⟩
  | _ => cases hc

/-- Between two consecutive starts exactly one `triggerProgress` returns true. -/
theorem completes_between {mid : List (Label Thread)} (h : Trace Step S mid S') (hs : S.state = .running)
    (hr : S'.state = .ready) (hno : ∀ l ∈ mid, ¬ l.starts) :
    ∃ th, mid.filter Label.completes = [.triggerProgress th true [.triggerProgressImpl true]] := by
  have hone : OneCompletion mid S' :=
    h.history (P := OneCompletion) (fun _ => .inl ⟨hs, rfl⟩) fun _ _ _ _ hP hst => hst.oneCompletion hP
  obtain ⟨hrun, -⟩ | ⟨-, l, hl, hh⟩ := hone hno
  · rw [hr] at hrun; cases hrun
  · have hmem : l ∈ mid.filter Label.completes := by rw [hl]; exact List.mem_singleton_self l
    obtain ⟨th, rfl⟩ := Label.eq_of_completes (List.mem_filter.mp hmem).2 hh
    exact ⟨th, hl⟩

/-- For every interleaving: the hooks that ran are a prefix of the contract, a
throwing call ran none and changed nothing, and between two consecutive starts
exactly one `triggerProgress` of all threads returned true, the one whose hook did. -/
theorem lifeCycle_threads (h : Trace Step Shared.constructed ls S) :
    (∃ w ∈ contract, ls.flatMap Label.hooks <+: w) ∧
    (∀ (th : Thread) (c : Guarded) (what : String) (S' : Shared Thread),
      Step S (.call th c (.error what)) S' →
        (Label.call th c (.error what)).hooks = [] ∧ S' = S) ∧
    ∀ (before mid after : List (Label Thread)) (l l' : Label Thread),
      ls = before ++ l :: (mid ++ l' :: after) → l.starts → l'.starts → (∀ k ∈ mid, ¬ k.starts) →
        ∃ th, mid.filter Label.completes = [.triggerProgress th true [.triggerProgressImpl true]] := by
  refine ⟨⟨_, upTo_remaining (hooks_upTo h), List.prefix_append _ _⟩, fun _ _ _ _ hs => hs.throws, ?_⟩
  rintro before mid after l l' rfl hl hl' hno
  obtain ⟨S0, S1, -, hstart, hrest⟩ := h.split_cons
  obtain ⟨S2, S3, hmid, hstart', -⟩ := hrest.split_cons
  exact completes_between hmid (hstart.starts hl).2 (hstart'.starts hl').1 hno

/-- Two runs' starts by one thread, the completion by another in `waitForCompletion`. -/
theorem lifeCycle_threads_twice :
    ∃ w ∈ contract,
      [.waitForSetupImpl, .copyInImpl, .startImpl, .triggerProgressImpl true, .copyOutImpl, .copyInImpl, .startImpl]
        <+: w := by
  have first : Trace Step (Shared.constructed : Shared Bool) _ _ :=
    (((Trace.single (.call _ true .waitForSetup rfl)).snoc (.call _ true .copyIn rfl)).snoc
      (.call _ true .start rfl))
  have completed := (((first.snoc (.waitForCompletion _ false rfl)).snoc (.again _ false rfl rfl)).snoc
    (.progress _ false true true rfl))
  have second := (((completed.snoc (.call _ true .copyOut rfl)).snoc (.call _ true .copyIn rfl)).snoc
    (.call _ true .start rfl))
  exact (lifeCycle_threads second).1

end

end GaspiCxx.Collectives.Threads
