import GaspiCxx.Collectives.Completion
import GaspiCxx.Collectives.Deployment.Model

/-!
# No deployed collective gets stuck

Progress calls of the sequential life cycle are steps of the engine's threads,
and once a rank's collective is finished its user thread is a few of its own
steps away from the result. So if an algorithm gets to the end of its runs
(`Collective.Ends`), every `waitForCompletion` that all ranks have called can
still return.
-/

namespace GaspiCxx.Collectives.Deployment

open OneSided Runs
open Threads (Hook Pc Shared)
open Wrappers (Wrapped Wrapper Phase)

variable {Rank Thread Port Loc Val Fields In Out : Type} [DecidableEq Rank] [DecidableEq Thread]
  [DecidableEq Port] [DecidableEq Loc] {C : Collective Rank Port Loc Val Fields In Out}
  {input : Rank → Nat → In} {m : Loc → Val} {user : Thread} {w : Rank → Wrapper Rank}
  {s t : Deployed Rank Thread Port Loc Val Fields Out} {ls : List (Label Rank Thread Port)}

/-! ## The engine's threads -/

omit [DecidableEq Port] [DecidableEq Loc] in
/-- Between its calls a thread of the engine is outside. -/
theorem engine_outside {v : Wrapper Rank} {ks : List (Wrappers.Label Thread)} {W : Wrapped Thread}
    (h : Trace (Wrappers.Step user v) .constructed ks W) {th : Thread} (hne : th ≠ user) :
    W.shared.pc th = .outside := by
  refine h.invariant (P := fun W => ∀ th, th ≠ user → W.shared.pc th = .outside) (fun _ _ => rfl) ?_ th hne
  intro W k W' hout hs th hne
  have hgoto : ∀ (S : Shared Thread) (pc : Pc) (a : State), S.pc th = .outside → (S.goto user pc a).pc th = .outside := by
    intro S pc a hS
    unfold Shared.goto
    exact (Function.update_of_ne hne _ _).trans hS
  cases hs with
  | engine hne' hs =>
    obtain ⟨-, ⟨-, hpc⟩ | ⟨hbody, -⟩⟩ := Wrappers.progress_cases hs
    · exact (congrFun hpc th).trans (hout th hne)
    · rw [hout _ hne'] at hbody; cases hbody
  | @start overload _ _ _ => cases overload <;> exact hout th hne
  | waitForCompletion _ _ => exact hout th hne
  | call _ hs => cases hs; exact hout th hne
  | enter _ hs => obtain ⟨-, rfl⟩ := Wrappers.enter_step hs; exact hgoto _ _ _ (hout th hne)
  | again _ hs => obtain ⟨-, rfl⟩ := Wrappers.again_step hs; exact hgoto _ _ _ (hout th hne)
  | progress _ body hs =>
    obtain ⟨-, ⟨hpc, -⟩ | ⟨-, hpc⟩⟩ := Wrappers.progress_cases hs
    · rw [body] at hpc; cases hpc
    · dsimp only
      rw [hpc, Function.update_of_ne hne]
      exact hout th hne
  | leave _ hs => obtain ⟨-, -, rfl⟩ := Wrappers.leave_step hs; exact hgoto _ _ _ (hout th hne)

/-- Steps of the engine's threads and of the network. -/
def Label.background (user : Thread) : Label Rank Thread Port → Prop
  | .rank _ (.collective (.triggerProgress th _ _)) => th ≠ user
  | .rank _ _ => False
  | .network _ _ => True

/-- The users stay where they are. -/
def SameUsers (s t : Deployed Rank Thread Port Loc Val Fields Out) : Prop :=
  ∀ r, (t.wrapped r).next = (s.wrapped r).next ∧ (t.wrapped r).rest = (s.wrapped r).rest ∧
    (t.wrapped r).shared.pc = (s.wrapped r).shared.pc

variable (w) in
/-- What the sequential life cycle does in the background, the engine can do. -/
theorem engine_step {a : Action Rank Port} {S : Sys Rank Port Loc Val Fields Out} {th : Thread}
    (hne : th ≠ user) (hout : ∀ r, (s.wrapped r).shared.pc th = .outside) (hb : Background s.sys a)
    (ha : C.step input s.sys a = some S) :
    ∃ l t, Step C input user w s l t ∧ l.background user ∧ t.sys = S ∧ SameUsers s t := by
  cases a with
  | advance p i =>
    obtain ⟨F, hF, rfl⟩ := Option.map_eq_some_iff.mp ha
    exact ⟨.network p i, _, .network s hF, trivial, rfl, fun r => ⟨rfl, rfl, rfl⟩⟩
  | call r c =>
    obtain ⟨rfl, hrun⟩ := hb
    obtain ⟨⟨N, F⟩, hc, rfl⟩ := Option.map_eq_some_iff.mp ha
    obtain ⟨hst, -, -⟩ | ⟨-, done, f, ht, rfl⟩ := Collective.call_triggerProgress hc
    · exact absurd hrun hst
    have hlocal : Wrappers.Step user (w r) (s.wrapped r) _ _ :=
      .engine (s.wrapped r) hne (.triggerProgress (s.wrapped r).shared th true done (hout r))
    have hstate : (s.wrapped r).shared.state = .running := hrun
    have hsection : Threads.triggerProgress true done (s.wrapped r).shared.state =
        (done, [.triggerProgressImpl done], if done then .finished else .running) := by
      rw [hstate]; rfl
    have ht : C.triggerProgressImpl r (s.object r).fields s.fabric = (done, f, F) := ht
    have hran : runHooks C input r (s.object r) s.fabric (Threads.triggerProgress true done
        (s.wrapped r).shared.state).2.1 = some ({ s.object r with fields := f }, F) := by
      rw [hsection]
      simp [runHooks, runHook, ht]
    refine ⟨_, _, .rank s hlocal hran, hne, ?_, fun q => ?_⟩
    · rw [sys_update, hsection]
      rfl
    · by_cases hq : q = r
      · subst hq
        simp only [Function.update_self]
        exact ⟨trivial, trivial, trivial⟩
      · simp only [Function.update_of_ne hq]
        exact ⟨trivial, trivial, trivial⟩

variable (w) in
theorem engine_run {S : Sys Rank Port Loc Val Fields Out} {th : Thread} (hne : th ≠ user)
    (hout : ∀ r, (s.wrapped r).shared.pc th = .outside) (h : Reaches (C.step input) Background s.sys S) :
    ∃ ls t, Trace (Step C input user w) s ls t ∧ (∀ l ∈ ls, l.background user) ∧ t.sys = S ∧ SameUsers s t := by
  induction h with
  | refl => exact ⟨[], s, .refl s, by simp, rfl, fun r => ⟨rfl, rfl, rfl⟩⟩
  | tail _ hab ih =>
    obtain ⟨ls, t, htr, hls, rfl, hsame⟩ := ih
    obtain ⟨a, hb, ha⟩ := hab
    obtain ⟨l, u, hs, hl, rfl, hsame'⟩ :=
      engine_step w hne (fun r => by rw [(hsame r).2.2]; exact hout r) hb ha
    refine ⟨ls ++ [l], u, htr.snoc hs, ?_, rfl, fun r => ?_⟩
    · intro k hk
      obtain hk | hk := List.mem_append.mp hk
      · exact hls k hk
      · rw [List.mem_singleton.mp hk]; exact hl
    · obtain ⟨h1, h2, h3⟩ := hsame r
      obtain ⟨h1', h2', h3'⟩ := hsame' r
      exact ⟨h1'.trans h1, h2'.trans h2, h3'.trans h3⟩

/-! ## The users -/

/-- No call of a wrapper begins, and none that is not a `waitForCompletion` goes on. -/
def Label.inside : Label Rank Thread Port → Prop
  | .rank _ (.collective (.call _ c _)) => c = .copyOut
  | .rank _ (.collective _) => True
  | .rank _ _ => False
  | .network _ _ => True

omit [DecidableEq Rank] [DecidableEq Thread] [DecidableEq Port] [DecidableEq Loc] in
theorem Label.inside_of_background {l : Label Rank Thread Port} (h : l.background user) : l.inside := by
  cases l with
  | rank r k =>
    cases k with
    | collective l =>
      cases l with
      | triggerProgress => trivial
      | _ => exact h.elim
    | start _ => exact h.elim
    | waitForCompletion => exact h.elim
  | network p i => trivial

omit [DecidableEq Thread] [DecidableEq Port] [DecidableEq Loc] in
theorem countP_of_inside {p : Wrappers.Label Thread → Bool} (hp : ∀ l, p (.collective l) = false)
    {ks : List (Label Rank Thread Port)} (h : ∀ l ∈ ks, l.inside) (r : Rank) :
    (ks.flatMap (Label.localSteps r)).countP p = 0 := by
  refine List.countP_eq_zero.mpr fun k hk => ?_
  obtain ⟨l, hl, hmem⟩ := List.mem_flatMap.mp hk
  have hin := h l hl
  cases l with
  | network p i => cases hmem
  | rank q k' =>
    rw [Label.localSteps] at hmem
    split at hmem
    · obtain rfl := List.mem_singleton.mp hmem
      cases k with
      | collective l => rw [hp l]; exact Bool.false_ne_true
      | start _ => exact hin.elim
      | waitForCompletion => exact hin.elim
    · cases hmem

omit [DecidableEq Thread] [DecidableEq Port] [DecidableEq Loc] in
theorem began_of_inside {ks : List (Label Rank Thread Port)} (h : ∀ l ∈ ks, l.inside) (r : Rank) :
    (ks.flatMap (Label.localSteps r)).countP began = 0 :=
  countP_of_inside (fun _ => rfl) h r

omit [DecidableEq Thread] [DecidableEq Port] [DecidableEq Loc] in
theorem waited_of_inside {ks : List (Label Rank Thread Port)} (h : ∀ l ∈ ks, l.inside) (r : Rank) :
    (ks.flatMap (Label.localSteps r)).countP waited = 0 :=
  countP_of_inside (fun _ => rfl) h r

/-- Rank `r`'s user gets its result by steps of its own. -/
def Finishes (C : Collective Rank Port Loc Val Fields In Out) (input : Rank → Nat → In) (user : Thread)
    (w : Rank → Wrapper Rank) (s : Deployed Rank Thread Port Loc Val Fields Out) (r : Rank) : Prop :=
  ∃ ls t, Trace (Step C input user w) s ls t ∧ (∀ l ∈ ls, l.inside) ∧
    (t.object r).outputs.length = (s.object r).outputs.length + 1 ∧
    ∀ q, q ≠ r → t.wrapped q = s.wrapped q ∧ t.object q = s.object q

/-- A step of rank `r`'s threads that runs no hook. -/
theorem quiet_step {r : Rank} {k : Wrappers.Label Thread} {W : Wrapped Thread}
    (hs : Wrappers.Step user (w r) (s.wrapped r) k W) (hk : k.hooks = []) :
    Step C input user w s (.rank r k) { s with wrapped := Function.update s.wrapped r W } := by
  have hran : runHooks C input r (s.object r) s.fabric k.hooks = some (s.object r, s.fabric) := by
    rw [hk]; rfl
  have h := Step.rank s hs hran
  rwa [Function.update_eq_self] at h

theorem Finishes.of_quiet {r : Rank} {l : Threads.Label Thread} {W : Wrapped Thread}
    (hs : Wrappers.Step user (w r) (s.wrapped r) (.collective l) W) (hk : l.hooks = [])
    (hin : (Label.rank r (.collective l) : Label Rank Thread Port).inside)
    (h : ∀ u : Deployed Rank Thread Port Loc Val Fields Out, u.wrapped r = W → Finishes C input user w u r) :
    Finishes C input user w s r := by
  obtain ⟨ls, t, htr, hls, hlen, hothers⟩ :=
    h { s with wrapped := Function.update s.wrapped r W } (Function.update_self ..)
  refine ⟨_ :: ls, t, htr.cons (quiet_step hs hk), ?_, hlen, fun q hq => ?_⟩
  · intro k hk
    obtain rfl | hk := List.mem_cons.mp hk
    · exact hin
    · exact hls k hk
  · obtain ⟨h1, h2⟩ := hothers q hq
    exact ⟨h1.trans (Function.update_of_ne hq _ _), h2⟩

theorem finishes_copyOut {r : Rank} (hrest : (s.wrapped r).rest = [.call .copyOut])
    (hpc : (s.wrapped r).shared.pc user = .outside) (hst : (s.wrapped r).shared.state = .finished) :
    Finishes C input user w s r := by
  have hlocal : Wrappers.Step user (w r) (s.wrapped r) _ _ :=
    .call (s.wrapped r) hrest (.call (s.wrapped r).shared user .copyOut hpc)
  have hok : (Threads.Guarded.copyOut.run (s.wrapped r).shared.state).1 = .ok .copyOutImpl := by
    rw [hst]; rfl
  have hran : runHooks C input r (s.object r) s.fabric
      (Wrappers.Label.collective (.call user .copyOut
        (Threads.Guarded.copyOut.run (s.wrapped r).shared.state).1)).hooks =
      some ({ s.object r with outputs := (s.object r).outputs ++
        [C.copyOutImpl r (s.object r).fields s.fabric] }, s.fabric) := by
    rw [hok]; rfl
  refine ⟨_, _, .single (.rank s hlocal hran), ?_, ?_, fun q hq => ?_⟩
  · intro k hk
    rw [List.mem_singleton.mp hk]
    rfl
  · simp only [Function.update_self, List.length_append, List.length_singleton]
  · exact ⟨Function.update_of_ne hq _ _, Function.update_of_ne hq _ _⟩

theorem finishes_loop {r : Rank} {b : Bool} (hrest : (s.wrapped r).rest = Wrappers.waitAndCopyOut)
    (hpc : (s.wrapped r).shared.pc user = .loop b) (hst : (s.wrapped r).shared.state = .finished) :
    Finishes C input user w s r := by
  have hstop : b = true ∨ (s.wrapped r).shared.state ≠ .running := .inr (by rw [hst]; decide)
  refine .of_quiet (.leave (s.wrapped r) hrest (.leave (s.wrapped r).shared user b hpc hstop)) rfl trivial ?_
  intro u hu
  exact finishes_copyOut (by rw [hu]) (by rw [hu, Shared.goto_pc]) (by rw [hu]; exact hst)

theorem finishes_body {r : Rank} (hrest : (s.wrapped r).rest = Wrappers.waitAndCopyOut)
    (hpc : (s.wrapped r).shared.pc user = .body) (hst : (s.wrapped r).shared.state = .finished) :
    Finishes C input user w s r := by
  have hlocal : Wrappers.Step user (w r) (s.wrapped r) _ _ :=
    .progress (s.wrapped r) hrest hpc (.progress (s.wrapped r).shared user false false hpc)
  refine .of_quiet hlocal rfl trivial ?_
  intro u hu
  exact finishes_loop (b := false) (by rw [hu]; exact hrest) (by rw [hu, Shared.goto_pc]; rfl) (by rw [hu]; exact hst)

theorem finishes_enter {r : Rank} (hrest : (s.wrapped r).rest = Wrappers.waitAndCopyOut)
    (hpc : (s.wrapped r).shared.pc user = .outside) (hst : (s.wrapped r).shared.state = .finished) :
    Finishes C input user w s r := by
  refine .of_quiet (.enter (s.wrapped r) hrest (.waitForCompletion (s.wrapped r).shared user hpc)) rfl trivial ?_
  intro u hu
  exact finishes_loop (b := false) (by rw [hu]; exact hrest) (by rw [hu, Shared.goto_pc]) (by rw [hu]; exact hst)

/-- Where a user thread is that still has to copy out. -/
theorem place_of_collecting {turn : Wrappers.Turn} {rest : List Wrappers.Op} {pc : Pc} {a : State}
    (h : Phase turn rest pc a) (hc : .call .copyOut ∈ rest) :
    (a = .running ∨ a = .finished) ∧
      (rest = [.call .copyOut] ∧ pc = .outside ∨
        rest = Wrappers.waitAndCopyOut ∧ (pc = .outside ∨ pc = .body ∨ ∃ b, pc = .loop b)) := by
  cases h with
  | constructing | idle | copyIn | start | started _ => simp at hc
  | waiting ha => exact ⟨ha, .inr ⟨rfl, .inl rfl⟩⟩
  | loop ha => exact ⟨ha, .inr ⟨rfl, .inr (.inr ⟨_, rfl⟩)⟩⟩
  | completed => exact ⟨.inr rfl, .inr ⟨rfl, .inr (.inr ⟨_, rfl⟩)⟩⟩
  | body ha => exact ⟨ha, .inr ⟨rfl, .inr (.inl rfl)⟩⟩
  | copyOut => exact ⟨.inr rfl, .inl ⟨rfl, rfl⟩⟩

/-- A user thread that waits for a finished collective can return. -/
theorem finishes {r : Rank} (hphase : (s.wrapped r).Phase user) (hcol : collecting (s.wrapped r) = 1)
    (hst : (s.wrapped r).shared.state = .finished) : Finishes C input user w s r := by
  have hmem : .call .copyOut ∈ (s.wrapped r).rest := by
    unfold collecting at hcol
    by_contra hno
    rw [if_neg hno] at hcol
    cases hcol
  obtain ⟨-, ⟨hrest, hpc⟩ | ⟨hrest, hpc | hpc | ⟨b, hpc⟩⟩⟩ := place_of_collecting hphase hmem
  · exact finishes_copyOut hrest hpc hst
  · exact finishes_enter hrest hpc hst
  · exact finishes_body hrest hpc hst
  · exact finishes_loop hrest hpc hst

/-! ## All ranks -/

/-- Who has called `waitForCompletion` for run `k` has started it. -/
theorem started_of_waited (h : Trace (Step C input user w) (.constructed C m) ls s) {k : Nat} {r : Rank}
    (hk : k < (ls.flatMap (Label.localSteps r)).countP waited) : Started k (s.sys.node r) := by
  have hw := (counts h r).waited
  show k < (s.object r).outputs.length ∨ k = (s.object r).outputs.length ∧ _
  unfold collecting at hw
  split at hw
  · next hmem =>
    obtain ⟨hst, -⟩ := place_of_collecting (phase h r) hmem
    rcases Nat.lt_or_ge k (s.object r).outputs.length with hlt | hge
    · exact .inl hlt
    · exact .inr ⟨by omega, hst⟩
  · exact .inl (by omega)

/-- Once run `k` is complete everywhere, the waiting ranks return one after the other. -/
theorem results_of_completed [Finite Rank] (h : Trace (Step C input user w) (.constructed C m) ls s) {k : Nat}
    (hwait : ∀ r, k < (ls.flatMap (Label.localSteps r)).countP waited) (hc : ∀ r, Completed k (s.sys.node r)) :
    ∃ ks t, Trace (Step C input user w) s ks t ∧ (∀ l ∈ ks, l.inside) ∧
      ∀ r, k < (t.object r).outputs.length := by
  have := Fintype.ofFinite Rank
  suffices hone : ∀ A : Finset Rank, ∃ ks t, Trace (Step C input user w) s ks t ∧ (∀ l ∈ ks, l.inside) ∧
      (∀ r ∈ A, k < (t.object r).outputs.length) ∧
      ∀ r, r ∉ A → t.wrapped r = s.wrapped r ∧ t.object r = s.object r by
    obtain ⟨ks, t, htr, hks, hall, -⟩ := hone Finset.univ
    exact ⟨ks, t, htr, hks, fun r => hall r (Finset.mem_univ r)⟩
  intro A
  induction A using Finset.induction_on with
  | empty => exact ⟨[], s, .refl s, by simp, by simp, fun r _ => ⟨rfl, rfl⟩⟩
  | @insert r A hr ih =>
    obtain ⟨ks, t, htr, hks, hA, hout⟩ := ih
    obtain ⟨hwr, hob⟩ := hout r hr
    rcases hc r with hlt | ⟨hk, hst⟩
    · refine ⟨ks, t, htr, hks, fun q hq => ?_, fun q hq => hout q fun hm => hq (Finset.mem_insert_of_mem hm)⟩
      obtain rfl | hq := Finset.mem_insert.mp hq
      · rw [hob]; exact hlt
      · exact hA q hq
    · have hcol : collecting (s.wrapped r) = 1 := by
        have hw := (counts h r).waited
        have := hwait r
        have hk : k = (s.object r).outputs.length := hk
        unfold collecting at hw ⊢
        split at hw
        · next hm => rw [if_pos hm]
        · omega
      obtain ⟨ks', u, htr', hks', hlen, hothers⟩ : Finishes C input user w t r :=
        finishes (by rw [hwr]; exact phase h r) (by rw [hwr]; exact hcol) (by rw [hwr]; exact hst)
      refine ⟨ks ++ ks', u, htr.append htr', ?_, fun q hq => ?_, fun q hq => ?_⟩
      · intro l hl
        obtain hl | hl := List.mem_append.mp hl
        · exact hks l hl
        · exact hks' l hl
      · by_cases hqr : q = r
        · rw [hqr, hlen, hob]
          have hk : k = (s.object r).outputs.length := hk
          omega
        · rw [(hothers q hqr).2]
          exact hA q ((Finset.mem_insert.mp hq).resolve_left hqr)
      · have hqr : q ≠ r := fun he => hq (he ▸ Finset.mem_insert_self r A)
        obtain ⟨h1, h2⟩ := hothers q hqr
        obtain ⟨h3, h4⟩ := hout q fun hm => hq (Finset.mem_insert_of_mem hm)
        exact ⟨h1.trans h3, h2.trans h4⟩

/-- **No deadlock**: if every rank has called `waitForCompletion` for its `k`-th
start, then without any further call of a wrapper all of them can return. -/
theorem all_return [Finite Rank]
    {guard : Sys Rank Port Loc Val Fields Out → Action Rank Port → Prop} {remaining : Rank → Node Fields Out → Nat}
    (hends : C.Ends input m guard remaining) (h : Trace (Step C input user w) (.constructed C m) ls s)
    (hreach : C.Reach input m guard s.sys) {th : Thread} (hne : th ≠ user) {k : Nat}
    (hwait : ∀ r, k < (ls.flatMap (Label.localSteps r)).countP waited) :
    ∃ ks t, Trace (Step C input user w) s ks t ∧ (∀ l ∈ ks, l.inside) ∧
      ∀ r, k < (t.object r).outputs.length := by
  obtain ⟨S, hS, hc⟩ := hends.completes hreach fun r => started_of_waited h (hwait r)
  obtain ⟨ks, t, htr, hks, rfl, -⟩ :=
    engine_run w hne (fun r => engine_outside ((refines_wrapper r).trace h) hne) hS
  obtain ⟨ks', u, htr', hks', hres⟩ := results_of_completed (h.append htr) (k := k)
    (fun r => by
      rw [List.flatMap_append, List.countP_append]
      exact Nat.lt_add_right _ (hwait r)) hc
  refine ⟨ks ++ ks', u, htr.append htr', fun l hl => ?_, hres⟩
  obtain hl | hl := List.mem_append.mp hl
  · exact Label.inside_of_background (hks l hl)
  · exact hks' l hl

/-! ## Any number of runs -/

/-- Outside a call, with nothing pending. -/
structure Idle (user : Thread) (W : Wrapped Thread) : Prop where
  rest : W.rest = []
  next : W.next = .start
  pc : W.shared.pc user = .outside

omit [DecidableEq Thread] in
theorem idle_of_phase {W : Wrapped Thread} (h : W.Phase user) (hp : pending W = 0)
    (hst : W.shared.state ≠ .uninitialized) : Idle user W := by
  have hidle : ∀ {turn : Wrappers.Turn} {rest : List Wrappers.Op} {pc : Pc} {a : State}, Phase turn rest pc a →
      (if .call .copyOut ∈ rest then 1 else 0) + (if turn = .waitForCompletion then 1 else 0) = 0 →
      a ≠ .uninitialized → rest = [] ∧ turn = .start ∧ pc = .outside := by
    intro turn rest pc a h hp ha
    cases h with
    | constructing => exact absurd rfl ha
    | idle => exact ⟨rfl, rfl, rfl⟩
    | copyIn | start | started | waiting | loop | completed | body | copyOut => simp at hp
  obtain ⟨hrest, hnext, hpc⟩ := hidle h hp hst
  exact ⟨hrest, hnext, hpc⟩

/-- Rank `r`'s user goes on alone. -/
def Alone (C : Collective Rank Port Loc Val Fields In Out) (input : Rank → Nat → In) (user : Thread)
    (w : Rank → Wrapper Rank) (s : Deployed Rank Thread Port Loc Val Fields Out) (r : Rank)
    (ks : List (Wrappers.Label Thread)) (t : Deployed Rank Thread Port Loc Val Fields Out) : Prop :=
  Trace (Step C input user w) s (ks.map (.rank r)) t ∧ ∀ q, q ≠ r → t.wrapped q = s.wrapped q

theorem Alone.trans {r : Rank} {ks ks' : List (Wrappers.Label Thread)}
    {u : Deployed Rank Thread Port Loc Val Fields Out} (h : Alone C input user w s r ks t)
    (h' : Alone C input user w t r ks' u) : Alone C input user w s r (ks ++ ks') u := by
  refine ⟨?_, fun q hq => (h'.2 q hq).trans (h.2 q hq)⟩
  rw [List.map_append]
  exact h.1.append h'.1

variable (C input w) in
theorem alone_quiet {r : Rank} {k : Wrappers.Label Thread} {W : Wrapped Thread}
    (hs : Wrappers.Step user (w r) (s.wrapped r) k W) (hk : k.hooks = []) :
    ∃ t, Alone C input user w s r [k] t ∧ t.wrapped r = W :=
  ⟨_, ⟨.single (quiet_step hs hk), fun _ hq => Function.update_of_ne hq _ _⟩, Function.update_self ..⟩

variable (C input w) in
/-- A locked section that is due can run. -/
theorem alone_call {r : Rank} {c : Threads.Guarded} {rest : List Wrappers.Op} (hphase : (s.wrapped r).Phase user)
    (hpc : (s.wrapped r).shared.pc user = .outside) (hrest : (s.wrapped r).rest = .call c :: rest) :
    ∃ k t, Alone C input user w s r [k] t ∧ waited k = false ∧ began k = false ∧ (t.wrapped r).rest = rest ∧
      (t.wrapped r).next = (s.wrapped r).next ∧ (t.wrapped r).shared.pc user = .outside := by
  have hsection := hphase
  unfold Wrapped.Phase at hsection
  rw [hrest] at hsection
  obtain ⟨hook, hok, -⟩ := hsection.call
  have hlocal : Wrappers.Step user (w r) (s.wrapped r) _ _ :=
    .call (s.wrapped r) hrest (.call (s.wrapped r).shared user c hpc)
  have hsome : ∃ o F, runHook C input r (s.object r) s.fabric hook = some (o, F) := by
    cases c <;> (obtain ⟨-, rfl, -⟩ := Threads.guarded_ok hok; exact ⟨_, _, rfl⟩)
  obtain ⟨o, F, hrun⟩ := hsome
  have hran : runHooks C input r (s.object r) s.fabric
      (Wrappers.Label.collective (.call user c (c.run (s.wrapped r).shared.state).1)).hooks = some (o, F) := by
    rw [hok]
    simpa [runHooks, Wrappers.Label.hooks, Threads.Label.hooks] using hrun
  refine ⟨_, _, ⟨.single (.rank s hlocal hran), fun q hq => Function.update_of_ne hq _ _⟩, rfl, rfl, ?_, ?_, ?_⟩
  · simp only [Function.update_self, hok, Wrappers.afterCall]
  · simp only [Function.update_self]
  · simp only [Function.update_self, hpc]

omit [DecidableEq Port] [DecidableEq Loc] in
/-- Every wrapper accepts one of its overloads of `start`. -/
theorem exists_accepted (v : Wrapper Rank) : .ok Wrappers.copyInAndStart ∈ v.starts := by
  cases v with
  | allreduce => exact List.mem_singleton_self _
  | allgatherv => exact List.mem_singleton_self _
  | broadcast rank root_rank =>
    by_cases hr : rank = root_rank
    · exact List.mem_cons.mpr (.inl (if_neg (not_not.mpr hr)).symm)
    · exact List.mem_cons_of_mem _ (List.mem_singleton.mpr (if_neg hr).symm)

/-- The constructor waits for nobody. -/
theorem alone_constructs (h : Trace (Step C input user w) (.constructed C m) ls s) {r : Rank}
    (hr : s.wrapped r = .constructed) :
    ∃ ks t, Alone C input user w s r ks t ∧
      (ks.countP waited = 0 ∧ ks.countP began = 0) ∧ Idle user (t.wrapped r) := by
  obtain ⟨k, t, ht, hw, hb, hrest, hnext, hpc⟩ := alone_call C input w (phase h r)
    (by rw [hr]; rfl) (show (s.wrapped r).rest = [.call .waitForSetup] by rw [hr]; rfl)
  refine ⟨[k], t, ht, ?_, hrest, ?_, hpc⟩
  · simp only [List.countP_cons, List.countP_nil, hw, hb]
    exact ⟨rfl, rfl⟩
  · rw [hnext, hr]
    rfl

/-- From one run to the wait of the next a rank waits for nobody. -/
theorem alone_waits (h : Trace (Step C input user w) (.constructed C m) ls s) {r : Rank}
    (hr : Idle user (s.wrapped r)) :
    ∃ ks t, Alone C input user w s r ks t ∧ ks.countP waited = 1 ∧ ks.countP began = 1 := by
  have hstart : Wrappers.Step user (w r) (s.wrapped r) _ _ :=
    .start (s.wrapped r) hr.rest hr.next (exists_accepted (w r))
  obtain ⟨s₁, h₁, hW₁⟩ := alone_quiet C input w hstart rfl
  have htr₁ := h.append h₁.1
  obtain ⟨k₂, s₂, h₂, hw₂, hb₂, hrest₂, hnext₂, hpc₂⟩ := alone_call C input w (phase htr₁ r)
    (by rw [hW₁]; exact hr.pc) (show (s₁.wrapped r).rest = [.call .copyIn, .call .start] by rw [hW₁]; rfl)
  have htr₂ := htr₁.append h₂.1
  obtain ⟨k₃, s₃, h₃, hw₃, hb₃, hrest₃, hnext₃, -⟩ := alone_call C input w (phase htr₂ r) hpc₂ hrest₂
  have hwait : Wrappers.Step user (w r) (s₃.wrapped r) _ _ :=
    .waitForCompletion (s₃.wrapped r) hrest₃ (by rw [hnext₃, hnext₂, hW₁]; rfl)
  obtain ⟨s₄, h₄, -⟩ := alone_quiet C input w hwait rfl
  refine ⟨_, s₄, ((h₁.trans h₂).trans h₃).trans h₄, ?_, ?_⟩
  · simp only [List.cons_append, List.nil_append, List.countP_cons, List.countP_nil, hw₂, hw₃]; rfl
  · simp only [List.cons_append, List.nil_append, List.countP_cons, List.countP_nil, hb₂, hb₃]; rfl

omit [DecidableEq Thread] [DecidableEq Port] [DecidableEq Loc] in
theorem localSteps_map (r q : Rank) (ks : List (Wrappers.Label Thread)) :
    (ks.map (Label.rank r : _ → Label Rank Thread Port)).flatMap (Label.localSteps q) = if r = q then ks else [] := by
  induction ks with
  | nil => simp
  | cons k ks ih =>
    rw [List.map_cons, List.flatMap_cons, ih, Label.localSteps]
    split <;> rfl

/-- What every rank can do alone, all ranks can do. -/
theorem exists_all [Finite Rank] {P : Wrapped Thread → Prop} {Q : List (Wrappers.Label Thread) → Wrapped Thread → Prop}
    (alone : ∀ ls s, Trace (Step C input user w) (.constructed C m) ls s → ∀ r, P (s.wrapped r) →
      ∃ ks t, Alone C input user w s r ks t ∧ Q ks (t.wrapped r))
    (h : Trace (Step C input user w) (.constructed C m) ls s) (hs : ∀ r, P (s.wrapped r)) :
    ∃ ks t, Trace (Step C input user w) s ks t ∧ ∀ r, Q (ks.flatMap (Label.localSteps r)) (t.wrapped r) := by
  have := Fintype.ofFinite Rank
  suffices hone : ∀ A : Finset Rank, ∃ ks t, Trace (Step C input user w) s ks t ∧
      (∀ r ∈ A, Q (ks.flatMap (Label.localSteps r)) (t.wrapped r)) ∧
      ∀ r, r ∉ A → t.wrapped r = s.wrapped r ∧ ks.flatMap (Label.localSteps r) = [] by
    obtain ⟨ks, t, htr, hall, -⟩ := hone Finset.univ
    exact ⟨ks, t, htr, fun r => hall r (Finset.mem_univ r)⟩
  intro A
  induction A using Finset.induction_on with
  | empty => exact ⟨[], s, .refl _, by simp, fun r _ => ⟨rfl, rfl⟩⟩
  | @insert r A hr ih =>
    obtain ⟨ks, t, htr, hA, hout⟩ := ih
    obtain ⟨hsame, hnil⟩ := hout r hr
    obtain ⟨ks', u, ⟨htr', hothers⟩, hQ⟩ := alone _ t (h.append htr) r (by rw [hsame]; exact hs r)
    refine ⟨_, u, htr.append htr', fun q hq => ?_, fun q hq => ?_⟩
    · rw [List.flatMap_append, localSteps_map]
      by_cases hqr : q = r
      · subst hqr
        rw [hnil, if_pos rfl, List.nil_append]
        exact hQ
      · rw [if_neg (Ne.symm hqr), List.append_nil, hothers q hqr]
        exact hA q ((Finset.mem_insert.mp hq).resolve_left hqr)
    · have hqr : q ≠ r := fun he => hq (he ▸ Finset.mem_insert_self r A)
      obtain ⟨h1, h2⟩ := hout q fun hm => hq (Finset.mem_insert_of_mem hm)
      rw [List.flatMap_append, h2, localSteps_map, if_neg (Ne.symm hqr), hothers q hqr]
      exact ⟨h1, rfl⟩

/-- All ranks have brought `k` runs to their results and are between two calls. -/
structure Rounds (user : Thread) (k : Nat) (ls : List (Label Rank Thread Port))
    (s : Deployed Rank Thread Port Loc Val Fields Out) : Prop where
  idle : ∀ r, Idle user (s.wrapped r)
  results : ∀ r, (s.object r).outputs.length = k
  began : ∀ r, (ls.flatMap (Label.localSteps r)).countP began = k

theorem Rounds.waited {k : Nat} (h : Rounds user k ls s) (htr : Trace (Step C input user w) (.constructed C m) ls s)
    (r : Rank) : (ls.flatMap (Label.localSteps r)).countP waited = k := by
  rw [← length_outputs_of_idle htr (h.idle r).rest]
  exact h.results r

theorem exists_constructed [Finite Rank] (C : Collective Rank Port Loc Val Fields In Out) (input : Rank → Nat → In)
    (m : Loc → Val) (user : Thread) (w : Rank → Wrapper Rank) :
    ∃ ls s, Trace (SeparatedStep C input user w) (.constructed C m) ls s ∧ Rounds user 0 ls s := by
  obtain ⟨ks, t, htr, hall⟩ := exists_all (P := fun W => W = .constructed)
    (Q := fun ks W => (ks.countP waited = 0 ∧ ks.countP began = 0) ∧ Idle user W)
    (fun (ls : List (Label Rank Thread Port)) s (h : Trace (Step C input user w) (.constructed C m) ls s) r hr =>
      alone_constructs h hr) (.refl _) fun _ => rfl
  have hsep : Trace (SeparatedStep C input user w) (.constructed C m) ([] ++ ks) t :=
    separated_append (.refl _) htr fun r q => by
      rw [List.nil_append, (hall r).1.2]
      exact Nat.zero_le _
  refine ⟨ks, t, hsep, fun r => (hall r).2, fun r => ?_, fun r => (hall r).1.2⟩
  rw [length_outputs_of_idle htr (hall r).2.rest]
  exact (hall r).1.1

/-- All ranks get to the wait of the next run. -/
theorem Rounds.waits [Finite Rank] {k : Nat} (h : Rounds user k ls s)
    (htr : Trace (SeparatedStep C input user w) (.constructed C m) ls s) :
    ∃ ks t, Trace (Step C input user w) s ks t ∧
      Trace (SeparatedStep C input user w) (.constructed C m) (ls ++ ks) t ∧
      ∀ r, ((ls ++ ks).flatMap (Label.localSteps r)).countP Deployment.waited = k + 1 ∧
        ((ls ++ ks).flatMap (Label.localSteps r)).countP Deployment.began = k + 1 := by
  have hstep := trace_of_separated htr
  obtain ⟨ks, t, hks, hwait⟩ := exists_all (P := Idle user)
    (Q := fun ks _ => ks.countP Deployment.waited = 1 ∧ ks.countP Deployment.began = 1)
    (fun (ls : List (Label Rank Thread Port)) s (h : Trace (Step C input user w) (.constructed C m) ls s) r hr =>
      alone_waits h hr) hstep h.idle
  have hcounts : ∀ r, ((ls ++ ks).flatMap (Label.localSteps r)).countP Deployment.waited = k + 1 ∧
      ((ls ++ ks).flatMap (Label.localSteps r)).countP Deployment.began = k + 1 := fun r => by
    rw [List.flatMap_append, List.countP_append, List.countP_append, h.waited hstep, h.began, (hwait r).1, (hwait r).2]
    exact ⟨rfl, rfl⟩
  exact ⟨ks, t, hks, separated_append htr hks fun r q => by rw [(hcounts r).2, h.results q], hcounts⟩

/-- **A group that keeps its runs apart can go on for ever.** -/
theorem exists_rounds [Finite Rank] {guard : Sys Rank Port Loc Val Fields Out → Action Rank Port → Prop}
    {remaining : Rank → Node Fields Out → Nat} (hends : C.Ends input m guard remaining)
    (hreach : ∀ ls s, Trace (SeparatedStep C input user w) (.constructed C m) ls s → C.Reach input m guard s.sys)
    {th : Thread} (hne : th ≠ user) (k : Nat) :
    ∃ ls s, Trace (SeparatedStep C input user w) (.constructed C m) ls s ∧ Rounds user k ls s := by
  induction k with
  | zero => exact exists_constructed C input m user w
  | succ k ih =>
    obtain ⟨ls, s, htr, hk⟩ := ih
    obtain ⟨ks, t, hks, htr₁, hcounts₁⟩ := hk.waits htr
    have hstep := (trace_of_separated htr).append hks
    obtain ⟨ks', u, hks', hin, hres⟩ := all_return hends hstep (hreach _ _ htr₁) hne (k := k) fun r => by
      rw [(hcounts₁ r).1]
      exact Nat.lt_succ_self k
    have hbegan : ∀ r, ((ls ++ (ks ++ ks')).flatMap (Label.localSteps r)).countP Deployment.began = k + 1 := fun r => by
      rw [← List.append_assoc, List.flatMap_append, List.countP_append, (hcounts₁ r).2, began_of_inside hin, Nat.add_zero]
    have htr₂ := separated_append htr (hks.append hks') fun r q => by rw [hbegan r, hk.results q]
    have hstep₂ := trace_of_separated htr₂
    have hcounts₂ : ∀ r, (u.object r).outputs.length = k + 1 ∧ pending (u.wrapped r) = 0 := fun r => by
      have hw := (counts hstep₂ r).waited
      have hb := (counts hstep₂ r).began
      rw [← List.append_assoc, List.flatMap_append, List.countP_append, (hcounts₁ r).1, waited_of_inside hin] at hw
      rw [hbegan r] at hb
      have := hres r
      unfold pending
      omega
    refine ⟨_, u, htr₂, fun r => idle_of_phase (phase hstep₂ r) (hcounts₂ r).2 fun hst => ?_,
      fun r => (hcounts₂ r).1, hbegan⟩
    have hno := outputs_of_uninitialized hstep₂ r hst
    have := (hcounts₂ r).1
    rw [hno] at this
    cases this

end GaspiCxx.Collectives.Deployment
