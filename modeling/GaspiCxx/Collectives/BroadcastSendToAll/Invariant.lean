import GaspiCxx.Collectives.BroadcastSendToAll.Model
import GaspiCxx.OneSided.Ledger

/-!
# The invariant of the direct broadcast

The root looks at its slots in any order, so the acknowledgements it has seen
are counted per rank (`acks`). They keep every channel to one message. What they
do not do is protect the target buffer of a rank that has acknowledged but not
copied out: `ahead`, the root is in no later run than such a rank, is kept only
by a root that waits for it (`WaitsForAll`).
-/

namespace GaspiCxx.Collectives.BroadcastSendToAll

open OneSided SingleSided

variable {n number_elements : Nat} {T : Type} (root : Fin n)
  (input : Fin n → Nat → Vec number_elements T)

/-- The runs a rank has started. -/
def started {Out : Type} (N : Node Fields Out) : Nat :=
  N.run + if N.state = .running ∨ N.state = .finished then 1 else 0

/-- The runs in which `triggerProgress` has returned true. -/
def completed {Out : Type} (N : Node Fields Out) : Nat := N.run + if N.state = .finished then 1 else 0

def sent (s : GroupSys number_elements n T) : Port n → Nat
  | .target r => if r = root then 0 else started (s.node root)
  | .source r => if r = root then 0 else completed (s.node r)

def taken (s : GroupSys number_elements n T) (acks : Fin n → Nat) : Port n → Nat
  | .target r => if r = root then 0 else completed (s.node r)
  | .source r => if r = root then 0 else acks r

/-- What the `k`-th transfer to a target buffer has to bring. -/
def Good : Port n → Nat → Vec number_elements T → Prop
  | .source _, _, _ => True
  | .target _, k, v => v = input root k

/-- The input of the current run has been copied in. -/
def Active (N : Node Fields (Vec number_elements T)) : Prop :=
  N.state = .ready ∨ N.state = .running ∨ N.state = .finished

/-- The ranks whose `k`-th acknowledgement the root has not seen. -/
def missing (acks : Fin n → Nat) (k : Nat) : Finset (Fin n) :=
  Finset.univ.filter fun i => i ≠ root ∧ acks i = k

/-- The root's counters. -/
structure RootHolds (N : Node Fields (Vec number_elements T)) (acks : Fin n → Nat) : Prop where
  lower : ∀ r, r ≠ root → completed N ≤ acks r
  upper : ∀ r, r ≠ root → acks r ≤ started N
  waiting : N.state = .running → N.fields.transfers_in_progress = (missing root acks N.run).card

structure Holds (s : GroupSys number_elements n T) (I : Channels (Port n) (Loc n) (Vec number_elements T))
    (acks : Fin n → Nat) : Prop where
  tracks : Tracks (wiring number_elements n) (Good root input) s.fabric I (sent root s) (taken root s acks)
  counters : RootHolds root (s.node root) acks
  own : Active (s.node root) → I.mem .source = input root (s.node root).run
  received : ∀ r, r ≠ root → (s.node r).state = .finished → I.mem (.target r) = input root (s.node r).run
  ahead : ∀ r, r ≠ root → started (s.node root) ≤ (s.node r).run + 1
  outputs : ∀ r k out, (s.node r).outputs[k]? = some out → out = input root k

/-- The root starts a run only when every other rank has copied out the one before. -/
def WaitsForAll (s : GroupSys number_elements n T) : Action (Fin n) (Port n) → Prop
  | .call r .start => r = root → ∀ q, q ≠ root → (s.node root).run ≤ (s.node q).run
  | _ => True

variable {root input} {s : GroupSys number_elements n T}
  {I I' : Channels (Port n) (Loc n) (Vec number_elements T)} {acks acks' : Fin n → Nat} {r : Fin n}
  {N : Node Fields (Vec number_elements T)} {F : Net number_elements n T}

theorem started_le (N : Node Fields (Vec number_elements T)) : started N ≤ completed N + 1 := by
  unfold started completed
  split <;> split <;> omega

/-! ## The root's loops -/

/-- The root posts to every rank of a list. -/
theorem post_all {l : List (Fin n)} {sent taken : Port n → Nat} (hl : l.Nodup)
    (h : Tracks (wiring number_elements n) (Good root input) F I sent taken)
    (hfree : ∀ r ∈ l, sent (.target r) = taken (.target r))
    (hgood : ∀ r ∈ l, I.mem .source = input root (sent (.target r))) :
    ∃ I', I'.mem = I.mem ∧ Tracks (wiring number_elements n) (Good root input)
      (l.foldl (fun F i => initTransfer (wiring number_elements n) F (.source i)) F) I'
      (fun p => sent p + if ∃ r ∈ l, p = .target r then 1 else 0) taken := by
  induction l generalizing F I sent with
  | nil => exact ⟨I, rfl, h.recount (by simp) fun _ => rfl⟩
  | cons r l ih =>
    obtain ⟨hr, hl⟩ := List.nodup_cons.mp hl
    have hrest : ∀ q ∈ l, bump sent (.target r) (.target q) = sent (.target q) := by
      intro q hq
      rw [bump_apply, if_neg (by rintro ⟨⟩; exact hr hq), Nat.add_zero]
    have hpost : Tracks (wiring number_elements n) (Good root input)
        (initTransfer (wiring number_elements n) F (.source r)) (I.post (wiring number_elements n) (.target r))
        (bump sent (.target r)) taken := by
      refine h.post (hfree r List.mem_cons_self) (fun _ => by simp [wiring]) (fun _ q hq _ => ?_) (fun _ q hq hlt => ?_)
        (fun _ q hq _ => ?_) (fun _ => hgood r List.mem_cons_self)
      · cases q with
        | source => simp [wiring] at hq
        | target q => simp [wiring]
      · cases q with
        | source => simp [wiring] at hq
        | target q =>
          rintro ⟨⟩
          have := hfree r List.mem_cons_self
          omega
      · cases q with
        | source => simp [wiring] at hq
        | target q => simp [wiring]
    obtain ⟨I', hmem, ht⟩ := ih hl hpost
      (fun q hq => by rw [hrest q hq]; exact hfree q (List.mem_cons_of_mem _ hq))
      (fun q hq => by rw [hrest q hq]; exact hgood q (List.mem_cons_of_mem _ hq))
    refine ⟨I', hmem, ht.recount (fun p => ?_) fun _ => rfl⟩
    rw [bump_apply]
    by_cases hp : p = .target r
    · subst hp
      simp [hr]
    · simp [hp]

/-- The root looks at the acknowledgements of a list of ranks. -/
theorem check_all {l : List (Fin n)} {k t : Nat} (hl : ∀ r ∈ l, r ≠ root)
    (h : Tracks (wiring number_elements n) (Good root input) F I (sent root s) (taken root s acks))
    (hle : ∀ r, r ≠ root → k ≤ acks r) (hsent : ∀ r, r ≠ root → completed (s.node r) ≤ k + 1)
    (ht : t = (missing root acks k).card) :
    ∃ I' acks', I'.mem = I.mem ∧ Tracks (wiring number_elements n) (Good root input)
      (l.foldl checkSource (t, F)).2 I' (sent root s) (taken root s acks') ∧
      Calm F (l.foldl checkSource (t, F)).2 (taken root s acks) (taken root s acks') ∧
      (∀ r, r ≠ root → k ≤ acks' r ∧ acks' r ≤ max (acks r) (k + 1)) ∧
      (l.foldl checkSource (t, F)).1 = (missing root acks' k).card := by
  induction l generalizing F I acks t with
  | nil => exact ⟨I, acks, rfl, h, .refl _ _, fun r hr => ⟨hle r hr, Nat.le_max_left ..⟩, ht⟩
  | cons r l ih =>
    have hr := hl r List.mem_cons_self
    have hl' := fun q hq => hl q (List.mem_cons_of_mem r hq)
    rw [List.foldl_cons]
    cases hs : F.slot (.source r) with
    | false =>
      rw [checkSource, checkForTransferAck_clear hs]
      exact ih hl' h hle ht
    | true =>
      obtain ⟨v, -, -, htake⟩ := h.take hs
      have hlt := h.lt_of_slot hs
      simp only [sent, taken, if_neg hr] at hlt
      have hk : acks r = k := by have := hle r hr; have := hsent r hr; omega
      have hmem : (I.take (wiring number_elements n) (.source r) v).mem = I.mem := by
        simp [Channels.take, wiring]
      have hcard : t - 1 = (missing root (bump acks r) k).card := by
        have herase : missing root (bump acks r) k = (missing root acks k).erase r := by
          ext q
          simp only [missing, Finset.mem_filter, Finset.mem_univ, true_and, Finset.mem_erase, bump_apply]
          by_cases hq : q = r
          · subst hq; simp [hk]
          · simp [hq]
        rw [herase, Finset.card_erase_of_mem (by simp [missing, hr, hk]), ht]
      rw [checkSource, checkForTransferAck_set hs]
      have hbump : ∀ p, taken root s (bump acks r) p = bump (taken root s acks) (.source r) p := by
        intro p
        cases p with
        | target q => simp [taken, bump_apply]
        | source q =>
          simp only [taken, bump_apply, Port.source.injEq]
          by_cases hq : q = r
          · subst hq; simp [hr]
          · simp [hq]
      obtain ⟨I', acks', hmem', ht', hcalm, hle', hc'⟩ := ih hl' (htake.recount (fun _ => rfl) hbump)
        (fun q hq => Nat.le_trans (hle q hq) (by rw [bump_apply]; omega)) hcard
      refine ⟨I', acks', hmem'.trans hmem, ht', ((Calm.reset hs _).recount hbump).trans hcalm,
        fun q hq => ⟨(hle' q hq).1, ?_⟩, hc'⟩
      have := (hle' q hq).2
      rw [bump_apply] at this
      by_cases hqr : q = r
      · subst hqr; simp only [if_true] at this; omega
      · simpa [hqr] using this

namespace Holds

/-! ## Causality -/

section

variable (h : Holds root input s I acks) (hr : r ≠ root)
include h hr

theorem completed_le : completed (s.node r) ≤ started (s.node root) := by
  simpa [sent, taken, hr] using h.tracks.taken_le (.target r)

theorem acks_le : acks r ≤ completed (s.node r) := by
  simpa [sent, taken, hr] using h.tracks.taken_le (.source r)

/-- Nobody writes to the target buffer of a rank that has completed its run. -/
theorem mem_target (hs : (s.node r).state = .finished) : s.fabric.mem (.target r) = I.mem (.target r) := by
  refine h.tracks.mem_eq fun q hq hlt => ?_
  cases q with
  | source => simp [wiring] at hq
  | target q =>
    rintro ⟨⟩
    have := h.ahead r hr
    simp only [sent, taken, if_neg hr, completed, hs, if_true] at hlt
    omega

end

theorem mem_source (h : Holds root input s I acks) : s.fabric.mem .source = I.mem .source := by
  refine h.tracks.mem_eq fun q hq _ => ?_
  cases q with
  | source => simp [wiring] at hq
  | target q => simp [wiring]

/-! ## Replacing one rank's object -/

theorem initial (m : Loc n → Vec number_elements T) :
    Holds root input ((broadcast number_elements root T).initial m) { mem := m, msg := fun _ => none }
      (fun _ => 0) where
  tracks := (Tracks.quiet _ _ m).recount
    (fun p => by cases p <;> simp [sent, started, completed, Collective.initial, Node.run])
    (fun p => by cases p <;> simp [taken, completed, Collective.initial, Node.run])
  counters := ⟨fun r _ => by simp [completed, Collective.initial, Node.run], fun r _ => Nat.zero_le _,
    fun hs => by simp [Collective.initial] at hs⟩
  own hr := by simp [Active, Collective.initial] at hr
  received r _ hr := by simp [Collective.initial] at hr
  ahead r _ := by simp [started, Collective.initial, Node.run]
  outputs r k out hk := by simp [Collective.initial] at hk

/-- The root's object is replaced. -/
theorem set_root (h : Holds root input s I acks)
    (ht : Tracks (wiring number_elements n) (Good root input) F I'
      (sent root (Collective.setNode s root N F)) (taken root (Collective.setNode s root N F) acks'))
    (hcount : RootHolds root N acks') (hown : Active N → I'.mem .source = input root N.run)
    (hmem : ∀ q, I'.mem (.target q) = I.mem (.target q))
    (hahead : ∀ q, q ≠ root → started N ≤ (s.node q).run + 1)
    (hout : ∀ k out, N.outputs[k]? = some out → out = input root k) :
    Holds root input (Collective.setNode s root N F) I' acks' := by
  have hself := Collective.setNode_self s root N F
  refine ⟨ht, by rwa [hself], by rwa [hself], fun q hq hs => ?_, fun q hq => ?_, fun q k out hk => ?_⟩
  · rw [Collective.setNode_of_ne s hq] at hs ⊢
    rw [hmem q]
    exact h.received q hq hs
  · rw [hself, Collective.setNode_of_ne s hq]
    exact hahead q hq
  · by_cases hq : q = root
    · subst hq; rw [hself] at hk; exact hout k out hk
    · rw [Collective.setNode_of_ne s hq] at hk; exact h.outputs q k out hk

/-- Another rank's object is replaced. -/
theorem set_other (h : Holds root input s I acks) (hr : r ≠ root)
    (ht : Tracks (wiring number_elements n) (Good root input) F I'
      (sent root (Collective.setNode s r N F)) (taken root (Collective.setNode s r N F) acks))
    (hmem : ∀ l, l ≠ .target r → I'.mem l = I.mem l)
    (hrecv : N.state = .finished → I'.mem (.target r) = input root N.run)
    (hrun : (s.node r).run ≤ N.run) (hout : ∀ k out, N.outputs[k]? = some out → out = input root k) :
    Holds root input (Collective.setNode s r N F) I' acks := by
  have hself := Collective.setNode_self s r N F
  have hroot := Collective.setNode_of_ne s (Ne.symm hr) N F
  refine ⟨ht, by rw [hroot]; exact h.counters, fun ha => ?_, fun q hq hs => ?_, fun q hq => ?_,
    fun q k out hk => ?_⟩
  · rw [hroot] at ha ⊢
    rw [hmem .source (by simp)]
    exact h.own ha
  · by_cases hqr : q = r
    · subst hqr; rw [hself] at hs ⊢; exact hrecv hs
    · rw [Collective.setNode_of_ne s hqr] at hs ⊢
      rw [hmem _ (by simpa using hqr)]
      exact h.received q hq hs
  · rw [hroot]
    by_cases hqr : q = r
    · subst hqr; rw [hself]; exact Nat.le_trans (h.ahead q hq) (by omega)
    · rw [Collective.setNode_of_ne s hqr]; exact h.ahead q hq
  · by_cases hqr : q = r
    · subst hqr; rw [hself] at hk; exact hout k out hk
    · rw [Collective.setNode_of_ne s hqr] at hk; exact h.outputs q k out hk

end Holds

/-! ## What a call of one rank counts -/

theorem sent_set_root : sent root (Collective.setNode s root N F) = fun
    | .target q => if q = root then 0 else started N
    | .source q => if q = root then 0 else completed (s.node q) := by
  funext p
  cases p with
  | target q => simp [sent]
  | source q => by_cases hq : q = root <;> simp [sent, hq]

theorem taken_set_root : taken root (Collective.setNode s root N F) acks = taken root s acks := by
  funext p
  cases p with
  | target q => by_cases hq : q = root <;> simp [taken, hq]
  | source q => simp [taken]

theorem sent_set_other (hr : r ≠ root) (p : Port n) : sent root (Collective.setNode s r N F) p =
    if p = .source r then completed N else sent root s p := by
  cases p with
  | target q => simp [sent, Ne.symm hr]
  | source q =>
    by_cases hq : q = r
    · subst hq; simp [sent, hr]
    · simp [sent, hq]

theorem taken_set_other (hr : r ≠ root) (p : Port n) : taken root (Collective.setNode s r N F) acks p =
    if p = .target r then completed N else taken root s acks p := by
  cases p with
  | target q =>
    by_cases hq : q = r
    · subst hq; simp [taken, hr]
    · simp [taken, hq]
  | source q => simp [taken]

end GaspiCxx.Collectives.BroadcastSendToAll
