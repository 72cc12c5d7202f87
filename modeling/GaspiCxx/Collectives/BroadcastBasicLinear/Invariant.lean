import GaspiCxx.Collectives.BroadcastBasicLinear.Schedule

/-!
# The invariant of the linear broadcast

Almost no rank waits for an acknowledgement, so nothing in the code keeps a
rank from overtaking its right neighbour. `Careful` is what a call has to
respect for the invariant to survive: the root fills its buffer only when the
transfer out of it is delivered, and a rank posts only when its right neighbour
has completed as many runs and the transfer out of that neighbour's buffer is
delivered (`Clear`).
-/

namespace GaspiCxx.Collectives.BroadcastBasicLinear

open OneSided SingleSided GroupUtilities

variable {n number_elements : Nat} {T : Type} (root : Fin n)
  (input : Fin n → Nat → Vec number_elements T)

/-- What the `k`-th transfer to a target buffer has to bring. -/
def Good : Port n → Nat → Vec number_elements T → Prop
  | .source _, _, _ => True
  | .target _, k, v => v = input root k

/-- The input of the current run has been copied in. -/
def Active (N : Node Fields (Vec number_elements T)) : Prop :=
  N.state = .ready ∨ N.state = .running ∨ N.state = .finished

structure Holds (s : GroupSys number_elements n T)
    (I : Channels (Port n) (Fin n) (Vec number_elements T)) : Prop where
  tracks : Tracks (wiring number_elements n) (Good root input) s.fabric I
    ((schedule number_elements root).sent (progress s)) ((schedule number_elements root).taken (progress s))
  iteration : ∀ r, (s.node r).state = .running →
    1 ≤ (s.node r).fields.iteration ∧ (s.node r).fields.iteration ≤ n
  own : Active (s.node root) → I.mem root = input root (s.node root).run
  received : ∀ r, 0 < dist root r → dist root r < steps n (s.node r) →
    I.mem r = input root (s.node r).run
  ahead : ∀ r, dist root r + 1 < n →
    (progress s r).passed (dist root r) ≤ (s.node (right r)).run + 1
  outputs : ∀ r k out, (s.node r).outputs[k]? = some out → out = input root k

/-- The right neighbour's buffer may be written: it has completed as many runs,
and its own transfer is delivered. -/
def Clear (s : GroupSys number_elements n T) (r : Fin n) : Prop :=
  (s.node r).run ≤ (s.node (right r)).run ∧ s.fabric.flight (.target (right (right r))) = []

/-- The next `triggerProgress` of rank `r` forwards the data. -/
def Forwards (s : GroupSys number_elements n T) (r : Fin n) : Prop :=
  (s.node r).state = .running ∧ dist root r = (s.node r).fields.iteration ∧ dist root r + 1 < n ∧
    s.fabric.slot (.target r) = true

def Careful (s : GroupSys number_elements n T) (r : Fin n) : Call → Prop
  | .copyIn => r = root → s.fabric.flight (.target (right root)) = []
  | .start => r = root → Clear s root
  | .triggerProgress => Forwards root s r → Clear s r
  | _ => True

variable {root input} {s : GroupSys number_elements n T}
  {I I' : Channels (Port n) (Fin n) (Vec number_elements T)} {r : Fin n}
  {N : Node Fields (Vec number_elements T)} {F : Net number_elements n T}

namespace Holds

/-! ## Causality -/

section

variable (h : Holds root input s I)
include h

theorem steps_lt (hs : (s.node r).state ≠ .finished) : steps n (s.node r) < n + 1 := by
  cases hst : (s.node r).state with
  | running => have := (h.iteration r hst).2; simp only [steps, hst]; omega
  | finished => exact absurd hst hs
  | uninitialized | initialized | ready => simp [steps, hst]

/-- The right neighbour takes what rank `r` has sent. -/
theorem link (hd : dist root r + 1 < n) :
    (progress s (right r)).passed (dist root r + 1) ≤ (progress s r).passed (dist root r) := by
  have := h.tracks.taken_le (.target (right r))
  have hn := dist_next root hd
  rw [sent_target _ (by omega), taken_target _ (by omega), left_right, hn, Nat.add_sub_cancel] at this
  exact this

theorem ack_le (hd : dist root r + 2 = n) :
    (progress s r).passed n ≤ (progress s (right r)).passed (n - 1) := by
  have := h.tracks.taken_le (.source r)
  rwa [sent_source _ hd, taken_source _ hd] at this

/-- Nobody writes to rank `r`'s buffer once it has received this run's data. -/
theorem arrived (hd : 0 < dist root r) (hst : dist root r < steps n (s.node r)) :
    (schedule number_elements root).sent (progress s) (.target r) =
      (schedule number_elements root).taken (progress s) (.target r) := by
  refine Nat.le_antisymm ?_ (h.tracks.taken_le _)
  have hp := dist_prev root hd
  have hlt := dist_lt root r
  have h1 := h.ahead (left r) (by omega)
  rw [right_left] at h1
  rw [sent_target _ hd, taken_target _ hd, Progress.passed_of_lt (g := progress s r) hst,
    show dist root r - 1 = dist root (left r) by omega]
  exact h1

/-- No data is on its way to rank `r`'s buffer. -/
theorem apart (hst : r = root ∨ dist root r < steps n (s.node r)) {q : Port n}
    (hq : (wiring number_elements n).carries q = true)
    (hlt : (schedule number_elements root).taken (progress s) q <
      (schedule number_elements root).sent (progress s) q) :
    (wiring number_elements n).loc q ≠ r := by
  have hu := Schedule.used_of_lt hlt
  cases q with
  | source => simp [wiring] at hq
  | target q =>
    rintro rfl
    have hpos := used_target.mp hu
    rcases hst with rfl | hst
    · simp [wiring, dist_self] at hpos
    · have := h.arrived (r := q) hpos hst
      omega

end

/-! ## Replacing one rank's object -/

theorem initial (m : Fin n → Vec number_elements T) :
    Holds root input ((broadcast number_elements root T).initial m) { mem := m, msg := fun _ => none } where
  tracks := (Tracks.quiet _ _ m).recount
    (fun p => by simp [Schedule.sent, Schedule.tally, progressOf, steps, Collective.initial, Node.run,
      Progress.passed])
    (fun p => by simp [Schedule.taken, Schedule.tally, progressOf, steps, Collective.initial, Node.run,
      Progress.passed])
  iteration r hr := by simp [Collective.initial] at hr
  own hr := by simp [Active, Collective.initial] at hr
  received r _ hr := by simp [Collective.initial, steps] at hr
  ahead r _ := by simp [progressOf, steps, Collective.initial, Node.run, Progress.passed]
  outputs r k out hk := by simp [Collective.initial] at hk

theorem set (h : Holds root input s I)
    (ht : Tracks (wiring number_elements n) (Good root input) F I'
      ((schedule number_elements root).sent (progress (Collective.setNode s r N F)))
      ((schedule number_elements root).taken (progress (Collective.setNode s r N F))))
    (hit : N.state = .running → 1 ≤ N.fields.iteration ∧ N.fields.iteration ≤ n)
    (hown : r = root → Active N → I'.mem root = input root N.run)
    (hrecv : 0 < dist root r → dist root r < steps n N → I'.mem r = input root N.run)
    (hmem : ∀ q, q ≠ r → I'.mem q = I.mem q)
    (hrun : (s.node r).run ≤ N.run)
    (hahead : dist root r + 1 < n →
      (⟨N.run, steps n N⟩ : Progress).passed (dist root r) ≤ (s.node (right r)).run + 1)
    (hout : ∀ k out, N.outputs[k]? = some out → out = input root k) :
    Holds root input (Collective.setNode s r N F) I' := by
  have hnode : ∀ q, q ≠ r → (Collective.setNode s r N F).node q = s.node q :=
    fun q hq => Collective.setNode_of_ne s hq N F
  have hself := Collective.setNode_self s r N F
  refine ⟨ht, fun q hq => ?_, fun hq => ?_, fun q hd hst => ?_, fun q hd => ?_, fun q k out hk => ?_⟩
  · by_cases hqr : q = r
    · subst hqr; rw [hself] at hq ⊢; exact hit hq
    · rw [hnode q hqr] at hq ⊢; exact h.iteration q hq
  · by_cases hqr : root = r
    · subst hqr; rw [hself] at hq ⊢; exact hown rfl hq
    · rw [hnode root hqr] at hq ⊢; rw [hmem root hqr]; exact h.own hq
  · by_cases hqr : q = r
    · subst hqr; rw [hself] at hst ⊢; exact hrecv hd hst
    · rw [hnode q hqr] at hst ⊢; rw [hmem q hqr]; exact h.received q hd hst
  · refine Nat.le_trans ?_ (Nat.add_le_add_right (Collective.run_le_setNode hrun (right q)) 1)
    by_cases hqr : q = r
    · subst hqr; rw [progress, progressOf_self]; exact hahead hd
    · rw [progress, progressOf_of_ne hqr]; exact h.ahead q hd
  · by_cases hqr : q = r
    · subst hqr; rw [hself] at hk; exact hout k out hk
    · rw [hnode q hqr] at hk; exact h.outputs q k out hk

/-! ## Every call -/

/-- What a call of rank `r` leads to: the invariant, and a calm change of the network. -/
def After (root : Fin n) (input : Fin n → Nat → Vec number_elements T) (s t : GroupSys number_elements n T) :
    Prop :=
  (∃ I, Holds root input t I) ∧ Calm s.fabric t.fabric
    ((schedule number_elements root).taken (progress s)) ((schedule number_elements root).taken (progress t))

/-- A call that leaves the fabric alone and neither posts nor takes. -/
theorem set_same (h : Holds root input s I) (hrun : N.run = (s.node r).run)
    (hle : steps n (s.node r) ≤ steps n N)
    (hno : ∀ i, steps n (s.node r) ≤ i → i < steps n N →
      i ≠ dist root r ∧ (i = n → dist root r + 2 ≠ n))
    (hout : N.outputs = (s.node r).outputs)
    (hit : N.state = .running → 1 ≤ N.fields.iteration ∧ N.fields.iteration ≤ n)
    (hact : Active N → Active (s.node r)) : After root input s (Collective.setNode s r N s.fabric) := by
  have hmv : Schedule.Moves (progress s) (progress (Collective.setNode s r N s.fabric)) r
      (steps n (s.node r)) (steps n N) := moves hrun rfl rfl hle
  have hpass := hmv.passed (dist root r)
  have hd := dist_lt root r
  have hdist : ¬ (steps n (s.node r) ≤ dist root r ∧ dist root r < steps n N) :=
    fun hx => (hno _ hx.1 hx.2).1 rfl
  rw [if_neg hdist, Nat.add_zero, progress, progressOf_self] at hpass
  have hsent : ∀ p, (schedule number_elements root).sent (progress (Collective.setNode s r N s.fabric)) p =
      (schedule number_elements root).sent (progress s) p := by
    refine hmv.tally_same fun p hu ho hx => ?_
    cases p with
    | source q =>
      have hq := used_source.mp hu
      have ho : right q = r := sender_source.symm.trans ho
      have := dist_next root (r := q) (by omega)
      simp only [schedule] at hx
      exact (hno _ hx.1 hx.2).1 (by rw [← ho]; omega)
    | target q =>
      have hq := used_target.mp hu
      have ho : left q = r := sender_target.symm.trans ho
      have := dist_prev root hq
      simp only [schedule] at hx
      exact (hno _ hx.1 hx.2).1 (by rw [← ho]; omega)
  have htaken : ∀ p, (schedule number_elements root).taken (progress (Collective.setNode s r N s.fabric)) p =
      (schedule number_elements root).taken (progress s) p := by
    refine hmv.tally_same fun p hu ho hx => ?_
    cases p with
    | source q =>
      obtain rfl : q = r := ho
      simp only [schedule] at hx
      exact (hno _ hx.1 hx.2).2 rfl (used_source.mp hu)
    | target q =>
      obtain rfl : q = r := ho
      exact hdist hx
  refine ⟨⟨I, h.set (h.tracks.recount hsent htaken) hit (fun hr ha => ?_) (fun hpos hst => ?_) (fun _ _ => rfl)
    (by omega) (fun hd => ?_) (fun k out hk => ?_)⟩, ?_⟩
  · subst hr; rw [hrun]; exact h.own (hact ha)
  · rw [hrun]; exact h.received r hpos (by omega)
  · rw [hpass]; exact h.ahead r hd
  · rw [hout] at hk; exact h.outputs r k out hk
  · rw [funext htaken]; exact Calm.refl _ _

/-- Rank `r` posts its buffer to its right neighbour. -/
theorem post_right {taken' : Port n → Nat} (hn : 2 ≤ n) (h : Holds root input s I)
    (hflight : F.flight = s.fabric.flight)
    (ht : Tracks (wiring number_elements n) (Good root input) F I'
      ((schedule number_elements root).sent (progress s)) taken')
    (htaken : taken' (.target (right r)) = (schedule number_elements root).taken (progress s) (.target (right r)))
    (hd : dist root r + 1 < n) (hp : steps n (s.node r) ≤ dist root r) (hclear : Clear s r)
    (hin : ∀ q, (wiring number_elements n).carries q = true →
      taken' q < (schedule number_elements root).sent (progress s) q → (wiring number_elements n).loc q ≠ r)
    (hmem : I'.mem r = input root (s.node r).run) :
    Tracks (wiring number_elements n) (Good root input) (F.post (.target (right r)))
      (I'.post (wiring number_elements n) (.target (right r)))
      (bump ((schedule number_elements root).sent (progress s)) (.target (right r))) taken' := by
  have hnext := dist_next root hd
  have hfree : (schedule number_elements root).sent (progress s) (.target (right r)) =
      (schedule number_elements root).taken (progress s) (.target (right r)) := by
    refine Nat.le_antisymm ?_ (h.tracks.taken_le _)
    rw [sent_target _ (by omega), taken_target _ (by omega), left_right, hnext, Nat.add_sub_cancel,
      Progress.passed_of_le (g := progress s r) hp]
    exact Nat.le_trans hclear.1 ((progress s (right r)).run_le_passed _)
  have hpeer : (wiring number_elements n).loc ((wiring number_elements n).peer (.target (right r))) = r := by
    simp [wiring]
  refine ht.post (hfree.trans htaken.symm) (fun _ => ?_) (fun _ q hq hlt => ?_) (fun _ q hq hlt => ?_)
    (fun _ q hq hf => ?_) (fun _ => ?_)
  · rw [hpeer]; exact right_ne hn r
  · rw [hpeer]; exact hin q hq hlt
  · cases q with
    | source => simp [wiring] at hq
    | target q =>
      intro hqr
      simp only [wiring] at hqr
      rw [hqr, htaken, hfree] at hlt
      exact Nat.lt_irrefl _ hlt
  · cases q with
    | source => simp [wiring] at hq
    | target q =>
      intro hqr
      simp only [wiring, left_neighbour_eq] at hqr
      obtain rfl : q = right (right r) := by rw [hqr, right_left]
      exact hf (hflight ▸ hclear.2)
  · rw [hpeer, sent_target _ (by omega), left_right, hnext, Nat.add_sub_cancel,
      Progress.passed_of_le (g := progress s r) hp]
    exact hmem

end Holds

end GaspiCxx.Collectives.BroadcastBasicLinear
