import GaspiCxx.Collectives.AllreduceRing.Chunks

/-!
# The invariant of the ring allreduce

`Holds s I`: the fabric of `s` carries the channels `I`, every rank's chunks
hold what they should at its position of the program (`Contents`), and the
outputs of completed runs are the reductions of these runs' inputs.

Everything a rank does is ordered by the chunks' way around the ring: a rank
that has passed position `i + m` has a rank `m` steps to its left that has
passed position `i` (`chain`). After a full round this says that a chunk is not
overwritten before it has been used.
-/

namespace GaspiCxx.Collectives.AllreduceRing

open OneSided SingleSided GroupUtilities AllreduceCommon

variable {n number_elements : Nat} {T : Type}

/-- The value of chunk `i` after `d` steps around the ring, from rank `i` on:
`f(x[i+d], ... f(x[i+2], f(x[i+1], x[i])))`. -/
def reduction (f : T → T → T) (x : Fin n → T) (i : Fin n) : Nat → T
  | 0 => x i
  | d + 1 => f (x (ringIndex (i + (d + 1)) i)) (reduction f x i d)

variable (f : T → T → T) (input : Fin n → Nat → Nat → T)

/-- The elements of chunk `v`, padding aside, are rank `r`'s own. -/
def Own (k : Nat) (r j : Fin n) (v : Chunk n number_elements T) : Prop :=
  ∀ e, element n number_elements j e < number_elements →
    v e = input r k (element n number_elements j e)

/-- The elements of chunk `v`, padding aside, are reduced over `d + 1` ranks. -/
def Reduced (k : Nat) (j : Fin n) (d : Nat) (v : Chunk n number_elements T) : Prop :=
  ∀ e, element n number_elements j e < number_elements →
    v e = reduction f (fun q => input q k (element n number_elements j e)) j d

/-- What the `k`-th transfer to a target buffer has to bring. -/
def Good : Port n → Nat → Chunk n number_elements T → Prop
  | .target_reduce r j, k, v => Reduced f input k j (dist j r - 1) v
  | .target_gather _ j, k, v => Reduced f input k j (n - 1) v
  | _, _, _ => True

/-- What chunk `j` of rank `r` holds after `st` positions of run `k`. -/
def Contents (k st : Nat) (r j : Fin n) (v : Chunk n number_elements T) : Prop :=
  if st ≤ dist j r then Own input k r j v
  else if st ≤ n + dist j r then Reduced f input k j (dist j r) v
  else Reduced f input k j (n - 1) v

/-- The input of the current run has been copied in. -/
def Active (N : Node (Fields n T) (Nat → Option T)) : Prop :=
  N.state = .ready ∨ N.state = .running ∨ N.state = .finished

variable (number_elements) in
/-- The output of run `k`: element `j` is reduced along the ring from its
chunk's rank on. -/
def result (k : Nat) (j : Nat) : Option T :=
  if h : j / number_elements_padded n number_elements < n ∧ j < number_elements then
    some (reduction f (fun q => input q k j) ⟨j / number_elements_padded n number_elements, h.1⟩ (n - 1))
  else none

structure Holds (s : GroupSys n number_elements T)
    (I : Channels (Port n) (Loc n) (Chunk n number_elements T)) : Prop where
  tracks : Tracks (wiring n) (Good f input) s.fabric I
    ((schedule n).sent (progress n s)) ((schedule n).taken (progress n s))
  step_le : ∀ r, (s.node r).state = .running → (s.node r).fields.current_step ≤ 2 * (n - 1)
  index : ∀ r, (s.node r).state = .running → dist (s.node r).fields.current_index r =
    if (s.node r).fields.current_step + 1 < n then (s.node r).fields.current_step + 1
    else (s.node r).fields.current_step + 1 - n
  contents : ∀ r j, Active (s.node r) →
    Contents f input (s.node r).run (steps n (s.node r)) r j (I.mem (.chunk r j))
  outputs : ∀ r k out, (s.node r).outputs[k]? = some out → out = result number_elements f input k

variable {f input} {s : GroupSys n number_elements T}
  {I : Channels (Port n) (Loc n) (Chunk n number_elements T)} {r j : Fin n}

/-! ## The buffers that data lands in -/

/-- Every data channel ends in a buffer of its own. -/
theorem loc_inj {p q : Port n} (hp : (wiring n).carries p = true) (hq : (wiring n).carries q = true)
    (he : (wiring n).loc p = (wiring n).loc q) : p = q := by
  cases p <;> cases q <;> simp_all [wiring]

/-- Nothing is on its way to where an idle channel ends. -/
theorem apart_of_eq {p q : Port n} {sent taken : Port n → Nat} (hp : (wiring n).carries p = true)
    (he : sent p = taken p) (hq : (wiring n).carries q = true) (hlt : taken q < sent q) :
    (wiring n).loc q ≠ (wiring n).loc p := by
  intro h
  obtain rfl := loc_inj hq hp h
  omega

/-! ## Causality -/

namespace Holds

variable (h : Holds f input s I)
include h

theorem steps_lt (hs : (s.node r).state ≠ .finished) : steps n (s.node r) < 2 * n := by
  cases hst : (s.node r).state with
  | running =>
    have := h.step_le r hst
    have := r.isLt
    simp only [steps, hst]; omega
  | finished => exact absurd hst hs
  | uninitialized | initialized | ready => have := r.isLt; simp only [steps, hst]; omega

/-- What is posted at position `i` is taken at position `i + 1`. -/
theorem link (r : Fin n) {i : Nat} (hi : i + 2 < 2 * n) :
    (progress n s (right r)).passed (i + 1) ≤ (progress n s r).passed i := by
  by_cases hr : i + 1 < n
  · obtain ⟨j, hj⟩ := exists_dist (right r) hr
    have := h.tracks.taken_le (.target_reduce (right r) j)
    rwa [sent_target_reduce _ hj, taken_target_reduce _ hj, left_right] at this
  · obtain ⟨j, hj⟩ := exists_dist (right r) (d := i + 1 - n) (by omega)
    have := h.tracks.taken_le (.target_gather (right r) j)
    rw [sent_target_gather _ hj (by omega), taken_target_gather _ hj (by omega), left_right] at this
    rwa [show n + (i + 1 - n) = i + 1 by omega] at this

/-- A rank `m` steps to the left has passed what lies `m` positions back. -/
theorem chain {q : Fin n} {m : Nat} : ∀ {r : Fin n}, dist q r = m → ∀ {i : Nat}, i + m + 1 < 2 * n →
    (progress n s r).passed (i + m) ≤ (progress n s q).passed i := by
  induction m with
  | zero =>
    intro r hm i _
    rw [dist_eq_zero hm]
    exact Nat.le_refl _
  | succ m ih =>
    intro r hm i hi
    have h1 := h.link (left r) (i := i + m) (by omega)
    rw [right_left] at h1
    exact Nat.le_trans h1 (ih (dist_to_left hm) (by omega))

variable (hn : 2 ≤ n)
include hn

theorem ack_le (r : Fin n) :
    (progress n s r).passed (2 * n - 1) ≤ (progress n s (right r)).passed (2 * n - 2) := by
  obtain ⟨j, hj⟩ := exists_dist (right r) (d := n - 2) (by omega)
  have := h.tracks.taken_le (.source_gather r j)
  rwa [sent_source_gather _ (by omega), taken_source_gather _ (by omega)] at this

/-- What a rank has not yet sent in this run is not on its way from an earlier
run: that run ended with its right neighbour's acknowledgement. -/
theorem fresh (r : Fin n) {i : Nat} (hi : i + 2 < 2 * n) (hp : steps n (s.node r) ≤ i) :
    (progress n s (right r)).passed (i + 1) = (progress n s r).passed i := by
  have h1 := h.link r hi
  have h2 := h.ack_le hn r
  have h3 := (progress n s r).run_le_passed (2 * n - 1)
  have h4 := (progress n s (right r)).passed_anti (show i + 1 ≤ 2 * n - 2 by omega)
  rw [Progress.passed_of_le (g := progress n s r) hp] at h1 ⊢
  simp only [progressOf_run] at h1 h2 h3 h4 ⊢
  omega

/-! ## Which channels are idle -/

theorem idle_reduce_out (r : Fin n) {d : Nat} (hd : dist j (right r) = d + 1)
    (hp : steps n (s.node r) ≤ d) :
    (schedule n).sent (progress n s) (.target_reduce (right r) j) =
      (schedule n).taken (progress n s) (.target_reduce (right r) j) := by
  have := dist_lt j (right r)
  rw [sent_target_reduce _ hd, taken_target_reduce _ hd, left_right]
  exact (h.fresh hn r (by omega) hp).symm

theorem idle_gather_out (r : Fin n) {d : Nat} (hd : dist j (right r) = d) (hu : d + 2 ≤ n)
    (hp : steps n (s.node r) ≤ n + d - 1) :
    (schedule n).sent (progress n s) (.target_gather (right r) j) =
      (schedule n).taken (progress n s) (.target_gather (right r) j) := by
  rw [sent_target_gather _ hd hu, taken_target_gather _ hd hu, left_right]
  have := (h.fresh hn r (i := n + d - 1) (by omega) hp).symm
  rwa [show n + d - 1 + 1 = n + d by omega] at this

/-- The result of chunk `j` is not on its way to rank `r` before `r` has sent
its contribution, nor after it has taken the result. -/
theorem idle_gather_in (hst : steps n (s.node r) ≤ dist j r ∨ n + dist j r < steps n (s.node r)) :
    (schedule n).sent (progress n s) (.target_gather r j) =
      (schedule n).taken (progress n s) (.target_gather r j) := by
  by_cases hu : dist j r + 2 ≤ n
  · refine Nat.le_antisymm ?_ (h.tracks.taken_le _)
    rw [sent_target_gather _ rfl hu, taken_target_gather _ rfl hu]
    -- all the way around the ring
    have h1 := h.chain (dist_left_self r) (i := dist j r) (by omega)
    rw [show dist j r + (n - 1) = n + dist j r - 1 by omega] at h1
    rcases hst with hst | hst
    · rw [Progress.passed_of_le (g := progress n s r) (by simpa using hst)] at h1
      have := (progress n s r).run_le_passed (n + dist j r)
      omega
    · rw [Progress.passed_of_lt (g := progress n s r) (by simpa using hst)]
      have := (progress n s r).passed_le (dist j r)
      simp only [progressOf_run] at this ⊢
      omega
  · have hu' := mt used_target_gather.mp hu
    rw [Schedule.sent, Schedule.taken, Schedule.tally_unused hu', Schedule.tally_unused hu']

/-- No data is on its way to chunk `j`. -/
theorem apart_chunk (hst : steps n (s.node r) ≤ dist j r ∨ n + dist j r < steps n (s.node r))
    {q : Port n} (hq : (wiring n).carries q = true)
    (hlt : (schedule n).taken (progress n s) q < (schedule n).sent (progress n s) q) :
    (wiring n).loc q ≠ .chunk r j :=
  apart_of_eq (p := .target_gather r j) rfl (h.idle_gather_in hn hst) hq hlt

/-- Nothing is being read from chunk `j` before rank `r` has sent it. -/
theorem unread_chunk (hst : steps n (s.node r) ≤ dist j r) {q : Port n}
    (hq : (wiring n).carries q = true) (hf : s.fabric.flight q ≠ []) :
    (wiring n).loc ((wiring n).peer q) ≠ .chunk r j := by
  have hlt := h.tracks.lt_of_flight hf
  have hu := Schedule.used_of_lt hlt
  cases q with
  | source_reduce | source_gather => simp [wiring] at hq
  | target_reduce q i =>
    simp only [wiring, ne_eq, Loc.chunk.injEq, not_and]
    rintro rfl rfl
    have hd := dist_right i (left q)
    rw [right_left] at hd
    have := used_target_reduce.mp hu
    have := h.idle_reduce_out hn (left q) (j := i) (d := dist i (left q))
      (by rw [right_left]; split at hd <;> omega) hst
    rw [right_left] at this
    omega
  | target_gather q i =>
    simp only [wiring, ne_eq, Loc.chunk.injEq, not_and]
    rintro rfl rfl
    have := dist_lt i (left q)
    have := h.idle_gather_out hn (left q) (j := i) rfl
      (by rw [right_left]; exact used_target_gather.mp hu) (by omega)
    rw [right_left] at this
    omega

/-- **A result may be sent on**: the right neighbour is done with the buffer it
lands in. Its last transfer from there has set the chunk going that has now
arrived. -/
theorem unread_right {d : Nat} (hd : dist j (right r) = d) (hu : d + 2 ≤ n)
    (hst : steps n (s.node r) = n + d - 1)
    (hin : (s.node r).run < (progress n s (left r)).passed (n + d - 2))
    (h2 : n = 2 → s.fabric.flight (.target_reduce r j) = [])
    {q : Port n} (hq : (wiring n).carries q = true) (hf : s.fabric.flight q ≠ []) :
    (wiring n).loc ((wiring n).peer q) ≠ .chunk (right r) j := by
  have hlt := h.tracks.lt_of_flight hf
  have hus := Schedule.used_of_lt hlt
  have hrun : (progress n s (right r)).passed (n + d) ≤ (s.node r).run := by
    have h1 := h.link r (i := n + d - 1) (by omega)
    rw [Progress.passed_of_le (g := progress n s r) (by simp [hst]),
      show n + d - 1 + 1 = n + d by omega] at h1
    exact h1
  -- the chunk came from rank `right (right r)`
  have hcame : n ≠ 2 → (s.node r).run < (progress n s (right (right r))).passed (d + 1) := by
    intro hn2
    have h1 : dist (right (right r)) (left r) = n - 3 :=
      dist_from_right (dist_from_right (by rw [dist_left_self]; omega))
    have h2 := h.chain h1 (i := d + 1) (by omega)
    rw [show d + 1 + (n - 3) = n + d - 2 by omega] at h2
    omega
  have hdd : dist j (right (right r)) = d + 1 := by rw [dist_right, hd, if_neg (by omega)]
  have hle := (progress n s (right r)).passed_le d
  have hle' := (progress n s (right r)).run_le_passed (n + d)
  have hle'' := (progress n s (right (right r))).passed_le (d + 1)
  have hle3 := (progress n s (right (right r))).run_le_passed (n + (d + 1))
  cases q with
  | source_reduce | source_gather => simp [wiring] at hq
  | target_reduce q i =>
    simp only [wiring, ne_eq, Loc.chunk.injEq, not_and]
    intro hqr hij
    subst hij
    obtain rfl : q = right (right r) := by rw [← hqr, right_left]
    by_cases hn2 : n = 2
    · subst hn2
      refine hf (h2 rfl ▸ ?_)
      congr 2
      have hr := right_val r
      have hrr := right_val (right r)
      have := r.isLt
      apply Fin.ext
      split at hr <;> split at hrr <;> omega
    · have := hcame hn2
      rw [sent_target_reduce _ hdd, taken_target_reduce _ hdd, left_right] at hlt
      omega
  | target_gather q i =>
    simp only [wiring, ne_eq, Loc.chunk.injEq, not_and]
    intro hqr hij
    subst hij
    obtain rfl : q = right (right r) := by rw [← hqr, right_left]
    have hu3 := used_target_gather.mp hus
    have := hcame (by omega)
    rw [sent_target_gather _ hdd (by omega), taken_target_gather _ hdd (by omega), left_right,
      show n + (d + 1) - 1 = n + d by omega] at hlt
    omega

end Holds

end GaspiCxx.Collectives.AllreduceRing
