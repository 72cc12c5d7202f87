import GaspiCxx.Collectives.Barrier.Model
import GaspiCxx.OneSided.Schedule

/-!
# Correctness of the dissemination barrier

A call has four positions per iteration. The handshake of iteration `i` orders
them across ranks (`Holds.signal`, `Holds.acknowledged`); a rank that has seen
the signal of iteration `i` therefore knows that the `2^(i+1)` ranks up to
itself have entered (`Holds.window`), and after `number_steps` iterations the
window covers the group.
-/

namespace GaspiCxx.Collectives.Barrier

open OneSided SingleSided GroupUtilities

variable {n : Nat}

def Op.position : Op → Nat
  | .initTransfer => 0
  | .waitForCompletion => 1
  | .ackTransfer => 2
  | .waitForTransferAck => 3

/-- The positions passed in the current call. -/
def steps (t : Thread) : Nat :=
  match t.inside with
  | none => 0
  | some (i, op) => 4 * i + op.position

def progress (s : Sys n) (r : Fin n) : Progress where
  run := (s.thread r).returned
  steps := steps (s.thread r)

def schedule (n : Nat) : Schedule (Fin n) (Port n) Unit where
  toWiring := wiring n
  owner
    | .source r _ | .target r _ => r
  used
    | .source _ i | .target _ i => decide (i < number_steps n)
  postAt
    | .source _ i => 4 * i + 2
    | .target _ i => 4 * i
  takeAt
    | .source _ i => 4 * i + 3
    | .target _ i => 4 * i + 1

/-- The calls of `execute()` rank `r` has entered. -/
def entered (s : Sys n) (r : Fin n) : Nat :=
  (s.thread r).returned + if (s.thread r).inside = none then 0 else 1

theorem passed_le_entered (s : Sys n) (q : Fin n) : (progress s q).passed 0 ≤ entered s q := by
  cases hin : (s.thread q).inside with
  | none => simp [Progress.passed, progress, entered, steps, hin]
  | some x =>
    have := (progress s q).passed_le 0
    simp only [entered, hin, reduceCtorEq, if_false]
    exact this

/-! ## Partners -/

section

variable (hn : n ≤ 2 ^ 15) {i : Nat} (hi : i < number_steps n) (r : Fin n)
include hn hi

theorem target_val : (target r i).val = if r.val + 2 ^ i < n then r.val + 2 ^ i else r.val + 2 ^ i - n :=
  Rank.add_mod r.isLt (Nat.pow_lt_of_lt_clog hi) hn

theorem source_val : (source r i).val = if 2 ^ i ≤ r.val then r.val - 2 ^ i else r.val + n - 2 ^ i :=
  Rank.sub_mod r.isLt (Nat.pow_lt_of_lt_clog hi) hn

theorem source_target : source (target r i) i = r := by
  have h1 := target_val hn hi r
  have h2 := source_val hn hi (target r i)
  have := r.isLt
  have := Nat.pow_lt_of_lt_clog hi
  apply Fin.ext
  split at h1 <;> split at h2 <;> omega

theorem target_source : target (source r i) i = r := by
  have h1 := source_val hn hi r
  have h2 := target_val hn hi (source r i)
  have := r.isLt
  have := Nat.pow_lt_of_lt_clog hi
  apply Fin.ext
  split at h1 <;> split at h2 <;> omega

/-- A rank at least `2^i` to the left is `2^i` closer to the source. -/
theorem dist_source {q : Fin n} (hq : 2 ^ i ≤ dist q r) : dist q (source r i) = dist q r - 2 ^ i := by
  have h1 := source_val hn hi r
  have := q.isLt; have := r.isLt
  have := Nat.pow_lt_of_lt_clog hi
  unfold GroupUtilities.dist at hq ⊢
  generalize 2 ^ i = w at *
  split at h1 <;> split at hq <;> split <;> omega

end

/-! ## Signals -/

section

variable (g : Fin n → Progress) {r : Fin n} {i : Nat} (hi : i < number_steps n)
include hi

theorem sent_target :
    (schedule n).sent g (.target r i) = (g (source r i)).passed (4 * i) :=
  Schedule.sent_used (decide_eq_true hi)

theorem taken_target : (schedule n).taken g (.target r i) = (g r).passed (4 * i + 1) :=
  Schedule.taken_used (decide_eq_true hi)

theorem sent_source :
    (schedule n).sent g (.source r i) = (g (target r i)).passed (4 * i + 2) :=
  Schedule.sent_used (decide_eq_true hi)

theorem taken_source : (schedule n).taken g (.source r i) = (g r).passed (4 * i + 3) :=
  Schedule.taken_used (decide_eq_true hi)

end

/-- A rank posts to one port at each position. -/
theorem postAt_inj (hn : n ≤ 2 ^ 15) {p q : Port n} (hp : (schedule n).used p = true)
    (hq : (schedule n).used q = true) (hs : (schedule n).sender p = (schedule n).sender q)
    (ha : (schedule n).postAt p = (schedule n).postAt q) : p = q := by
  cases p with
  | source r i =>
    cases q with
    | source r' i' =>
      obtain rfl : i = i' := by simp only [schedule] at ha; omega
      have hi : i < number_steps n := of_decide_eq_true hp
      have hs : target r i = target r' i := hs
      rw [← source_target hn hi r, hs, source_target hn hi r']
    | target r' i' => simp only [schedule] at ha; omega
  | target r i =>
    cases q with
    | source r' i' => simp only [schedule] at ha; omega
    | target r' i' =>
      obtain rfl : i = i' := by simp only [schedule] at ha; omega
      have hi : i < number_steps n := of_decide_eq_true hp
      have hs : source r i = source r' i := hs
      rw [← target_source hn hi r, hs, target_source hn hi r']

/-- A rank takes from one port at each position. -/
theorem takeAt_inj {p q : Port n} (hs : (schedule n).owner p = (schedule n).owner q)
    (ha : (schedule n).takeAt p = (schedule n).takeAt q) : p = q := by
  cases p with
  | source r i =>
    cases q with
    | source r' i' =>
      obtain rfl : r = r' := hs
      simp only [schedule] at ha
      rw [show i = i' by omega]
    | target r' i' => simp only [schedule] at ha; omega
  | target r i =>
    cases q with
    | source r' i' => simp only [schedule] at ha; omega
    | target r' i' =>
      obtain rfl : r = r' := hs
      simp only [schedule] at ha
      rw [show i = i' by omega]

/-! ## The invariant -/

structure Holds (s : Sys n) (I : Channels (Port n) Unit Unit) : Prop where
  tracks : Tracks (wiring n) (fun _ _ _ => True) s.fabric I
    ((schedule n).sent (progress s)) ((schedule n).taken (progress s))
  iteration : ∀ r i op, (s.thread r).inside = some (i, op) →
    i ≤ number_steps n ∧ (op ≠ .initTransfer → i < number_steps n)

namespace Holds

variable {s : Sys n} {I : Channels (Port n) Unit Unit} (h : Holds s I)
include h

theorem signal (r : Fin n) {i : Nat} (hi : i < number_steps n) :
    (progress s r).passed (4 * i + 1) ≤ (progress s (source r i)).passed (4 * i) := by
  have := h.tracks.taken_le (.target r i)
  rwa [sent_target _ hi, taken_target _ hi] at this

theorem acknowledged (r : Fin n) {i : Nat} (hi : i < number_steps n) :
    (progress s r).passed (4 * i + 3) ≤ (progress s (target r i)).passed (4 * i + 2) := by
  have := h.tracks.taken_le (.source r i)
  rwa [sent_source _ hi, taken_source _ hi] at this

/-- **Windows double**: the signal of iteration `i` tells that the `2^(i+1)`
ranks up to the receiver have sent their first signal. -/
theorem window (hn : n ≤ 2 ^ 15) {i : Nat} : ∀ {r q : Fin n}, i < number_steps n →
    dist q r < 2 ^ (i + 1) → (progress s r).passed (4 * i + 1) ≤ (progress s q).passed 0 := by
  induction i with
  | zero =>
    intro r q hi hq
    by_cases h0 : dist q r = 0
    · rw [dist_eq_zero h0]
      exact Progress.passed_anti (Nat.zero_le _)
    · have h1 := dist_source hn hi r (q := q) (by omega)
      have h2 := h.signal r hi
      rwa [← dist_eq_zero (show dist q (source r 0) = 0 by omega)] at h2
  | succ i ih =>
    intro r q hi hq
    have hpow : 2 ^ (i + 1 + 1) = 2 ^ (i + 1) + 2 ^ (i + 1) := by omega
    have hanti := (progress s r).passed_anti (show 4 * i + 1 ≤ 4 * (i + 1) + 1 by omega)
    by_cases hnear : dist q r < 2 ^ (i + 1)
    · exact Nat.le_trans hanti (ih (by omega) hnear)
    · -- the other half of the window is the sender's
      have h1 := dist_source hn hi r (q := q) (by omega)
      have h2 := h.signal r hi
      have h3 := (progress s (source r (i + 1))).passed_anti (show 4 * i + 1 ≤ 4 * (i + 1) by omega)
      have h4 := ih (r := source r (i + 1)) (q := q) (by omega) (by omega)
      exact Nat.le_trans h2 (Nat.le_trans h3 h4)

/-- **No rank returns from a call that not all ranks have entered.** -/
theorem synchronized (hn : n ≤ 2 ^ 15) (r q : Fin n) : (s.thread r).returned ≤ entered s q := by
  by_cases hL : number_steps n = 0
  · -- a group of one
    have h1 : n ≤ 2 ^ 0 := Nat.clog_le_iff_le_pow (by omega) |>.mp (Nat.le_of_eq hL)
    have := r.isLt; have := q.isLt
    obtain rfl : r = q := Fin.ext (by omega)
    exact Nat.le_add_right _ _
  · obtain ⟨L, hL⟩ := Nat.exists_eq_succ_of_ne_zero hL
    have hcover : n ≤ 2 ^ (L + 1) := by
      have := Nat.le_pow_clog (b := 2) (by omega) n
      rwa [show Nat.clog 2 n = L + 1 from hL] at this
    have h1 := h.window hn (i := L) (r := r) (q := q) (by omega)
      (Nat.lt_of_lt_of_le (dist_lt q r) hcover)
    have h2 := (progress s r).run_le_passed (4 * L + 1)
    exact Nat.le_trans h2 (Nat.le_trans h1 (passed_le_entered s q))

end Holds

/-! ## Every step keeps the invariant -/

/-- Rank `r`'s thread is replaced. -/
abbrev setThread (s : Sys n) (r : Fin n) (t : Thread) (F : Net n) : Sys n :=
  { thread := Function.update s.thread r t, fabric := F }

section

variable {s : Sys n} {r : Fin n} {t : Thread} {F : Net n}

theorem progress_of_ne {q : Fin n} (hq : q ≠ r) : progress (setThread s r t F) q = progress s q := by
  simp [progress, hq]

theorem progress_self : progress (setThread s r t F) r = ⟨t.returned, steps t⟩ := by
  simp [progress]

theorem progress_same (hret : t.returned = (s.thread r).returned) (hsteps : steps t = steps (s.thread r)) :
    progress (setThread s r t F) = progress s := by
  funext q
  by_cases hq : q = r
  · subst hq; rw [progress_self, hret, hsteps]; rfl
  · exact progress_of_ne hq

theorem moves {x : Nat} (hret : t.returned = (s.thread r).returned) (hx : steps (s.thread r) = x)
    (hy : steps t = x + 1) :
    Schedule.Moves (progress s) (progress (setThread s r t F)) r x (x + 1) where
  other _ h := progress_of_ne h
  run := by rw [progress_self]; exact hret
  before := hx
  after := by rw [progress_self]; exact hy
  le := Nat.le_succ x

end

namespace Holds

variable {s : Sys n} {I I' : Channels (Port n) Unit Unit} {r : Fin n} {t : Thread} {F : Net n}

theorem initial : Holds (Barrier.initial n) { mem := fun _ => (), msg := fun _ => none } where
  tracks := (Tracks.quiet _ _ _).recount
    (fun p => by simp [Schedule.sent, Schedule.tally, progress, steps, Barrier.initial, Progress.passed])
    (fun p => by simp [Schedule.taken, Schedule.tally, progress, steps, Barrier.initial, Progress.passed])
  iteration r i op hin := by simp [Barrier.initial] at hin

theorem set (h : Holds s I)
    (ht : Tracks (wiring n) (fun _ _ _ => True) F I' ((schedule n).sent (progress (setThread s r t F)))
      ((schedule n).taken (progress (setThread s r t F))))
    (hit : ∀ i op, t.inside = some (i, op) →
      i ≤ number_steps n ∧ (op ≠ .initTransfer → i < number_steps n)) :
    Holds (setThread s r t F) I' := by
  refine ⟨ht, fun q i op hin => ?_⟩
  by_cases hq : q = r
  · subst hq
    rw [show (setThread s q t F).thread q = t from Function.update_self ..] at hin
    exact hit i op hin
  · rw [show (setThread s r t F).thread q = s.thread q from Function.update_of_ne hq ..] at hin
    exact h.iteration q i op hin

/-- The positions at which a rank only posts, and those at which it only takes. -/
theorem no_take {p : Port n} {x : Nat} (hx : x % 2 = 0) :
    ¬ (x ≤ (schedule n).takeAt p ∧ (schedule n).takeAt p < x + 1) := by
  cases p <;> simp only [schedule] <;> omega

theorem no_post {p : Port n} {x : Nat} (hx : x % 2 = 1) :
    ¬ (x ≤ (schedule n).postAt p ∧ (schedule n).postAt p < x + 1) := by
  cases p <;> simp only [schedule] <;> omega

/-- A rank posts a notification on a channel that is free. -/
theorem posts (h : Holds s I) (hn : n ≤ 2 ^ 15) {p : Port n} (hu : (schedule n).used p = true)
    (ho : (schedule n).sender p = r) (hat : steps (s.thread r) = (schedule n).postAt p)
    (hfree : (schedule n).sent (progress s) p = (schedule n).taken (progress s) p)
    (hret : t.returned = (s.thread r).returned) (hy : steps t = (schedule n).postAt p + 1)
    (hit : ∀ i op, t.inside = some (i, op) →
      i ≤ number_steps n ∧ (op ≠ .initTransfer → i < number_steps n)) :
    Holds (setThread s r t (s.fabric.post p)) (I.post (wiring n) p) := by
  have hmv := moves (F := s.fabric.post p) hret hat hy
  refine h.set ((h.tracks.post_bare rfl hfree).recount
    (hmv.tally_step hu ho rfl fun q hq hs ha => postAt_inj hn hq hu hs ha)
    (hmv.tally_same fun q _ _ => no_take ?_)) hit
  cases p <;> simp only [schedule] <;> omega

/-- A rank finds its slot set. -/
theorem takes (h : Holds s I) {p : Port n} (hu : (schedule n).used p = true)
    (ho : (schedule n).owner p = r) (hat : steps (s.thread r) = (schedule n).takeAt p)
    (hset : s.fabric.slot p = true)
    (hret : t.returned = (s.thread r).returned) (hy : steps t = (schedule n).takeAt p + 1)
    (hit : ∀ i op, t.inside = some (i, op) →
      i ≤ number_steps n ∧ (op ≠ .initTransfer → i < number_steps n)) :
    ∃ I', Holds (setThread s r t (s.fabric.reset p)) I' := by
  have hmv := moves (F := s.fabric.reset p) hret hat hy
  obtain ⟨v, -, -, ht⟩ := h.tracks.take hset
  refine ⟨_, h.set (ht.recount (hmv.tally_same fun q _ _ => no_post ?_)
    (hmv.tally_step hu ho rfl fun q _ hs ha => takeAt_inj hs ha)) hit⟩
  cases p <;> simp only [schedule] <;> omega

theorem executes (h : Holds s I) (hn : n ≤ 2 ^ 15) (he : execute r (s.thread r) s.fabric = some (t, F)) :
    ∃ I', Holds (setThread s r t F) I' := by
  cases hin : (s.thread r).inside with
  | none => simp [execute, hin] at he
  | some pc =>
    obtain ⟨i, op⟩ := pc
    obtain ⟨hle, hlt⟩ := h.iteration r i op hin
    have hst : steps (s.thread r) = 4 * i + op.position := by simp [steps, hin]
    cases op with
    | initTransfer =>
      simp only [execute, hin] at he
      split at he
      · next hi =>
        cases he
        refine ⟨_, h.posts hn (p := .target (target r i) i) (decide_eq_true hi) (source_target hn hi r)
          hst ?_ rfl rfl fun j op hj => ?_⟩
        · -- the signal of the previous call was acknowledged
          have h1 := h.signal (target r i) hi
          have h2 := h.acknowledged r hi
          have h3 := (progress s (target r i)).passed_anti (show 4 * i + 1 ≤ 4 * i + 2 by omega)
          rw [sent_target _ hi, taken_target _ hi]
          rw [source_target hn hi] at h1 ⊢
          rw [Progress.passed_of_le (g := progress s r) (by simp only [progress, hst, Op.position]; omega)]
            at h1 h2 ⊢
          omega
        · cases hj; exact ⟨hle, fun _ => hi⟩
      · next hi =>
        -- the loop is over
        cases he
        have hw : Schedule.Wraps (progress s) (progress (setThread s r
            { returned := (s.thread r).returned + 1, inside := none } s.fabric)) r (4 * number_steps n) :=
          { other := fun _ hq => progress_of_ne hq
            run := by rw [progress_self]; rfl
            before := by simp only [progress, hst, Op.position]; omega
            after := by rw [progress_self]; rfl }
        refine ⟨I, h.set (h.tracks.recount (hw.tally fun p hu _ => ?_) (hw.tally fun p hu _ => ?_)) (by simp)⟩
        · cases p <;> simp only [schedule, decide_eq_true_eq] at hu ⊢ <;> omega
        · cases p <;> simp only [schedule, decide_eq_true_eq] at hu ⊢ <;> omega
    | waitForCompletion =>
      have hi := hlt (by simp)
      obtain ⟨F', hF, he⟩ := Option.map_eq_some_iff.mp (show Option.map _ _ = _ by simpa only [execute, hin] using he)
      cases he
      obtain ⟨hset, rfl⟩ := waitForCompletion_some hF
      exact h.takes (p := .target r i) (decide_eq_true hi) rfl hst hset rfl rfl
        fun j op hj => by cases hj; exact ⟨hle, fun _ => hi⟩
    | ackTransfer =>
      have hi := hlt (by simp)
      simp only [execute, hin, Option.some.injEq, Prod.mk.injEq] at he
      obtain ⟨rfl, rfl⟩ := he
      refine ⟨_, h.posts hn (p := .source (source r i) i) (decide_eq_true hi) (target_source hn hi r)
        hst ?_ rfl rfl fun j op hj => ?_⟩
      · -- the partner has sent the signal just received, and waits
        have h1 := h.signal r hi
        have h2 := h.acknowledged (source r i) hi
        have h3 := (progress s (source r i)).passed_le (4 * i)
        have h4 := (progress s (source r i)).run_le_passed (4 * i + 3)
        rw [sent_source _ hi, taken_source _ hi]
        rw [target_source hn hi] at h2 ⊢
        rw [Progress.passed_of_lt (g := progress s r) (by simp only [progress, hst, Op.position]; omega)] at h1
        rw [Progress.passed_of_le (g := progress s r) (by simp only [progress, hst, Op.position]; omega)]
          at h2 ⊢
        omega
      · cases hj; exact ⟨hle, fun _ => hi⟩
    | waitForTransferAck =>
      have hi := hlt (by simp)
      obtain ⟨F', hF, he⟩ := Option.map_eq_some_iff.mp (show Option.map _ _ = _ by simpa only [execute, hin] using he)
      cases he
      obtain ⟨hset, rfl⟩ := waitForTransferAck_some hF
      exact h.takes (p := .source r i) (decide_eq_true hi) rfl hst hset rfl
        (by simp only [steps, schedule, Op.position]; omega)
        fun j op hj => by cases hj; exact ⟨hi, fun hop => absurd rfl hop⟩

end Holds

/-- **The invariant holds under every interleaving.** -/
theorem holds_of_reach (hn : n ≤ 2 ^ 15) {s : Sys n} (h : Reach s) : ∃ I, Holds s I := by
  refine Reaches.invariant (P := fun s => ∃ I, Holds s I) h ⟨_, Holds.initial⟩ ?_
  rintro s a t ⟨I, hI⟩ - ha
  cases a with
  | enter r =>
    simp only [step] at ha
    split at ha
    · next hout =>
      cases ha
      have hp : progress (setThread s r { s.thread r with inside := some (0, .initTransfer) } s.fabric) =
          progress s := progress_same rfl (by simp [steps, hout, Op.position])
      refine ⟨I, hI.set (by rw [hp]; exact hI.tracks) fun i op hi => ?_⟩
      cases hi
      exact ⟨Nat.zero_le _, fun hop => absurd rfl hop⟩
    · cases ha
  | execute r =>
    obtain ⟨⟨t, F⟩, he, rfl⟩ := Option.map_eq_some_iff.mp ha
    exact hI.executes hn he
  | advance p i =>
    obtain ⟨F, hF, rfl⟩ := Option.map_eq_some_iff.mp ha
    exact ⟨I, hI.tracks.advance hF, hI.iteration⟩

/-! ## No deadlock -/

theorem step_execute {s : Sys n} {r : Fin n} {t : Thread} {F : Net n}
    (h : execute r (s.thread r) s.fabric = some (t, F)) (hne : t.inside ≠ (s.thread r).inside) :
    ∃ u, step s (.execute r) = some u ∧ u.thread r ≠ s.thread r := by
  refine ⟨setThread s r t F, by rw [step, h]; rfl, fun he => hne ?_⟩
  rw [← he, show (setThread s r t F).thread r = t from Function.update_self ..]

theorem Holds.live {s : Sys n} {I : Channels (Port n) Unit Unit} (h : Holds s I) {r : Fin n}
    (hr : (s.thread r).inside ≠ none) (hall : ∀ q, entered s r ≤ entered s q)
    (hd : s.fabric.Delivered) : ∃ q t, step s (.execute q) = some t ∧ t.thread q ≠ s.thread q := by
  have : Nonempty (Fin n) := ⟨r⟩
  -- a rank that is behind all others is inside the same call
  obtain ⟨q, hq⟩ := Progress.exists_behind (progress s)
  have hin : (s.thread q).inside ≠ none := by
    intro hout
    have h1 := hq r
    have h2 := hall q
    simp only [Progress.Behind, progress] at h1
    simp only [entered, if_neg hr, hout, if_true] at h2
    omega
  refine ⟨q, ?_⟩
  cases hpc : (s.thread q).inside with
  | none => exact absurd hpc hin
  | some pc =>
    obtain ⟨i, op⟩ := pc
    obtain ⟨-, hlt⟩ := h.iteration q i op hpc
    have hst : (progress s q).steps = 4 * i + op.position := by simp [progress, steps, hpc]
    cases op with
    | initTransfer =>
      by_cases hi : i < number_steps n
      · exact step_execute (by simp only [execute, hpc, if_pos hi]; rfl) (by simp [hpc])
      · exact step_execute (by simp only [execute, hpc, if_neg hi]; rfl) (by simp [hpc])
    | waitForCompletion =>
      have hi := hlt (by simp)
      have hslot := Schedule.awaited (S := schedule n) h.tracks (p := .target q i) hq (decide_eq_true hi)
        hst (by simp only [schedule]; omega) (hd _)
      exact step_execute (F := s.fabric.reset (.target q i))
        (by simp only [execute, hpc, waitForCompletion, waitForNotification, hslot]; rfl) (by simp [hpc])
    | ackTransfer => exact step_execute (by simp only [execute, hpc]; rfl) (by simp [hpc])
    | waitForTransferAck =>
      have hi := hlt (by simp)
      have hslot := Schedule.awaited (S := schedule n) h.tracks (p := .source q i) hq (decide_eq_true hi)
        hst (by simp only [schedule]; omega) (hd _)
      exact step_execute (F := s.fabric.reset (.source q i))
        (by simp only [execute, hpc, waitForTransferAck, waitForNotification, hslot]; rfl) (by simp [hpc])

/-! ## Results -/

/-- What every reachable state of the group promises. -/
structure Correct (s : Sys n) : Prop where
  synchronized : ∀ r q, (s.thread r).returned ≤ entered s q
  no_overrun : ∀ p, ¬ s.fabric.Overrun p
  /-- Some rank is inside a call all ranks have entered, and nothing is in flight. -/
  live : ∀ r, (s.thread r).inside ≠ none → (∀ q, entered s r ≤ entered s q) → s.fabric.Delivered →
    ∃ q t, step s (.execute q) = some t ∧ t.thread q ≠ s.thread q

/-- **The barrier synchronizes any number of calls, under every interleaving.** -/
theorem barrier_correct (hn : n ≤ 32768) {s : Sys n} (h : Reach s) : Correct s := by
  obtain ⟨I, hI⟩ := holds_of_reach hn h
  exact ⟨hI.synchronized hn, hI.tracks.sim.no_overrun, fun r => hI.live⟩

/-- Three ranks execute one call in lockstep. -/
def lockstep : List (Action 3) :=
  let each (a : Fin 3 → Action 3) := (List.finRange 3).map a
  each .enter ++ ([0, 1].flatMap fun i =>
    each .execute ++ each (fun r => .advance (.target r i) 0) ++ each .execute ++
    each .execute ++ each (fun r => .advance (.source r i) 0) ++ each .execute) ++ each .execute

theorem barrier_correct_lockstep :
    ∃ s : Sys 3, Reach s ∧ (∀ r, (s.thread r).returned = 2) ∧ Correct s := by
  obtain ⟨s, hs, hret⟩ : ∃ s : Sys 3, Reach s ∧ ∀ r, (s.thread r).returned = 2 :=
    exists_reaches_of_exec (lockstep ++ lockstep) (by decide)
  exact ⟨s, hs, hret, barrier_correct (by decide) hs⟩

end GaspiCxx.Collectives.Barrier
