import GaspiCxx.Context.Interchangeable
import GaspiCxx.Runs.Trace

/-!
# `RoundRobinQueuesContext` with many threads

Any number of threads post through one context and flush it. `queue_index` is
atomic, and `select_available_queue` has the mutex while it waits for the next
queue. Meanwhile other threads post to any queue, also to that one, because the
index they go by may be an old one.

An operation occupies its queue until a `gaspi_wait` for the queue returns, which
it does when all operations in the queue are complete. They complete in any
order. The library may refuse any posting call and any wait; the call then throws.

**`threads_served`**: every call posts its operation once, the threads try again a
bounded number of times, nobody waits forever, and behind a flush everything
posted before it is complete.
-/

namespace GaspiCxx.Context.Threads

open RoundRobinQueuesContext Runs

/-- Where a thread is. -/
inductive Pc (ids : List QueueID) where
  | idle
  /-- Before the posting call, with `current_queue_index`. -/
  | posting (op : Operation) (current_queue_index : Fin ids.length)
  | selecting (op : Operation) (full_queue_index : Fin ids.length)
  /-- In `select_available_queue`, waiting for the queue. -/
  | flushing (op : Operation) (current_queue_index : Fin ids.length)
  /-- In `flush`, with the queues that are left. -/
  | waiting (rest : List (Fin ids.length))
  deriving DecidableEq, Repr

def Pc.pending {ids : List QueueID} : Pc ids → List Operation
  | posting op _ => [op]
  | selecting op _ => [op]
  | flushing op _ => [op]
  | _ => []

structure State (ids : List QueueID) (Thread : Type) where
  queue_index : Fin ids.length
  queue_index_mutex : Option Thread
  pc : Thread → Pc ids
  /-- The operations in the queues, by the order of all posts. -/
  occupancy : Fin ids.length → List Nat
  /-- What has been posted. -/
  count : Nat
  complete : Nat → Bool

inductive Label (Thread : Type) where
  | call (t : Thread) (op : Operation)
  | posts (t : Thread) (op : Operation)
  | full (t : Thread)
  /-- The index as another thread left it. -/
  | elsewhere (t : Thread)
  | locks (t : Thread)
  | selects (t : Thread)
  | throws (t : Thread) (op : Operation)
  | flush (t : Thread)
  | waits (t : Thread)
  | flushThrows (t : Thread)
  | flushed (t : Thread)
  | completes (k : Nat)
  deriving DecidableEq, Repr

variable {ids : List QueueID} {Thread : Type}

namespace State

/-- After the constructor. -/
def constructed (Thread : Type) (h : 0 < ids.length) : State ids Thread where
  queue_index := ⟨0, h⟩
  queue_index_mutex := none
  pc _ := .idle
  occupancy _ := []
  count := 0
  complete _ := false

variable (S : State ids Thread)

def Room (capacity : Nat) (q : Fin ids.length) : Prop := (S.occupancy q).length < capacity

instance (capacity : Nat) (q : Fin ids.length) : Decidable (S.Room capacity q) :=
  inferInstanceAs (Decidable ((S.occupancy q).length < capacity))

/-- `gaspi_wait` for `q` can return. -/
def Drained (q : Fin ids.length) : Prop := ∀ k ∈ S.occupancy q, S.complete k = true

instance (q : Fin ids.length) : Decidable (S.Drained q) :=
  inferInstanceAs (Decidable (∀ k ∈ S.occupancy q, S.complete k = true))

/-- `gaspi_wait` for `q` returns. -/
def drain (q : Fin ids.length) : State ids Thread := { S with occupancy := Function.update S.occupancy q [] }

variable [DecidableEq Thread]

def setPc (t : Thread) (pc : Pc ids) : State ids Thread := { S with pc := Function.update S.pc t pc }

end State

section

variable [DecidableEq Thread]

inductive Step (capacity : Nat) : State ids Thread → Label Thread → State ids Thread → Prop where
  | call (S : State ids Thread) {t : Thread} (op : Operation) (h : S.pc t = .idle) :
      Step capacity S (.call t op) (S.setPc t (.posting op S.queue_index))
  | post (S : State ids Thread) {t : Thread} {op : Operation} {q : Fin ids.length} (h : S.pc t = .posting op q)
      (room : S.Room capacity q) :
      Step capacity S (.posts t op)
        { S.setPc t .idle with
          occupancy := Function.update S.occupancy q (S.occupancy q ++ [S.count])
          count := S.count + 1 }
  | full (S : State ids Thread) {t : Thread} {op : Operation} {q : Fin ids.length} (h : S.pc t = .posting op q)
      (full : ¬ S.Room capacity q) : Step capacity S (.full t) (S.setPc t (.selecting op q))
  | postThrows (S : State ids Thread) {t : Thread} {op : Operation} {q : Fin ids.length}
      (h : S.pc t = .posting op q) : Step capacity S (.throws t op) (S.setPc t .idle)
  | elsewhere (S : State ids Thread) {t : Thread} {op : Operation} {q : Fin ids.length} (h : S.pc t = .selecting op q)
      (unlocked : S.queue_index_mutex = none) (other : S.queue_index ≠ q) :
      Step capacity S (.elsewhere t) (S.setPc t (.posting op S.queue_index))
  | lock (S : State ids Thread) {t : Thread} {op : Operation} {q : Fin ids.length} (h : S.pc t = .selecting op q)
      (unlocked : S.queue_index_mutex = none) (same : S.queue_index = q) :
      Step capacity S (.locks t) { S.setPc t (.flushing op (next q)) with queue_index_mutex := some t }
  | select (S : State ids Thread) {t : Thread} {op : Operation} {q : Fin ids.length} (h : S.pc t = .flushing op q)
      (drained : S.Drained q) :
      Step capacity S (.selects t)
        { (S.drain q).setPc t (.posting op q) with queue_index := q, queue_index_mutex := none }
  | selectThrows (S : State ids Thread) {t : Thread} {op : Operation} {q : Fin ids.length}
      (h : S.pc t = .flushing op q) :
      Step capacity S (.throws t op) { S.setPc t .idle with queue_index_mutex := none }
  | flush (S : State ids Thread) {t : Thread} (h : S.pc t = .idle) :
      Step capacity S (.flush t) (S.setPc t (.waiting (List.finRange ids.length)))
  | wait (S : State ids Thread) {t : Thread} {q : Fin ids.length} {rest : List (Fin ids.length)}
      (h : S.pc t = .waiting (q :: rest)) (drained : S.Drained q) :
      Step capacity S (.waits t) ((S.drain q).setPc t (.waiting rest))
  | waitThrows (S : State ids Thread) {t : Thread} {q : Fin ids.length} {rest : List (Fin ids.length)}
      (h : S.pc t = .waiting (q :: rest)) : Step capacity S (.flushThrows t) (S.setPc t .idle)
  | flushed (S : State ids Thread) {t : Thread} (h : S.pc t = .waiting []) :
      Step capacity S (.flushed t) (S.setPc t .idle)
  | complete (S : State ids Thread) {k : Nat} (known : k < S.count) (open_ : S.complete k = false) :
      Step capacity S (.completes k) { S with complete := Function.update S.complete k true }

end

/-! ## What a run is asked -/

namespace Label

def isCall : Label Thread → Bool
  | call _ _ => true
  | _ => false

def isPost : Label Thread → Bool
  | posts _ _ => true
  | _ => false

/-- A step of the loop around a posting call that does not end it. -/
def retries : Label Thread → Bool
  | full _ => true
  | elsewhere _ => true
  | locks _ => true
  | selects _ => true
  | _ => false

/-- The label is of something that has been begun and is not refused. -/
def proceeds : Label Thread → Bool
  | call _ _ => false
  | flush _ => false
  | throws _ _ => false
  | flushThrows _ => false
  | _ => true

variable [DecidableEq Thread]

def called (t : Thread) : Label Thread → Option Operation
  | call t' op => if t' = t then some op else none
  | _ => none

/-- The posting call of `t` that is over, posted or thrown. -/
def ended (t : Thread) : Label Thread → Option Operation
  | posts t' op => if t' = t then some op else none
  | throws t' op => if t' = t then some op else none
  | _ => none

end Label

def calls (ls : List (Label Thread)) : Nat := ls.countP Label.isCall

def posts (ls : List (Label Thread)) : Nat := ls.countP Label.isPost

def retries (ls : List (Label Thread)) : Nat := ls.countP Label.retries

theorem posts_snoc (ls : List (Label Thread)) (l : Label Thread) :
    posts (ls ++ [l]) = posts ls + if l.isPost then 1 else 0 := by
  rw [posts, List.countP_append, List.countP_singleton]
  rfl

theorem calls_snoc (ls : List (Label Thread)) (l : Label Thread) :
    calls (ls ++ [l]) = calls ls + if l.isCall then 1 else 0 := by
  rw [calls, List.countP_append, List.countP_singleton]
  rfl

theorem retries_snoc (ls : List (Label Thread)) (l : Label Thread) :
    retries (ls ++ [l]) = retries ls + if l.retries then 1 else 0 := by
  rw [retries, List.countP_append, List.countP_singleton]
  rfl

structure Served [DecidableEq Thread] [Fintype Thread] (capacity : Nat) (ls : List (Label Thread))
    (S : State ids Thread) : Prop where
  /-- The calls of a thread end in their order, and each posts its operation or throws. -/
  ended : ∀ t, ls.filterMap (Label.called t) = ls.filterMap (Label.ended t) ++ (S.pc t).pending
  posted : S.count = posts ls
  room : ∀ q, (S.occupancy q).length ≤ capacity
  bounded : retries ls ≤ 6 * (calls ls + Fintype.card Thread * posts ls)
  /-- Of what has been begun something can always go on, unrefused. -/
  proceeds : (∃ t, S.pc t ≠ .idle) → ∃ l S', l.proceeds = true ∧ Step capacity S l S'
  /-- Behind a flush everything posted before it is complete. -/
  flushed : ∀ t before mid after, ls = before ++ .flush t :: mid ++ .flushed t :: after →
    ∀ k < posts before, S.complete k = true

/-! ## The potential -/

section

variable {capacity : Nat} {S S' : State ids Thread} {t : Thread} {q : Fin ids.length} {op : Operation}
  {pc : Pc ids}

/-- How many more steps the loop of a thread that is at `pc` takes if nobody posts. -/
def rank (capacity : Nat) (S : State ids Thread) : Pc ids → Nat
  | .posting _ q =>
    if S.Room capacity q then 1 else if S.queue_index = q ∨ S.Room capacity S.queue_index then 4 else 6
  | .selecting _ q => if S.queue_index = q ∨ S.Room capacity S.queue_index then 3 else 5
  | .flushing _ _ => 2
  | _ => 0

theorem rank_le_six (capacity : Nat) (S : State ids Thread) (pc : Pc ids) : rank capacity S pc ≤ 6 := by
  unfold rank
  split
  · split
    · decide
    · split <;> decide
  · split <;> decide
  · decide
  · decide

/-- Queues that are drained, and an index that goes on to a queue with room, help everybody. -/
theorem rank_mono (hroom : ∀ q, S.Room capacity q → S'.Room capacity q)
    (hindex : S'.queue_index = S.queue_index ∨ S'.Room capacity S'.queue_index) (pc : Pc ids) :
    rank capacity S' pc ≤ rank capacity S pc := by
  have hor : ∀ q, S.queue_index = q ∨ S.Room capacity S.queue_index →
      S'.queue_index = q ∨ S'.Room capacity S'.queue_index := by
    rintro q hq
    rcases hindex with he | hr
    · rw [he]
      exact hq.imp_right (hroom _)
    · exact .inr hr
  cases pc with
  | idle => exact Nat.le_refl _
  | posting op q =>
    simp only [rank]
    by_cases h1 : S.Room capacity q
    · rw [if_pos h1, if_pos (hroom q h1)]
    · rw [if_neg h1]
      by_cases h2 : S.queue_index = q ∨ S.Room capacity S.queue_index
      · rw [if_pos h2, if_pos (hor q h2)]
        split <;> omega
      · rw [if_neg h2]
        split
        · omega
        · split <;> omega
  | selecting op q =>
    simp only [rank]
    by_cases h2 : S.queue_index = q ∨ S.Room capacity S.queue_index
    · rw [if_pos h2, if_pos (hor q h2)]
    · rw [if_neg h2]
      split <;> omega
  | flushing op q => exact Nat.le_refl _
  | waiting rest => exact Nat.le_refl _

theorem room_drain (hcap : 0 < capacity) (S : State ids Thread) (q : Fin ids.length) :
    (S.drain q).Room capacity q := by
  simpa [State.Room, State.drain] using hcap

theorem room_of_room {q' : Fin ids.length} (q : Fin ids.length) (h : S.Room capacity q') :
    (S.drain q).Room capacity q' := by
  unfold State.Room State.drain
  by_cases he : q' = q
  · subst he
    have := h
    unfold State.Room at this
    simp only [Function.update_self, List.length_nil]
    omega
  · simp only [Function.update_of_ne he]
    exact h

/-- The steps all threads may take together if nobody posts. -/
def potential [Fintype Thread] (capacity : Nat) (S : State ids Thread) : Nat := ∑ t, rank capacity S (S.pc t)

variable [Fintype Thread]

theorem potential_le (capacity : Nat) (S : State ids Thread) : potential capacity S ≤ 6 * Fintype.card Thread := by
  unfold potential
  refine (Finset.sum_le_card_nsmul _ _ 6 fun t _ => rank_le_six capacity S _).trans ?_
  rw [Finset.card_univ, smul_eq_mul, Nat.mul_comm]

/-- A step of `t` that no other thread minds. -/
theorem potential_step (capacity : Nat) (S' : State ids Thread) {pc pc' : Pc ids} (t : Thread)
    (ht : S.pc t = pc) (ht' : S'.pc t = pc') (hpc : ∀ u, u ≠ t → S'.pc u = S.pc u)
    (hroom : ∀ q, S.Room capacity q → S'.Room capacity q)
    (hindex : S'.queue_index = S.queue_index ∨ S'.Room capacity S'.queue_index) :
    potential capacity S' + rank capacity S pc ≤ potential capacity S + rank capacity S' pc' := by
  classical
  subst ht ht'
  have hothers : ∑ u ∈ Finset.univ.erase t, rank capacity S' (S'.pc u) ≤
      ∑ u ∈ Finset.univ.erase t, rank capacity S (S.pc u) := by
    refine Finset.sum_le_sum fun u hu => ?_
    rw [hpc u (Finset.ne_of_mem_erase hu)]
    exact rank_mono hroom hindex _
  have hS := Finset.add_sum_erase Finset.univ (fun u => rank capacity S (S.pc u)) (Finset.mem_univ t)
  have hS' := Finset.add_sum_erase Finset.univ (fun u => rank capacity S' (S'.pc u)) (Finset.mem_univ t)
  unfold potential
  omega

end

section

variable [DecidableEq Thread] [Fintype Thread] {capacity : Nat} {S S' : State ids Thread} {l : Label Thread}

/-- A retry is a step less, a call is six more at the most, and a post may hold up every thread. -/
theorem potential_of_step (hcap : 0 < capacity) (h : Step capacity S l S') :
    potential capacity S' + (if l.retries then 1 else 0) ≤
      potential capacity S + (if l.isCall then 6 else 0) + if l.isPost then 6 * Fintype.card Thread else 0 := by
  have hset : ∀ {t pc} pc', S.pc t = pc →
      potential capacity (S.setPc t pc') + rank capacity S pc ≤ potential capacity S + rank capacity S pc' := by
    intro t pc pc' ht
    exact potential_step capacity (S.setPc t pc') t ht (Function.update_self ..)
      (fun u hu => Function.update_of_ne hu ..) (fun _ h => h) (.inl rfl)
  cases h with
  | call op h =>
    have hstep := hset (.posting op S.queue_index) h
    have hle := rank_le_six capacity S (.posting op S.queue_index)
    simp only [rank] at hstep hle
    simp only [Label.retries, Label.isCall, Label.isPost, if_true, Bool.false_eq_true, if_false]
    omega
  | post h room =>
    refine Nat.le_trans (potential_le capacity _) ?_
    simp only [Label.isCall, Label.isPost, if_true, Bool.false_eq_true, if_false]
    omega
  | @full t op q h full =>
    have hstep := hset (.selecting op q) h
    simp only [rank, if_neg full] at hstep
    simp only [Label.retries, Label.isCall, Label.isPost, if_true, Bool.false_eq_true, if_false]
    split at hstep <;> omega
  | postThrows h =>
    have hstep := hset .idle h
    simp only [rank] at hstep
    simp only [Label.retries, Label.isCall, Label.isPost, Bool.false_eq_true, if_false]
    omega
  | @elsewhere t op q h unlocked other =>
    have hstep := hset (.posting op S.queue_index) h
    simp only [rank, other, false_or, true_or, if_true] at hstep
    simp only [Label.retries, Label.isCall, Label.isPost, if_true, Bool.false_eq_true, if_false]
    split at hstep <;> omega
  | @lock t op q h unlocked same =>
    have hstep := hset (.flushing op (next q)) h
    simp only [rank, same, true_or, if_true] at hstep
    simp only [Label.retries, Label.isCall, Label.isPost, if_true, Bool.false_eq_true, if_false]
    exact Nat.le_of_add_le_add_right (b := 2) hstep
  | @select t op q h drained =>
    have hroom : (S.drain q).Room capacity q := room_drain hcap S q
    have hstep := potential_step capacity { (S.drain q).setPc t (.posting op q) with
        queue_index := q, queue_index_mutex := none } t h (Function.update_self ..)
      (fun u hu => Function.update_of_ne hu ..) (fun _ => room_of_room q) (.inr hroom)
    have hone : rank capacity { (S.drain q).setPc t (.posting op q) with
        queue_index := q, queue_index_mutex := none } (.posting op q) = 1 := if_pos hroom
    rw [hone] at hstep
    simp only [Label.retries, Label.isCall, Label.isPost, if_true, Bool.false_eq_true, if_false]
    exact Nat.le_of_add_le_add_right (b := 1) hstep
  | selectThrows h =>
    have hstep := hset .idle h
    simp only [rank] at hstep
    simp only [Label.retries, Label.isCall, Label.isPost, Bool.false_eq_true, if_false]
    exact Nat.le_of_add_right_le hstep
  | flush h =>
    have hstep := hset (.waiting (List.finRange ids.length)) h
    simpa [Label.retries, Label.isCall, Label.isPost, rank] using hstep
  | @wait t q rest h drained =>
    have hstep := potential_step capacity ((S.drain q).setPc t (.waiting rest)) t h
      (Function.update_self ..) (fun u hu => Function.update_of_ne hu ..) (fun _ => room_of_room q) (.inl rfl)
    simpa [Label.retries, Label.isCall, Label.isPost, rank] using hstep
  | waitThrows h =>
    have hstep := hset .idle h
    simpa [Label.retries, Label.isCall, Label.isPost, rank] using hstep
  | flushed h =>
    have hstep := hset .idle h
    simpa [Label.retries, Label.isCall, Label.isPost, rank] using hstep
  | complete known open_ => exact Nat.le_refl _

end

/-! ## What a step does -/

/-- The operation `k` is complete or in one of the queues `qs`. -/
def Covered (S : State ids Thread) (k : Nat) (qs : List (Fin ids.length)) : Prop :=
  S.complete k = true ∨ ∃ q ∈ qs, k ∈ S.occupancy q

section

variable {capacity : Nat} {S S' : State ids Thread} {l : Label Thread} {t : Thread}

theorem mem_drain {q q' : Fin ids.length} {k : Nat} (h : k ∈ (S.drain q).occupancy q') : k ∈ S.occupancy q' := by
  unfold State.drain at h
  by_cases hq : q' = q
  · subst hq
    simp at h
  · simpa [hq] using h

theorem Covered.drain {q : Fin ids.length} {qs : List (Fin ids.length)} {k : Nat} (h : Covered S k qs)
    (hd : S.Drained q) : Covered (S.drain q) k (qs.filter (· ≠ q)) := by
  rcases h with hc | ⟨q', hq', hk⟩
  · exact .inl hc
  · by_cases hq : q' = q
    · subst hq
      exact .inl (hd k hk)
    · exact .inr ⟨q', by simpa using ⟨hq', hq⟩, by simpa [State.drain, hq] using hk⟩

theorem Covered.mono {qs qs' : List (Fin ids.length)} {k : Nat} (h : Covered S k qs) (hsub : ∀ q ∈ qs, q ∈ qs') :
    Covered S k qs' :=
  h.imp_right fun ⟨q, hq, hk⟩ => ⟨q, hsub q hq, hk⟩

variable [DecidableEq Thread]

theorem setPc_cases {u : Thread} {pc pc' : Pc ids} (h : (S.setPc t pc).pc u = pc') :
    (u = t ∧ pc = pc') ∨ (u ≠ t ∧ S.pc u = pc') := by
  have h : Function.update S.pc t pc u = pc' := h
  by_cases hu : u = t
  · subst hu
    rw [Function.update_self] at h
    exact .inl ⟨rfl, h⟩
  · rw [Function.update_of_ne hu] at h
    exact .inr ⟨hu, h⟩

theorem covered_of_step (h : Step capacity S l S') {k : Nat} {qs : List (Fin ids.length)} (hc : Covered S k qs) :
    Covered S' k qs := by
  cases h with
  | @post t op q h room =>
    refine hc.imp_right fun ⟨q', hq', hk⟩ => ⟨q', hq', ?_⟩
    by_cases hq : q' = q
    · subst hq
      simp [hk]
    · simpa [hq] using hk
  | select h drained => exact (hc.drain drained).mono fun q hq => (List.mem_filter.mp hq).1
  | wait h drained => exact (hc.drain drained).mono fun q hq => (List.mem_filter.mp hq).1
  | @complete k' known open_ =>
    refine hc.imp_left fun hk => ?_
    by_cases he : k = k'
    · subst he
      exact Function.update_self ..
    · exact (Function.update_of_ne he ..).trans hk
  | _ => exact hc

theorem count_of_step (h : Step capacity S l S') : S'.count = S.count + if l.isPost then 1 else 0 := by
  cases h <;> rfl

theorem occupancy_of_step (h : Step capacity S l S') {q : Fin ids.length} {k : Nat} (hk : k ∈ S'.occupancy q) :
    k ∈ S.occupancy q ∨ (l.isPost = true ∧ k = S.count) := by
  cases h with
  | @post t op q' h room =>
    by_cases hq : q = q'
    · subst hq
      simpa [Label.isPost] using hk
    · exact .inl (by simpa [hq] using hk)
  | select h drained => exact .inl (mem_drain hk)
  | wait h drained => exact .inl (mem_drain hk)
  | _ => exact .inl hk

theorem pending_setPc {pc pc' : Pc ids} (ht : S.pc t = pc) (he : pc.pending = pc'.pending) (u : Thread) :
    (S.pc u).pending ++ [] = [] ++ (Function.update S.pc t pc' u).pending := by
  by_cases hu : u = t
  · subst hu
    rw [Function.update_self, ht, he, List.append_nil, List.nil_append]
  · rw [Function.update_of_ne hu, List.append_nil, List.nil_append]

theorem pending_begin {pc' : Pc ids} {op : Operation} (ht : (S.pc t).pending = []) (he : pc'.pending = [op])
    (u : Thread) :
    (S.pc u).pending ++ (if t = u then some op else none).toList =
      [] ++ (Function.update S.pc t pc' u).pending := by
  by_cases hu : t = u
  · subst hu
    rw [Function.update_self, ht, he, if_pos rfl]
    rfl
  · rw [Function.update_of_ne (Ne.symm hu), if_neg hu]
    exact List.append_nil _

theorem pending_end {op : Operation} (ht : (S.pc t).pending = [op]) (u : Thread) :
    (S.pc u).pending ++ [] =
      (if t = u then some op else none).toList ++ (Function.update S.pc t .idle u).pending := by
  by_cases hu : t = u
  · subst hu
    rw [Function.update_self, ht, if_pos rfl]
    rfl
  · rw [Function.update_of_ne (Ne.symm hu), if_neg hu]
    exact List.append_nil _

/-- A call begins and ends once. -/
theorem pending_of_step (h : Step capacity S l S') (u : Thread) :
    (S.pc u).pending ++ (l.called u).toList = (l.ended u).toList ++ (S'.pc u).pending := by
  cases h with
  | call op h => exact pending_begin (by rw [h]; rfl) rfl u
  | post h room => exact pending_end (by rw [h]; rfl) u
  | full h full => exact pending_setPc h (by rfl) u
  | postThrows h => exact pending_end (by rw [h]; rfl) u
  | elsewhere h unlocked other => exact pending_setPc h (by rfl) u
  | lock h unlocked same => exact pending_setPc h (by rfl) u
  | select h drained => exact pending_setPc h (by rfl) u
  | selectThrows h => exact pending_end (by rw [h]; rfl) u
  | flush h => exact pending_setPc h (by rfl) u
  | wait h drained => exact pending_setPc h (by rfl) u
  | waitThrows h => exact pending_setPc h (by rfl) u
  | flushed h => exact pending_setPc h (by rfl) u
  | complete known open_ => exact List.append_nil _

/-- How a thread comes to be in `flush`. -/
theorem waiting_of_step (h : Step capacity S l S') {u : Thread} {rest : List (Fin ids.length)}
    (hu : S'.pc u = .waiting rest) :
    S.pc u = .waiting rest ∨ (l = .flush u ∧ rest = List.finRange ids.length) ∨
      ∃ q, S.pc u = .waiting (q :: rest) ∧ S.Drained q ∧ S' = (S.drain q).setPc u (.waiting rest) := by
  cases h with
  | @flush t h =>
    rcases setPc_cases hu with ⟨rfl, he⟩ | ⟨-, hu⟩
    · exact .inr (.inl ⟨rfl, (Pc.waiting.inj he).symm⟩)
    · exact .inl hu
  | @wait t q rest' h drained =>
    rcases setPc_cases hu with ⟨rfl, he⟩ | ⟨-, hu⟩
    · obtain rfl := Pc.waiting.inj he
      exact .inr (.inr ⟨q, h, drained, rfl⟩)
    · exact .inl hu
  | complete known open_ => exact .inl hu
  | _ =>
    rcases setPc_cases hu with ⟨-, he⟩ | ⟨-, hu⟩
    · cases he
    · exact .inl hu

end

/-! ## The invariant -/

theorem snoc_split {A : Type} {xs before mid : List A} {x a : A} (h : xs ++ [x] = before ++ a :: mid) :
    (xs = before ∧ x = a ∧ mid = []) ∨ ∃ mid', mid = mid' ++ [x] ∧ xs = before ++ a :: mid' := by
  rcases List.eq_nil_or_concat mid with rfl | ⟨mid', y, rfl⟩
  · obtain ⟨hxs, hx⟩ := List.append_inj' h rfl
    exact .inl ⟨hxs, List.singleton_inj.mp hx, rfl⟩
  · rw [List.concat_eq_append, ← List.cons_append, ← List.append_assoc] at h
    obtain ⟨hxs, hx⟩ := List.append_inj' h rfl
    obtain rfl := List.singleton_inj.mp hx
    exact .inr ⟨mid', List.concat_eq_append, hxs⟩

structure Inv [DecidableEq Thread] [Fintype Thread] (capacity : Nat) (ls : List (Label Thread))
    (S : State ids Thread) : Prop where
  ended : ∀ t, ls.filterMap (Label.called t) = ls.filterMap (Label.ended t) ++ (S.pc t).pending
  posted : S.count = posts ls
  room : ∀ q, (S.occupancy q).length ≤ capacity
  bounded : retries ls + potential capacity S ≤ 6 * (calls ls + Fintype.card Thread * posts ls)
  /-- Who has the mutex is in `select_available_queue`. -/
  holder : ∀ t, S.queue_index_mutex = some t → ∃ op q, S.pc t = .flushing op q
  held : ∀ t op q, S.pc t = .flushing op q → S.queue_index_mutex = some t
  known : ∀ q, ∀ k ∈ S.occupancy q, k < S.count
  /-- What is not complete is in a queue. -/
  kept : ∀ k < S.count, Covered S k (List.finRange ids.length)
  flushing : ∀ t before mid rest, ls = before ++ .flush t :: mid → S.pc t = .waiting rest →
    ∀ k < posts before, Covered S k rest
  flushed : ∀ t before mid after, ls = before ++ .flush t :: mid ++ .flushed t :: after →
    ∀ k < posts before, S.complete k = true

section

variable [DecidableEq Thread] [Fintype Thread] {capacity : Nat} {S S' : State ids Thread} {l : Label Thread}
  {ls : List (Label Thread)} {t : Thread}

namespace Inv

/-- A thread that is not idle can go on, or the one that has the mutex, or the network. -/
theorem proceeds (h : Inv capacity ls S) (ht : S.pc t ≠ .idle) :
    ∃ l S', l.proceeds = true ∧ Step capacity S l S' := by
  by_cases hopen : ∃ q, ∃ k ∈ S.occupancy q, S.complete k = false
  · obtain ⟨q, k, hk, hopen⟩ := hopen
    exact ⟨_, _, rfl, .complete S (h.known q k hk) hopen⟩
  · have hdrained : ∀ q, S.Drained q := fun q k hk => by
      cases hc : S.complete k with
      | true => rfl
      | false => exact absurd ⟨q, k, hk, hc⟩ hopen
    cases hm : S.queue_index_mutex with
    | some u =>
      obtain ⟨op, q, hu⟩ := h.holder u hm
      exact ⟨_, _, rfl, .select S hu (hdrained q)⟩
    | none =>
      cases hpc : S.pc t with
      | idle => exact absurd hpc ht
      | posting op q =>
        by_cases hroom : S.Room capacity q
        · exact ⟨_, _, rfl, .post S hpc hroom⟩
        · exact ⟨_, _, rfl, .full S hpc hroom⟩
      | selecting op q =>
        by_cases he : S.queue_index = q
        · exact ⟨_, _, rfl, .lock S hpc hm he⟩
        · exact ⟨_, _, rfl, .elsewhere S hpc hm he⟩
      | flushing op q => exact ⟨_, _, rfl, .select S hpc (hdrained q)⟩
      | waiting rest =>
        cases rest with
        | nil => exact ⟨_, _, rfl, .flushed S hpc⟩
        | cons q rest => exact ⟨_, _, rfl, .wait S hpc (hdrained q)⟩

theorem constructed (h : 0 < ids.length) : Inv capacity [] (.constructed Thread h : State ids Thread) where
  ended _ := rfl
  posted := rfl
  room _ := Nat.zero_le _
  bounded := by simp [retries, calls, posts, potential, rank, State.constructed]
  holder _ ht := by cases ht
  held _ _ _ ht := by cases ht
  known _ _ hk := by cases hk
  kept _ hk := by cases hk
  flushing _ before mid _ hls := by simp at hls
  flushed _ before mid after hls := by simp at hls

theorem holder_keep (h : Inv capacity ls S) {u : Thread} {pc pc' : Pc ids} (ht : S.pc t = pc)
    (hpc : ∀ op q, pc ≠ .flushing op q) (hu : S.queue_index_mutex = some u) :
    ∃ op q, Function.update S.pc t pc' u = .flushing op q := by
  obtain ⟨op, q, hflush⟩ := h.holder u hu
  have hne : u ≠ t := by
    rintro rfl
    exact hpc op q (ht.symm.trans hflush)
  exact ⟨op, q, (Function.update_of_ne hne ..).trans hflush⟩

theorem holder_step (h : Inv capacity ls S) (hstep : Step capacity S l S') (u : Thread)
    (hu : S'.queue_index_mutex = some u) : ∃ op q, S'.pc u = .flushing op q := by
  cases hstep with
  | @lock t op q ht unlocked same =>
    obtain rfl := Option.some.inj hu
    exact ⟨op, next q, Function.update_self ..⟩
  | select ht drained => cases hu
  | selectThrows ht => cases hu
  | complete known open_ => exact h.holder u hu
  | call op ht => exact h.holder_keep ht (by simp) hu
  | post ht room => exact h.holder_keep ht (by simp) hu
  | full ht full => exact h.holder_keep ht (by simp) hu
  | postThrows ht => exact h.holder_keep ht (by simp) hu
  | elsewhere ht unlocked other => exact h.holder_keep ht (by simp) hu
  | flush ht => exact h.holder_keep ht (by simp) hu
  | wait ht drained => exact h.holder_keep ht (by simp) hu
  | waitThrows ht => exact h.holder_keep ht (by simp) hu
  | flushed ht => exact h.holder_keep ht (by simp) hu

/-- Nobody else is in `select_available_queue`. -/
theorem alone (h : Inv capacity ls S) {u : Thread} {op op' : Operation} {q q' : Fin ids.length}
    (ht : S.pc t = .flushing op q) (hu : S.pc u = .flushing op' q') : u = t := by
  have hmine := h.held t op q ht
  rw [h.held u op' q' hu] at hmine
  exact Option.some.inj hmine

theorem held_step (h : Inv capacity ls S) (hstep : Step capacity S l S') (u : Thread) (op : Operation)
    (q : Fin ids.length) (hu : S'.pc u = .flushing op q) : S'.queue_index_mutex = some u := by
  cases hstep with
  | lock ht unlocked same =>
    rcases setPc_cases hu with ⟨rfl, -⟩ | ⟨-, hu⟩
    · rfl
    · rw [h.held u op q hu] at unlocked
      cases unlocked
  | select ht =>
    rcases setPc_cases hu with ⟨-, he⟩ | ⟨hne, hu⟩
    · cases he
    · exact absurd (h.alone ht hu) hne
  | selectThrows ht =>
    rcases setPc_cases hu with ⟨-, he⟩ | ⟨hne, hu⟩
    · cases he
    · exact absurd (h.alone ht hu) hne
  | complete known open_ => exact h.held u op q hu
  | _ =>
    rcases setPc_cases hu with ⟨-, he⟩ | ⟨-, hu⟩
    · cases he
    · exact h.held u op q hu

theorem room_step (h : Inv capacity ls S) (hstep : Step capacity S l S') (q : Fin ids.length) :
    (S'.occupancy q).length ≤ capacity := by
  have hq := h.room q
  cases hstep with
  | @post t op q' ht room =>
    by_cases he : q = q'
    · subst he
      have hlt : (S.occupancy q).length < capacity := room
      simpa using hlt
    · simpa [he] using hq
  | @select t op q' ht drained =>
    by_cases he : q = q'
    · subst he
      simp [State.setPc, State.drain]
    · simpa [State.setPc, State.drain, he] using hq
  | @wait t q' rest ht drained =>
    by_cases he : q = q'
    · subst he
      simp [State.setPc, State.drain]
    · simpa [State.setPc, State.drain, he] using hq
  | _ => exact hq

theorem step (hcap : 0 < capacity) (h : Inv capacity ls S) (hstep : Step capacity S l S') :
    Inv capacity (ls ++ [l]) S' where
  ended u := by
    have hu := pending_of_step hstep u
    rw [List.filterMap_append, List.filterMap_append, h.ended u]
    cases hc : l.called u <;> cases he : l.ended u <;> simp_all
  posted := by
    rw [count_of_step hstep, h.posted, posts_snoc]
  room := h.room_step hstep
  bounded := by
    have hpot := potential_of_step hcap hstep
    have hold := h.bounded
    rw [retries_snoc, calls_snoc, posts_snoc]
    simp only [Nat.mul_add] at hold ⊢
    revert hpot
    cases l.retries <;> cases l.isCall <;> cases l.isPost <;> intro hpot <;>
      simp only [Bool.false_eq_true, if_true, if_false, Nat.mul_one, Nat.mul_zero] at hpot ⊢ <;> omega
  holder := h.holder_step hstep
  held := h.held_step hstep
  known q k hk := by
    rw [count_of_step hstep]
    rcases occupancy_of_step hstep hk with hk | ⟨hl, rfl⟩
    · exact Nat.lt_of_lt_of_le (h.known q k hk) (Nat.le_add_right ..)
    · rw [if_pos hl]
      exact Nat.lt_succ_self _
  kept k hk := by
    by_cases hold : k < S.count
    · exact covered_of_step hstep (h.kept k hold)
    · rw [count_of_step hstep] at hk
      cases hstep with
      | @post t op q ht room =>
        obtain rfl : k = S.count := by
          simp only [Label.isPost, if_true] at hk
          omega
        exact .inr ⟨q, List.mem_finRange q, by simp⟩
      | _ => exact absurd hk hold
  flushing u before mid rest hls hu k hk := by
    have hbefore : k < posts ls → Covered S k (List.finRange ids.length) := fun hlt => h.kept k (h.posted ▸ hlt)
    rcases snoc_split hls with ⟨rfl, rfl, -⟩ | ⟨mid', rfl, hls'⟩
    · have hall := covered_of_step hstep (hbefore hk)
      cases hstep with
      | flush ht =>
        rcases setPc_cases hu with ⟨-, he⟩ | ⟨hne, -⟩
        · exact Pc.waiting.inj he ▸ hall
        · exact absurd rfl hne
    · rcases waiting_of_step hstep hu with hold | ⟨-, rfl⟩ | ⟨q, hold, hd, rfl⟩
      · exact covered_of_step hstep (h.flushing u before mid' rest hls' hold k hk)
      · refine covered_of_step hstep (hbefore (Nat.lt_of_lt_of_le hk ?_))
        rw [hls', posts, posts, List.countP_append]
        exact Nat.le_add_right ..
      · have hleft : Covered (S.drain q) k rest :=
          ((h.flushing u before mid' _ hls' hold k hk).drain hd).mono fun q' hq' => by
            obtain ⟨hmem, hne⟩ := List.mem_filter.mp hq'
            exact (List.mem_cons.mp hmem).resolve_left (by simpa using hne)
        exact hleft
  flushed u before mid after hls k hk := by
    have hdone : ∀ {T : State ids Thread}, Covered T k [] → T.complete k = true := fun hc =>
      hc.resolve_right fun ⟨_, hq, _⟩ => by cases hq
    rcases snoc_split hls with ⟨hls', rfl, -⟩ | ⟨after', rfl, hls'⟩
    · cases hstep with
      | flushed ht => exact hdone (h.flushing u before mid [] hls' ht k hk)
    · exact hdone (covered_of_step hstep (.inl (h.flushed u before mid after' hls' k hk)))

theorem served (h : Inv capacity ls S) : Served capacity ls S where
  ended := h.ended
  posted := h.posted
  room := h.room
  bounded := Nat.le_trans (Nat.le_add_right ..) h.bounded
  proceeds := fun ⟨_, ht⟩ => h.proceeds ht
  flushed := h.flushed

end Inv

/-- **A context that many threads share serves all of them.** -/
theorem threads_served (hcap : 0 < capacity) (hn : 0 < ids.length)
    (h : Trace (Step capacity) (.constructed Thread hn : State ids Thread) ls S) : Served capacity ls S := by
  have hI : Inv capacity ls S := h.history (.constructed hn) fun _ _ _ _ hI hl => hI.step hcap hl
  exact hI.served

/-- Two threads find the same queue full; the second one follows the first to the next queue. -/
theorem threads_served_two :
    ∃ ls S, Trace (Step 1) (State.constructed Bool (by decide) : State [3, 4] Bool) ls S ∧ retries ls = 5 ∧
      Served 1 ls S := by
  let op : Operation := .gaspi_notify 0 0 0 1
  have first : Trace (Step 1) (State.constructed Bool (by decide) : State [3, 4] Bool) _ _ :=
    (Trace.single (.call _ (t := false) op rfl)).snoc (.post _ (t := false) rfl (by decide))
  have both := ((first.snoc (.call _ (t := false) op rfl)).snoc (.full _ (t := false) rfl (by decide))).snoc
    (.call _ (t := true) op rfl)
  have locked := (both.snoc (.full _ (t := true) rfl (by decide))).snoc (.lock _ (t := false) rfl rfl rfl)
  have selected := (locked.snoc (.select _ (t := false) rfl (by decide))).snoc (.post _ (t := false) rfl (by decide))
  have follows := selected.snoc (.elsewhere _ (t := true) rfl rfl (by decide))
  have whole := (follows.snoc (.flush _ (t := false) rfl)).snoc (.complete _ (k := 0) (by decide) rfl)
  exact ⟨_, _, whole, rfl, threads_served (by decide) (by decide) whole⟩

end

end GaspiCxx.Context.Threads
