import GaspiCxx.Collectives.BroadcastBasicLinear.Preserved

/-!
# One run of the linear broadcast

In its first run no rank can disturb another: nothing has been posted before.
So every call is careful, and the run is correct under every interleaving.
-/

namespace GaspiCxx.Collectives.BroadcastBasicLinear

open OneSided SingleSided GroupUtilities

variable {n number_elements : Nat} {T : Type} (root : Fin n)
  (input : Fin n → Nat → Vec number_elements T)

/-- What one run promises. -/
structure OneRun (s : GroupSys number_elements n T) : Prop where
  result : ∀ r, (s.node r).state = .finished →
    copyOutImpl root r (s.node r).fields s.fabric = input root 0
  outputs : ∀ r out, out ∈ (s.node r).outputs → out = input root 0
  live : s.fabric.Delivered → (∃ r, Unfinished (s.node r)) →
    ∃ r, Unfinished (s.node r) ∧ (broadcast number_elements root T).Proceeds input s r

/-- A step sets the slot of `p`. -/
def SetsSlot (p : Port n) (s t : GroupSys number_elements n T) : Bool := Fabric.sets p s.fabric t.fabric

/-- A step consumes the slot of `p`. -/
def ClearsSlot (p : Port n) (s t : GroupSys number_elements n T) : Bool := Fabric.clears p s.fabric t.fabric

variable {root input} {s : GroupSys number_elements n T}
  {I : Channels (Port n) (Fin n) (Vec number_elements T)} {r : Fin n}

namespace Holds

/-! ## No rank waits for nothing -/

/-- With nothing in flight, the call that is due on a rank behind all others
changes its object. -/
theorem proceeds (h : Holds root input s I) (hN : 0 < number_elements) (hn : 2 ≤ n)
    (hd : s.fabric.Delivered) (hr : ∀ q, (progress s r).Behind (progress s q)) :
    (broadcast number_elements root T).Proceeds input s r := by
  by_cases hs : (s.node r).state = .running
  · have hst : (progress s r).steps = (s.node r).fields.iteration := by simp [steps, hs]
    have hit := h.iteration r hs
    have hlt := dist_lt root r
    -- the next iteration
    have hnext : ({ (s.node r).fields with iteration := (s.node r).fields.iteration + 1 } : Fields) ≠
        (s.node r).fields := by
      intro he
      have := congrArg Fields.iteration he
      simp at this
    by_cases hi : (s.node r).fields.iteration = n
    · by_cases hd2 : dist root r + 2 = n
      · have hslot := Schedule.awaited (S := schedule number_elements root) h.tracks (p := .source r) hr
          (used_source.mpr hd2) (by simp only [schedule]; omega) (by simp only [schedule]; omega) (hd _)
        exact Collective.proceeds_of_trigger hs (triggerProgressImpl_ack hN hn hi hd2) (.inl hslot)
      · exact Collective.proceeds_of_trigger hs (triggerProgressImpl_exit hN hn hi hd2) (.inl rfl)
    · by_cases hd1 : dist root r = (s.node r).fields.iteration
      · have hslot := Schedule.awaited (S := schedule number_elements root) h.tracks (p := .target r) hr
          (used_target.mpr (by omega)) (by simp only [schedule]; omega) (by simp only [schedule]; omega) (hd _)
        exact Collective.proceeds_of_trigger hs (triggerProgressImpl_set hN hn hi hd1 hslot) (.inr hnext)
      · exact Collective.proceeds_of_trigger hs (triggerProgressImpl_tick hN hn hi hd1) (.inr hnext)
  · exact Collective.proceeds_of_not_running hs

/-! ## In the first run every call is careful -/

/-- The transfer out of the right neighbour's buffer comes after one into it. -/
theorem flight_right (h : Holds root input s I) (hd : dist root r + 1 < n)
    (hst : steps n (s.node r) ≤ dist root r)
    (hf : s.fabric.flight (.target (right (right r))) ≠ []) :
    dist root (right r) + 1 < n ∧
      (progress s (right (right r))).passed (dist root r + 2) < (progress s (right r)).passed (dist root r + 1) ∧
      (progress s (right r)).passed (dist root r + 1) ≤ (s.node r).run := by
  have hlt := h.tracks.lt_of_flight hf
  have hpos := used_target.mp (Schedule.used_of_lt hlt)
  have hnext := dist_next root hd
  have hle := dist_lt root (right r)
  have hd' : dist root (right r) + 1 < n := by
    by_contra hge
    rw [dist_right, if_pos (by omega)] at hpos
    cases hpos
  have hlink := h.link hd
  rw [sent_target _ hpos, taken_target _ hpos, left_right, dist_next root hd', hnext, Nat.add_sub_cancel]
    at hlt
  rw [Progress.passed_of_le (g := progress s r) hst] at hlink
  exact ⟨hd', hlt, hlink⟩

theorem clear_of_first (h : Holds root input s I) (h0 : (s.node r).run = 0) (hd : dist root r + 1 < n)
    (hst : steps n (s.node r) ≤ dist root r) : Clear s r := by
  refine ⟨by omega, ?_⟩
  by_contra hf
  obtain ⟨-, hlt, hle⟩ := h.flight_right hd hst hf
  omega

theorem careful_of_first (h : Holds root input s I) (hn : 2 ≤ n) (h0 : (s.node r).run = 0) {c : Call}
    {t : GroupSys number_elements n T}
    (ha : (broadcast number_elements root T).Stepped input s (.call r c) t) : Careful root s r c := by
  have hroot := dist_self root
  cases ha with
  | copyIn hs hc =>
    rintro rfl
    by_contra hf
    have hlt := h.tracks.lt_of_flight hf
    have hnext := dist_next r (r := r) (by omega)
    rw [sent_target _ (by omega), left_right, Progress.passed_of_le (by simp [steps, hs]),
      progressOf_run, h0] at hlt
    exact Nat.not_lt_zero _ hlt
  | start hs hc =>
    rintro rfl
    exact h.clear_of_first h0 (by omega) (by simp [steps, hs])
  | trigger hs hc =>
    rintro ⟨-, hi, hd, -⟩
    exact h.clear_of_first h0 hd (by simp [steps, hs, hi])
  | idle hs => exact fun hw => absurd hw.1 hs
  | waitForSetup | copyOut => trivial

/-- A step of the first run keeps the invariant, and counts what it takes. -/
theorem next_of_first (h : Holds root input s I) (hN : 0 < number_elements) (hn : 2 ≤ n)
    {a : Action (Fin n) (Port n)} {t : GroupSys number_elements n T} (hg : FirstRun s a)
    (ha : (broadcast number_elements root T).Stepped input s a t) (p : Port n) :
    (∃ I', Holds root input t I') ∧
      (schedule number_elements root).taken (progress t) p =
        (schedule number_elements root).taken (progress s) p + (if ClearsSlot p s t then 1 else 0) ∧
      (schedule number_elements root).taken (progress t) p + (if t.fabric.slot p then 1 else 0) =
        (schedule number_elements root).taken (progress s) p + (if s.fabric.slot p then 1 else 0) +
          if SetsSlot p s t then 1 else 0 := by
  cases a with
  | call r c =>
    obtain ⟨hI, hcalm⟩ := h.call hN hn ha (h.careful_of_first hn hg ha)
    obtain ⟨hsets, hcount⟩ := hcalm.counts p
    exact ⟨hI, hcalm.taken p, by rw [hcount, SetsSlot, hsets]; rfl⟩
  | advance q i =>
    cases ha with
    | network hG =>
      obtain ⟨hset, hclear⟩ := h.tracks.advance_sets hG p
      refine ⟨⟨I, h.network hG⟩, ?_, ?_⟩
      · rw [ClearsSlot, hclear]; rfl
      · rw [hset, SetsSlot, ← Nat.add_assoc]; rfl

end Holds

/-! ## Three ranks with one element, root 1 -/

section

def tag (r : Fin 3) (k : Nat) : Vec 1 Nat := fun _ => 10 * k + r

def setup : List (Action (Fin 3) (Port 3)) := (List.finRange 3).map fun r => .call r .waitForSetup

def enter (r : Fin 3) : List (Action (Fin 3) (Port 3)) := [.call r .copyIn, .call r .start]

/-- Rank `r` makes `k` calls. -/
def triggers (r : Fin 3) (k : Nat) : List (Action (Fin 3) (Port 3)) :=
  List.replicate k (.call r .triggerProgress)

/-- The transfer to rank `r` is read, stored and notified. -/
def deliver (r : Fin 3) : List (Action (Fin 3) (Port 3)) := List.replicate 3 (.advance (.target r) 0)

/-- A whole run along the chain `a`, `b`, `c`. -/
def chain (a b c : Fin 3) : List (Action (Fin 3) (Port 3)) :=
  enter a ++ enter b ++ enter c ++ deliver b ++ triggers b 2 ++ triggers a 3 ++ deliver c ++
    triggers c 3 ++ [.advance (.source b) 0] ++ triggers b 2

end

/-! ## Result -/

variable {m : Fin n → Vec number_elements T}

theorem holds_of_first (hN : 0 < number_elements) (hn : 2 ≤ n)
    (h : (broadcast number_elements root T).Reach input m FirstRun s) : ∃ I, Holds root input s I := by
  refine Collective.Reach.invariant (P := fun s => ∃ I, Holds root input s I) ⟨_, Holds.initial m⟩ ?_ h
  rintro s a t ⟨I, hI⟩ hg ha
  exact (hI.next_of_first hN hn hg ha (.source root)).1

/-- In its one run a rank is sent at most one transfer. -/
theorem sent_le_one (h : (broadcast number_elements root T).Reach input m FirstRun s) (hr : r ≠ root) :
    (schedule number_elements root).sent (progress s) (.target r) ≤ 1 := by
  rw [sent_target _ ((pos_iff root r).mpr hr)]
  rcases h.first_run (left r) with h0 | ⟨h1, hs⟩
  · exact Nat.le_trans ((progress s (left r)).passed_le _) (by simp [h0])
  · rw [Progress.passed_of_le (by simp [steps, hs]), progressOf_run, h1]

theorem taken_initial (p : Port n) : (schedule number_elements root).taken
    (progress ((broadcast number_elements root T).initial m)) p = 0 := by
  simp [Schedule.taken, Schedule.tally, progressOf, steps, Collective.initial, Node.run, Progress.passed]

/-- The slot is set once for each message taken, and once more for a message in it. -/
theorem set_at_most_once {k : Nat} (hN : 0 < number_elements) (hn : 2 ≤ n) (hr : r ≠ root)
    (h : ReachesCounting ((broadcast number_elements root T).step input) FirstRun
      (SetsSlot (.target r)) ((broadcast number_elements root T).initial m) k s) : k ≤ 1 := by
  obtain ⟨⟨I, hI⟩, hk⟩ := h.invariant (P := fun s k => (∃ I, Holds root input s I) ∧
      k = (schedule number_elements root).taken (progress s) (.target r) +
        if s.fabric.slot (.target r) then 1 else 0)
    ⟨⟨_, Holds.initial m⟩, by rw [taken_initial]; rfl⟩
    (fun s a t k ⟨⟨I, hI⟩, hk⟩ hg ha => by
      obtain ⟨hI', -, hset⟩ := hI.next_of_first hN hn hg (Collective.stepped ha) (.target r)
      exact ⟨hI', by rw [hset, hk]⟩)
  have hsent := sent_le_one h.reaches hr
  cases hslot : s.fabric.slot (.target r) with
  | true =>
    have := hI.tracks.lt_of_slot hslot
    simp only [hslot, if_true] at hk
    omega
  | false =>
    have := hI.tracks.taken_le (.target r)
    simp only [hslot, Bool.false_eq_true, if_false] at hk
    omega

theorem consumed_once {k : Nat} (hN : 0 < number_elements) (hn : 2 ≤ n) (hr : r ≠ root)
    (h : ReachesCounting ((broadcast number_elements root T).step input) FirstRun
      (ClearsSlot (.target r)) ((broadcast number_elements root T).initial m) k s)
    (hs : (s.node r).state = .finished) : k = 1 := by
  obtain ⟨-, hk⟩ := h.invariant (P := fun s k => (∃ I, Holds root input s I) ∧
      k = (schedule number_elements root).taken (progress s) (.target r))
    ⟨⟨_, Holds.initial m⟩, (taken_initial _).symm⟩
    (fun s a t k ⟨⟨I, hI⟩, hk⟩ hg ha => by
      obtain ⟨hI', hclear, -⟩ := hI.next_of_first hN hn hg (Collective.stepped ha) (.target r)
      exact ⟨hI', by rw [hclear, hk]⟩)
  have hlt := dist_lt root r
  rw [hk, taken_target _ ((pos_iff root r).mpr hr),
    Progress.passed_of_lt (by rw [progressOf_steps, steps_finished hs]; omega)]
  have hr : (broadcast number_elements root T).Reach input m FirstRun s := h.reaches
  rw [progressOf_run, hr.run_of_finished hs]

theorem oneRun_of_first (hN : 0 < number_elements) (hn : 2 ≤ n)
    (h : (broadcast number_elements root T).Reach input m FirstRun s) : OneRun root input s := by
  obtain ⟨I, hI⟩ := holds_of_first hN hn h
  refine ⟨fun r hs => ?_, fun r out hout => ?_, fun hd hu => ?_⟩
  · rw [hI.copyOutImpl_finished hs, h.run_of_finished hs]
  · exact hI.outputs r 0 out (h.getElem?_of_mem_outputs hout)
  · obtain ⟨r, h0, hfin, hr⟩ := exists_behind_in_run (fun _ => steps n) (fun _ => Nat.zero_le _)
      (fun r hs => steps_finished hs) (fun r hs => hI.steps_lt hs) hu
    exact ⟨r, ⟨h0, hfin⟩, hI.proceeds hN hn hd hr⟩

/-- **One run of the linear broadcast is correct under every interleaving**, and
every target slot is set at most once and consumed once. -/
theorem broadcast_basic_linear_one_run (hn : 2 ≤ n) (hN : 1 ≤ number_elements) :
    (∀ s, (broadcast number_elements root T).Reach input m FirstRun s → OneRun root input s) ∧
    (∀ r k s, r ≠ root → ReachesCounting ((broadcast number_elements root T).step input) FirstRun
      (SetsSlot (.target r)) ((broadcast number_elements root T).initial m) k s → k ≤ 1) ∧
    ∀ r k s, r ≠ root → ReachesCounting ((broadcast number_elements root T).step input) FirstRun
      (ClearsSlot (.target r)) ((broadcast number_elements root T).initial m) k s →
      (s.node r).state = .finished → k = 1 :=
  ⟨fun _ h => oneRun_of_first hN hn h, fun _ _ _ hr h => set_at_most_once hN hn hr h,
    fun _ _ _ hr h hs => consumed_once hN hn hr h hs⟩

theorem broadcast_basic_linear_one_run_chain :
    (∃ s, (broadcast 1 1 Nat).Reach tag (fun _ _ => 7) FirstRun s ∧ (∀ r, (s.node r).state = .finished) ∧
      OneRun 1 tag s) ∧
    ∃ k s, ReachesCounting ((broadcast 1 1 Nat).step tag) FirstRun (ClearsSlot (.target 0))
      ((broadcast 1 1 Nat).initial fun _ _ => 7) k s ∧ (s.node 0).state = .finished ∧ k = 1 := by
  have h := @broadcast_basic_linear_one_run 3 1 Nat 1 tag (fun _ _ => 7) (by decide) (by decide)
  constructor
  · obtain ⟨s, hs, hfin⟩ : ∃ s, (broadcast 1 (1 : Fin 3) Nat).Reach tag (fun _ _ => 7) FirstRun s ∧
        ∀ r, (s.node r).state = .finished :=
      exists_reaches_of_exec (setup ++ chain 1 2 0) (by decide)
    exact ⟨s, hs, hfin, h.1 s hs⟩
  · obtain ⟨⟨s, k⟩, hs, hfin⟩ : ∃ x : GroupSys 1 3 Nat × Nat,
        Reaches (counting ((broadcast 1 (1 : Fin 3) Nat).step tag) (ClearsSlot (.target 0)))
          (fun x a => FirstRun x.1 a) ((broadcast 1 1 Nat).initial fun _ _ => 7, 0) x ∧
        (x.1.node 0).state = .finished :=
      exists_reaches_of_exec (setup ++ chain 1 2 0) (by decide)
    exact ⟨k, s, hs, hfin, h.2.2 0 k s (by decide) hs hfin⟩

end GaspiCxx.Collectives.BroadcastBasicLinear
