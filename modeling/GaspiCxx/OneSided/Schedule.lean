import GaspiCxx.OneSided.Ledger
import GaspiCxx.OneSided.Runs

/-!
# Straight-line programs repeated run after run

Each rank repeats one program whose positions are numbered `0, 1, 2, ...`.
`Progress` is how far a rank has got: the runs it has completed and the
positions it has passed in the current one; `g.passed i` counts how often it
has passed position `i`.

A `Schedule` says at which position of the sender's program an operation to a
port is posted and at which position of its owner's program it is taken, so
the two counters of `Tracks` are functions of the ranks' progress (`sent`,
`taken`). If everything is posted at an earlier position than it is taken,
the rank that is behind all others always finds its message
(`Schedule.awaited`): no such system deadlocks. Where that rank goes on, all
of them complete any number of runs (`Progress.exists_runs`).
-/

namespace GaspiCxx.OneSided

/-- Runs completed, and positions passed in the current run. -/
structure Progress where
  run : Nat
  steps : Nat
  deriving DecidableEq, Repr

namespace Progress

/-- How often position `i` has been passed. -/
def passed (g : Progress) (i : Nat) : Nat := g.run + if i < g.steps then 1 else 0

variable {g : Progress} {i j : Nat}

theorem passed_anti (h : i ≤ j) : g.passed j ≤ g.passed i := by
  unfold passed; split <;> split <;> omega

theorem passed_le (g : Progress) (i : Nat) : g.passed i ≤ g.run + 1 := by
  unfold passed; split <;> omega

theorem run_le_passed (g : Progress) (i : Nat) : g.run ≤ g.passed i := by
  unfold passed; omega

theorem passed_of_lt (h : i < g.steps) : g.passed i = g.run + 1 := by
  simp [passed, h]

theorem passed_of_le (h : g.steps ≤ i) : g.passed i = g.run := by
  simp [passed, Nat.not_lt.mpr h]

/-- Past the next position of a program with `len` of them: after the last one
the run is over. -/
def advance (len : Nat) (g : Progress) : Progress :=
  if g.steps + 1 < len then ⟨g.run, g.steps + 1⟩ else ⟨g.run + 1, 0⟩

theorem advance_steps_lt {len : Nat} (h : g.steps < len) : (g.advance len).steps < len := by
  unfold advance
  split <;> simp only <;> omega

theorem passed_advance {len : Nat} (h : g.steps < len) (hi : i < len) :
    (g.advance len).passed i = g.passed i + if i = g.steps then 1 else 0 := by
  unfold advance passed
  split <;> simp only <;> split <;> split <;> split <;> omega

/-- One of several programs goes on by one position. -/
def tick {A : Type} [DecidableEq A] (len : Nat) (g : A → Progress) (a : A) : A → Progress :=
  Function.update g a ((g a).advance len)

section

variable {A : Type} [DecidableEq A] {len : Nat} {f : A → Progress} {a b : A}

theorem tick_self : tick len f a a = (f a).advance len := Function.update_self ..

theorem tick_ne (h : b ≠ a) : tick len f a b = f b := Function.update_of_ne h ..

theorem tick_steps_lt (h : ∀ b, (f b).steps < len) (b : A) : (tick len f a b).steps < len := by
  by_cases hb : b = a
  · subst hb; rw [tick_self]; exact advance_steps_lt (h b)
  · rw [tick_ne hb]; exact h b

theorem passed_tick (h : (f a).steps < len) (hi : i < len) :
    (tick len f a b).passed i = (f b).passed i + if b = a ∧ i = (f a).steps then 1 else 0 := by
  by_cases hb : b = a
  · subst hb
    rw [tick_self, passed_advance h hi]
    simp only [true_and]
  · rw [tick_ne hb, if_neg fun he => hb he.1, Nat.add_zero]

end

/-- `g` is behind `g'` or level with it. -/
def Behind (g g' : Progress) : Prop := g.run < g'.run ∨ g.run = g'.run ∧ g.steps ≤ g'.steps

/-- A rank that is not ahead has not passed more. -/
theorem Behind.passed_le {g g' : Progress} (h : g.Behind g') (i : Nat) : g.passed i ≤ g'.passed i := by
  unfold passed
  rcases h with h | ⟨h, hs⟩ <;> split <;> split <;> omega

/-- Some rank is behind all others. -/
theorem exists_behind {Rank : Type} [Finite Rank] [Nonempty Rank] (g : Rank → Progress) :
    ∃ r, ∀ q, (g r).Behind (g q) := by
  obtain ⟨r, hr⟩ := Finite.exists_min fun q => toLex ((g q).run, (g q).steps)
  refine ⟨r, fun q => ?_⟩
  simpa [Prod.Lex.toLex_le_toLex, Behind] using hr q

theorem exists_behind_mem {Rank : Type} {ranks : Finset Rank} (g : Rank → Progress) (h : ranks.Nonempty) :
    ∃ r ∈ ranks, ∀ q ∈ ranks, (g r).Behind (g q) := by
  have := h.to_subtype
  obtain ⟨⟨r, hr⟩, hbehind⟩ := exists_behind fun q : ranks => g q
  exact ⟨r, hr, fun q hq => hbehind ⟨q, hq⟩⟩

/-! ### Keeping together -/

/-- The positions passed in all runs of a program with `len` of them. -/
def total (len : Nat) (g : Progress) : Nat := g.run * len + g.steps

theorem total_advance {len : Nat} (h : g.steps < len) : (g.advance len).total len = g.total len + 1 := by
  unfold advance total
  split <;> simp only [Nat.add_mul] <;> omega

theorem Behind.total_le {len : Nat} {g g' : Progress} (h : g.Behind g') (hs : g.steps < len) :
    g.total len ≤ g'.total len := by
  unfold total
  rcases h with h | ⟨h, hle⟩
  · have := Nat.mul_le_mul_right len h
    rw [Nat.succ_mul] at this
    omega
  · rw [h]
    omega

theorem eq_of_total {len K : Nat} (hs : g.steps < len) (h : g.total len = K * len) : g = ⟨K, 0⟩ := by
  have hmod := congrArg (· % len) h
  simp only [total, Nat.mul_add_mod_self_right, Nat.mod_eq_of_lt hs, Nat.mul_mod_left] at hmod
  have hmul : g.run * len = K * len := by
    unfold total at h
    omega
  exact congrArg₂ Progress.mk (Nat.eq_of_mul_eq_mul_right (by omega) hmul) hmod

section

variable {A State : Type} [DecidableEq A] {R : State → State → Prop} {P : State → Prop}
  {progress : State → A → Progress} {len K : Nat} {members : Finset A} {f : A → Progress} {a b : A}

theorem total_tick (h : (f a).steps < len) :
    (tick len f a b).total len = (f b).total len + if b = a then 1 else 0 := by
  by_cases hb : b = a
  · subst hb
    rw [tick_self, total_advance h, if_pos rfl]
  · rw [tick_ne hb, if_neg hb, Nat.add_zero]

/-- What is left of `K` runs gets less. -/
theorem left_tick (ha : a ∈ members) (hs : (f a).steps < len) (hlt : (f a).total len < K * len) :
    ∑ b ∈ members, (K * len - (tick len f a b).total len) < ∑ b ∈ members, (K * len - (f b).total len) := by
  refine Finset.sum_lt_sum (fun b _ => ?_) ⟨a, ha, ?_⟩
  · rw [total_tick hs]
    omega
  · rw [total_tick hs, if_pos rfl]
    omega

/-- **If the member that is behind all others goes on, all of them complete `K` runs.** -/
theorem exists_runs
    (goes_on : ∀ s, P s → ∀ a ∈ members, (∀ b ∈ members, (progress s a).Behind (progress s b)) →
      ∃ s', Relation.ReflTransGen R s s' ∧ P s' ∧ progress s' = tick len (progress s) a)
    (K : Nat) {s : State} (hP : P s) (hlen : ∀ a, (progress s a).steps < len)
    (hle : ∀ a ∈ members, (progress s a).total len ≤ K * len) :
    ∃ s', Relation.ReflTransGen R s s' ∧ P s' ∧ ∀ a ∈ members, progress s' a = ⟨K, 0⟩ := by
  have hcloser : ∀ s, (P s ∧ (∀ a, (progress s a).steps < len) ∧ ∀ a ∈ members, (progress s a).total len ≤ K * len) →
      (¬ ∀ a ∈ members, (progress s a).total len = K * len) → ∃ u, Relation.ReflTransGen R s u ∧
        (P u ∧ (∀ a, (progress u a).steps < len) ∧ ∀ a ∈ members, (progress u a).total len ≤ K * len) ∧
        ∑ a ∈ members, (K * len - (progress u a).total len) < ∑ a ∈ members, (K * len - (progress s a).total len) := by
    rintro s ⟨hP, hlen, hle⟩ hall
    push Not at hall
    obtain ⟨b, hb, hne⟩ := hall
    obtain ⟨a, ha, hbehind⟩ := exists_behind_mem (progress s) ⟨b, hb⟩
    have hlt : (progress s a).total len < K * len :=
      Nat.lt_of_le_of_lt ((hbehind b hb).total_le (hlen a)) (Nat.lt_of_le_of_ne (hle b hb) hne)
    obtain ⟨u, hsu, hPu, hprog⟩ := goes_on s hP a ha hbehind
    refine ⟨u, hsu, ?_⟩
    rw [hprog]
    refine ⟨⟨hPu, tick_steps_lt hlen, fun c hc => ?_⟩, left_tick ha (hlen a) hlt⟩
    have hc := hle c hc
    rw [total_tick (hlen a)]
    split
    · next he => subst he; omega
    · omega
  obtain ⟨s', hrun, ⟨hP', hlen', -⟩, hdone⟩ := exists_reaching _ hcloser ⟨hP, hlen, hle⟩
  exact ⟨s', hrun, hP', fun a ha => eq_of_total (hlen' a) (hdone a ha)⟩

end

end Progress

structure Schedule (Rank Port Loc : Type) extends Wiring Port Loc where
  /-- The rank whose slot the port is. -/
  owner : Port → Rank
  /-- Operations are posted to the port, once in every run. -/
  used : Port → Bool
  /-- The position of the sender's program that posts to the port. -/
  postAt : Port → Nat
  /-- The position of the owner's program that takes from the port. -/
  takeAt : Port → Nat

namespace Schedule

variable {Rank Port Loc : Type} (S : Schedule Rank Port Loc)

/-- The rank that posts to port `p`. -/
def sender (p : Port) : Rank := S.owner (S.peer p)

/-- How often rank `w p` has passed position `k p`, for the ports in use. -/
def tally (w : Port → Rank) (k : Port → Nat) (g : Rank → Progress) (p : Port) : Nat :=
  if S.used p then (g (w p)).passed (k p) else 0

def sent : (Rank → Progress) → Port → Nat := S.tally S.sender S.postAt

def taken : (Rank → Progress) → Port → Nat := S.tally S.owner S.takeAt

variable {S} {w : Port → Rank} {k : Port → Nat} {g g' : Rank → Progress} {r : Rank} {p : Port}

theorem tally_used (h : S.used p = true) : S.tally w k g p = (g (w p)).passed (k p) := by
  simp [tally, h]

theorem tally_unused (h : ¬ S.used p = true) : S.tally w k g p = 0 := by
  simp [tally, h]

theorem sent_used (h : S.used p = true) : S.sent g p = (g (S.sender p)).passed (S.postAt p) :=
  tally_used h

theorem taken_used (h : S.used p = true) : S.taken g p = (g (S.owner p)).passed (S.takeAt p) :=
  tally_used h

theorem used_of_lt (h : S.taken g p < S.sent g p) : S.used p = true := by
  by_contra hu
  simp [sent, taken, tally_unused hu] at h

/-- Rank `r` is done with the network: no message to its slots or memory and no
write that reads its memory is in flight. -/
structure Detached {Val : Type} (S : Schedule Rank Port Loc) (F : Fabric Port Loc Val) (r : Rank) : Prop where
  received : ∀ p, S.owner p = r → F.flight p = []
  sent : ∀ p, S.carries p = true → S.sender p = r → F.flight p = []

/-! ## Moving one rank -/

/-- Rank `r` goes on from position `x` to position `y` of its program. -/
structure Moves (g g' : Rank → Progress) (r : Rank) (x y : Nat) : Prop where
  other : ∀ q, q ≠ r → g' q = g q
  run : (g' r).run = (g r).run
  before : (g r).steps = x
  after : (g' r).steps = y
  le : x ≤ y

theorem Moves.passed {x y : Nat} (h : Moves g g' r x y) (i : Nat) :
    (g' r).passed i = (g r).passed i + if x ≤ i ∧ i < y then 1 else 0 := by
  have hle := h.le
  simp only [Progress.passed, h.run, h.before, h.after]
  split <;> split <;> split <;> omega

theorem Moves.tally_same {x y : Nat} (h : Moves g g' r x y)
    (hno : ∀ p, S.used p = true → w p = r → ¬ (x ≤ k p ∧ k p < y)) (p : Port) :
    S.tally w k g' p = S.tally w k g p := by
  by_cases hu : S.used p = true
  · rw [tally_used hu, tally_used hu]
    by_cases hr : w p = r
    · rw [hr, h.passed, if_neg (hno p hu hr)]; rfl
    · rw [h.other _ hr]
  · rw [tally_unused hu, tally_unused hu]

/-- The move counts at `p₀` and at no other port. -/
theorem Moves.tally_bump [DecidableEq Port] {x y : Nat} (h : Moves g g' r x y) {p₀ : Port}
    (hu₀ : S.used p₀ = true) (hr₀ : w p₀ = r) (hx : x ≤ k p₀) (hy : k p₀ < y)
    (huniq : ∀ p, S.used p = true → w p = r → x ≤ k p → k p < y → p = p₀)
    (p : Port) : S.tally w k g' p = bump (S.tally w k g) p₀ p := by
  rw [bump_apply]
  by_cases hu : S.used p = true
  · rw [tally_used hu, tally_used hu]
    by_cases hr : w p = r
    · rw [hr, h.passed]
      by_cases hp : p = p₀
      · subst hp; rw [if_pos ⟨hx, hy⟩, if_pos rfl]
      · rw [if_neg fun hxy => hp (huniq p hu hr hxy.1 hxy.2), if_neg hp]
    · rw [h.other _ hr, if_neg (by rintro rfl; exact hr hr₀), Nat.add_zero]
  · have hp : p ≠ p₀ := by rintro rfl; exact hu hu₀
    rw [tally_unused hu, tally_unused hu, if_neg hp]

/-- Passing one position counts at the one port it is about. -/
theorem Moves.tally_step [DecidableEq Port] {x : Nat} (h : Moves g g' r x (x + 1)) {p₀ : Port}
    (hu₀ : S.used p₀ = true) (hr₀ : w p₀ = r) (hx : k p₀ = x)
    (hinj : ∀ p, S.used p = true → w p = w p₀ → k p = k p₀ → p = p₀) (p : Port) :
    S.tally w k g' p = bump (S.tally w k g) p₀ p :=
  h.tally_bump hu₀ hr₀ (Nat.le_of_eq hx.symm) (by omega)
    (fun p hu hr hle hlt => hinj p hu (hr.trans hr₀.symm) (by omega)) p

/-- Rank `r` completes its run: it passed every position, and starts over. -/
structure Wraps (g g' : Rank → Progress) (r : Rank) (x : Nat) : Prop where
  other : ∀ q, q ≠ r → g' q = g q
  run : (g' r).run = (g r).run + 1
  before : (g r).steps = x
  after : (g' r).steps = 0

theorem Wraps.passed {x i : Nat} (h : Wraps g g' r x) (hi : i < x) :
    (g' r).passed i = (g r).passed i := by
  rw [Progress.passed_of_le (g := g' r) (by rw [h.after]; omega),
    Progress.passed_of_lt (g := g r) (by rw [h.before]; exact hi), h.run]

theorem Wraps.tally {x : Nat} (h : Wraps g g' r x)
    (hx : ∀ p, S.used p = true → w p = r → k p < x) (p : Port) :
    S.tally w k g' p = S.tally w k g p := by
  by_cases hu : S.used p = true
  · rw [tally_used hu, tally_used hu]
    by_cases hr : w p = r
    · rw [hr, h.passed (hx p hu hr)]
    · rw [h.other _ hr]
  · rw [tally_unused hu, tally_unused hu]

/-! ## No deadlock -/

/-- **A rank behind all others finds the message it waits for.** -/
theorem awaited {Val : Type} {Good : Port → Nat → Val → Prop} {F : Fabric Port Loc Val}
    {I : Channels Port Loc Val} (h : Tracks S.toWiring Good F I (S.sent g) (S.taken g))
    (hr : ∀ q, (g (S.owner p)).Behind (g q)) (hu : S.used p = true)
    (hat : (g (S.owner p)).steps = S.takeAt p) (hlt : S.postAt p < S.takeAt p)
    (hf : F.flight p = []) : F.slot p = true := by
  refine h.slot_of_lt ?_ hf
  rw [sent_used hu, taken_used hu, Progress.passed_of_le (by omega)]
  have h1 := (hr (S.sender p)).passed_le (S.postAt p)
  rw [Progress.passed_of_lt (by omega)] at h1
  omega

end Schedule

end GaspiCxx.OneSided
