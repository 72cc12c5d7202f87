import Mathlib

/-!
# Names taken from a pool

Each process hands out names (notification ids, memory blocks) from a pool and
gets them back. `live` is the set of names taken at a process; some of them
belong to ports that are in use (`name`), the others (`base`) to anything else.
`Names` says that the ports' names are taken, not shared and not in `base`, and
that nothing besides is taken: when no port of a process is in use, exactly
`base` is.
-/

namespace GaspiCxx.OneSided

variable {Port Proc N : Type}

structure Names (owner : Port → Proc) (base live : Proc → Finset N) (name : Port → Option N) : Prop where
  live_iff : ∀ r x, x ∈ live r ↔ x ∈ base r ∨ ∃ p, owner p = r ∧ name p = some x
  off_base : ∀ p x, name p = some x → x ∉ base (owner p)
  inj : ∀ p q x, owner p = owner q → name p = some x → name q = some x → p = q

/-- One more name taken at `r`. -/
def insertAt [DecidableEq Proc] [DecidableEq N] (f : Proc → Finset N) (r : Proc) (x : N) : Proc → Finset N :=
  Function.update f r (insert x (f r))

/-- One name given back at `r`. -/
def eraseAt [DecidableEq Proc] [DecidableEq N] (f : Proc → Finset N) (r : Proc) (x : N) : Proc → Finset N :=
  Function.update f r ((f r).erase x)

section

variable [DecidableEq Proc] [DecidableEq N] (f : Proc → Finset N) (r q : Proc) (x y : N)

theorem mem_insertAt : y ∈ insertAt f r x q ↔ (q = r ∧ y = x) ∨ y ∈ f q := by
  unfold insertAt
  by_cases h : q = r
  · subst h; simp
  · simp [h]

theorem mem_eraseAt : y ∈ eraseAt f r x q ↔ ¬ (q = r ∧ y = x) ∧ y ∈ f q := by
  unfold eraseAt
  by_cases h : q = r
  · subst h; simp
  · simp [h]

end

namespace Names

variable {owner : Port → Proc} {base live : Proc → Finset N} {name : Port → Option N} {p q : Port}
  {r : Proc} {x : N}

/-- No port is in use. -/
theorem quiet (owner : Port → Proc) (base : Proc → Finset N) : Names owner base base fun _ => none where
  live_iff r x := by simp
  off_base p x h := by cases h
  inj p q x _ h := by cases h

theorem mem_live (h : Names owner base live name) (hp : name p = some x) : x ∈ live (owner p) :=
  (h.live_iff _ _).mpr (.inr ⟨p, rfl, hp⟩)

/-- Nothing is left of the ports of a process that uses none. -/
theorem live_eq_base (h : Names owner base live name) (hr : ∀ p, owner p = r → name p = none) :
    live r = base r := by
  ext x
  rw [h.live_iff]
  constructor
  · rintro (hx | ⟨p, hp, hn⟩)
    · exact hx
    · rw [hr p hp] at hn; cases hn
  · exact .inl

section

variable [DecidableEq Port] [DecidableEq Proc] [DecidableEq N]

/-- A port not in use takes a free name. -/
theorem acquire (h : Names owner base live name) (hp : name p = none) (hx : x ∉ live (owner p)) :
    Names owner base (insertAt live (owner p) x) (Function.update name p (some x)) := by
  have hfree : ∀ q, owner q = owner p → name q ≠ some x := by
    intro q hq hn
    exact hx (hq ▸ h.mem_live hn)
  refine ⟨fun r y => ?_, fun q y hq => ?_, fun a b y hab ha hb => ?_⟩
  · rw [mem_insertAt, h.live_iff]
    constructor
    · rintro (⟨rfl, rfl⟩ | hb | ⟨q, hq, hn⟩)
      · exact .inr ⟨p, rfl, Function.update_self ..⟩
      · exact .inl hb
      · refine .inr ⟨q, hq, ?_⟩
        rwa [Function.update_of_ne (by rintro rfl; rw [hp] at hn; cases hn)]
    · rintro (hb | ⟨q, hq, hn⟩)
      · exact .inr (.inl hb)
      · by_cases hqp : q = p
        · subst hqp
          rw [Function.update_self] at hn
          exact .inl ⟨hq.symm, (Option.some.inj hn).symm⟩
        · rw [Function.update_of_ne hqp] at hn
          exact .inr (.inr ⟨q, hq, hn⟩)
  · by_cases hqp : q = p
    · subst hqp
      rw [Function.update_self] at hq
      obtain rfl := Option.some.inj hq
      exact fun hb => hx ((h.live_iff _ _).mpr (.inl hb))
    · rw [Function.update_of_ne hqp] at hq
      exact h.off_base q y hq
  · by_cases hap : a = p <;> by_cases hbp : b = p
    · rw [hap, hbp]
    · subst hap
      rw [Function.update_self] at ha
      rw [Function.update_of_ne hbp] at hb
      obtain rfl := Option.some.inj ha
      exact absurd hb (hfree b hab.symm)
    · subst hbp
      rw [Function.update_self] at hb
      rw [Function.update_of_ne hap] at ha
      obtain rfl := Option.some.inj hb
      exact absurd ha (hfree a hab)
    · rw [Function.update_of_ne hap] at ha
      rw [Function.update_of_ne hbp] at hb
      exact h.inj a b y hab ha hb

/-- A port goes out of use; its name stays with the process. -/
theorem retire (h : Names owner base live name) (hp : name p = some x) :
    Names owner (insertAt base (owner p) x) live (Function.update name p none) := by
  have hother : ∀ q y, Function.update name p none q = some y → q ≠ p ∧ name q = some y := by
    intro q y hq
    by_cases hqp : q = p
    · subst hqp; simp at hq
    · rw [Function.update_of_ne hqp] at hq; exact ⟨hqp, hq⟩
  refine ⟨fun r y => ?_, fun q y hq hb => ?_, fun a b y hab ha hb => ?_⟩
  · rw [mem_insertAt, h.live_iff]
    constructor
    · rintro (hb | ⟨q, hq, hn⟩)
      · exact .inl (.inr hb)
      · by_cases hqp : q = p
        · subst hqp
          rw [hp] at hn
          exact .inl (.inl ⟨hq.symm, (Option.some.inj hn).symm⟩)
        · exact .inr ⟨q, hq, by rwa [Function.update_of_ne hqp]⟩
    · rintro ((⟨rfl, rfl⟩ | hb) | ⟨q, hq, hn⟩)
      · exact .inr ⟨p, rfl, hp⟩
      · exact .inl hb
      · exact .inr ⟨q, hq, (hother q y hn).2⟩
  · obtain ⟨hqp, hq⟩ := hother q y hq
    rcases (mem_insertAt base (owner p) (owner q) x y).mp hb with ⟨ho, rfl⟩ | hb
    · exact hqp (h.inj q p y ho hq hp)
    · exact h.off_base q y hq hb
  · exact h.inj a b y hab (hother a y ha).2 (hother b y hb).2

end

section

variable [DecidableEq Proc] [DecidableEq N]

/-- Anything else at a process takes a free name. -/
theorem base_insert (h : Names owner base live name) (hx : x ∉ live r) :
    Names owner (insertAt base r x) (insertAt live r x) name := by
  refine ⟨fun q y => ?_, fun p y hp hb => ?_, h.inj⟩
  · rw [mem_insertAt, mem_insertAt, h.live_iff, or_assoc]
  · rcases (mem_insertAt base r (owner p) x y).mp hb with ⟨rfl, rfl⟩ | hb
    · exact hx (h.mem_live hp)
    · exact h.off_base p y hp hb

/-- Anything else at a process gives one of its names back. -/
theorem base_erase (h : Names owner base live name) (hx : x ∈ base r) :
    Names owner (eraseAt base r x) (eraseAt live r x) name := by
  refine ⟨fun q y => ?_, fun p y hp hb => ?_, h.inj⟩
  · rw [mem_eraseAt, mem_eraseAt, h.live_iff]
    constructor
    · rintro ⟨hne, hb | hn⟩
      · exact .inl ⟨hne, hb⟩
      · exact .inr hn
    · rintro (⟨hne, hb⟩ | ⟨p, hp, hn⟩)
      · exact ⟨hne, .inl hb⟩
      · refine ⟨?_, .inr ⟨p, hp, hn⟩⟩
        rintro ⟨rfl, rfl⟩
        exact h.off_base p y hn (hp ▸ hx)
  · exact h.off_base p y hp ((mem_eraseAt base r (owner p) x y).mp hb).2

end

/-- A port in use gives its name back. -/
theorem release [DecidableEq Port] [DecidableEq Proc] [DecidableEq N] (h : Names owner base live name)
    (hp : name p = some x) :
    Names owner base (eraseAt live (owner p) x) (Function.update name p none) := by
  have hx : x ∉ base (owner p) := h.off_base p x hp
  have hr := (h.retire hp).base_erase ((mem_insertAt base (owner p) (owner p) x x).mpr (.inl ⟨rfl, rfl⟩))
  have hbase : eraseAt (insertAt base (owner p) x) (owner p) x = base := by
    funext r
    ext y
    rw [mem_eraseAt, mem_insertAt]
    constructor
    · rintro ⟨hne, h | h⟩
      · exact absurd h hne
      · exact h
    · intro hy
      refine ⟨?_, .inr hy⟩
      rintro ⟨rfl, rfl⟩
      exact hx hy
  rwa [hbase] at hr

end Names

end GaspiCxx.OneSided
