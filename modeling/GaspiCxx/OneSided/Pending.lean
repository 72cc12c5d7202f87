import Mathlib

/-!
# One notification and what is on its way to it

`Pending good here sent taken flight flag` describes a notification that is
never overrun: with as many operations sent to it as taken nothing is in
flight; otherwise one more was sent than taken, and it is either the one
operation in flight (then it is `good`) or has set the flag (then `here` holds).

`Signals` says this of every port that is in use, at the address its handle
names, and that there is nothing at any other address. Ports come into use and
go out of use at addresses that change from one use to the next.
-/

namespace GaspiCxx.OneSided

variable {Op : Type}

inductive Pending (good : Op → Prop) (here : Prop) (sent taken : Nat) (flight : List Op) (flag : Bool) : Prop where
  | idle (hs : sent = taken) (hl : flight = []) (hf : flag = false)
  | flying (op : Op) (hs : sent = taken + 1) (hl : flight = [op]) (hf : flag = false) (hg : good op)
  | arrived (hs : sent = taken + 1) (hl : flight = []) (hf : flag = true) (hh : here)

namespace Pending

variable {good good' : Op → Prop} {here here' : Prop} {sent taken : Nat} {flight before after : List Op}
  {flag : Bool} {op op' : Op}

theorem le (h : Pending good here sent taken flight flag) : taken ≤ sent := by
  cases h <;> omega

theorem quiet (h : Pending good here sent taken flight flag) (hs : sent = taken) : flight = [] ∧ flag = false := by
  cases h with
  | idle _ hl hf => exact ⟨hl, hf⟩
  | flying _ hs' => omega
  | arrived hs' => omega

/-- What is sent but not taken has set the flag, unless it is still in flight. -/
theorem flag_of_lt (h : Pending good here sent taken flight flag) (hlt : taken < sent) (hl : flight = []) :
    flag = true := by
  cases h with
  | idle hs => omega
  | flying _ _ hl' => rw [hl'] at hl; cases hl
  | arrived _ _ hf => exact hf

theorem single (h : Pending good here sent taken flight flag) (hl : flight = before ++ op :: after) :
    before = [] ∧ after = [] ∧ sent = taken + 1 ∧ flag = false ∧ good op := by
  cases h with
  | idle _ hl' => rw [hl'] at hl; simp at hl
  | arrived _ hl' => rw [hl'] at hl; simp at hl
  | flying o hs hl' hf hg =>
    rw [hl'] at hl
    cases before with
    | nil =>
      obtain ⟨rfl, rfl⟩ := List.cons.inj hl
      exact ⟨rfl, rfl, hs, hf, hg⟩
    | cons b before => simp at hl

theorem post (h : Pending good here sent taken flight flag) (hs : sent = taken) (hg : good op) :
    Pending good here (sent + 1) taken (flight ++ [op]) flag := by
  obtain ⟨hl, hf⟩ := h.quiet hs
  exact .flying op (by omega) (by rw [hl]; rfl) hf hg

/-- The operation in flight changes into another. -/
theorem evolve (h : Pending good here sent taken flight flag) (hl : flight = before ++ op :: after)
    (hg : good' op') : Pending good' here' sent taken (before ++ op' :: after) flag := by
  obtain ⟨rfl, rfl, hs, hf, -⟩ := h.single hl
  exact .flying op' hs rfl hf hg

theorem arrive (h : Pending good here sent taken flight flag) (hl : flight = before ++ op :: after)
    (hh : here') : Pending good' here' sent taken (before ++ after) true := by
  obtain ⟨rfl, rfl, hs, -, -⟩ := h.single hl
  exact .arrived hs rfl rfl hh

theorem take (h : Pending good here sent taken flight flag) (hf : flag = true) :
    here ∧ sent = taken + 1 ∧ flight = [] := by
  cases h with
  | idle _ _ hf' => rw [hf'] at hf; cases hf
  | flying _ _ _ hf' => rw [hf'] at hf; cases hf
  | arrived hs hl _ hh => exact ⟨hh, hs, hl⟩

theorem imp (h : Pending good here sent taken flight flag)
    (hg : sent = taken + 1 → ∀ op, good op → good' op) (hh : sent = taken + 1 → here → here') :
    Pending good' here' sent taken flight flag := by
  cases h with
  | idle hs hl hf => exact .idle hs hl hf
  | flying op hs hl hf hop => exact .flying op hs hl hf (hg hs op hop)
  | arrived hs hl hf hop => exact .arrived hs hl hf (hh hs hop)

end Pending

/-- `held p` is the handle of port `p` while it is in use, `addr` its address. -/
structure Signals {Port D A : Type} (addr : D → A) (good : Port → D → Op → Prop) (here : Port → D → Prop)
    (held : Port → Option D) (sent taken : Port → Nat) (flight : A → List Op) (flag : A → Bool) : Prop where
  pending : ∀ p d, held p = some d →
    Pending (good p d) (here p d) (sent p) (taken p) (flight (addr d)) (flag (addr d))
  idle : ∀ p, held p = none → sent p = taken p
  apart : ∀ p q d e, held p = some d → held q = some e → addr d = addr e → p = q
  clear : ∀ a, (∀ p d, held p = some d → addr d ≠ a) → flight a = [] ∧ flag a = false

namespace Signals

variable {Port D A : Type} {addr : D → A} {good good' : Port → D → Op → Prop} {here here' : Port → D → Prop}
  {held : Port → Option D} {sent taken sent' taken' : Port → Nat} {flight : A → List Op} {flag : A → Bool}
  {p : Port} {d : D} {a : A}

theorem quiet (addr : D → A) (good : Port → D → Op → Prop) (here : Port → D → Prop) :
    Signals addr good here (fun _ => none) (fun _ => 0) (fun _ => 0) (fun _ => []) fun _ => false where
  pending _ _ h := by cases h
  idle _ _ := rfl
  apart _ _ _ _ h := by cases h
  clear _ _ := ⟨rfl, rfl⟩

theorem taken_le (h : Signals addr good here held sent taken flight flag) (p : Port) : taken p ≤ sent p := by
  cases hp : held p with
  | none => exact Nat.le_of_eq (h.idle p hp).symm
  | some d => exact (h.pending p d hp).le

/-- An operation in flight is on its way to a port in use. -/
theorem port_of_flight (h : Signals addr good here held sent taken flight flag) (ha : flight a ≠ []) :
    ∃ p d, held p = some d ∧ addr d = a := by
  by_contra hno
  refine ha (h.clear a fun p d hp he => hno ⟨p, d, hp, he⟩).1

theorem imp (h : Signals addr good here held sent taken flight flag)
    (hg : ∀ p d, held p = some d → sent p = taken p + 1 → ∀ op, good p d op → good' p d op)
    (hh : ∀ p d, held p = some d → sent p = taken p + 1 → here p d → here' p d) :
    Signals addr good' here' held sent taken flight flag :=
  ⟨fun p d hp => (h.pending p d hp).imp (hg p d hp) (hh p d hp), h.idle, h.apart, h.clear⟩

section

variable [DecidableEq Port]

/-- A port comes into use at an address no other port uses. -/
theorem acquire (h : Signals addr good here held sent taken flight flag) (hp : held p = none)
    (hd : ∀ q e, held q = some e → addr e ≠ addr d) :
    Signals addr good here (Function.update held p (some d)) sent taken flight flag := by
  have hcases : ∀ q e, Function.update held p (some d) q = some e → q = p ∧ e = d ∨ held q = some e := by
    intro q e hq
    by_cases hqp : q = p
    · subst hqp
      rw [Function.update_self] at hq
      exact .inl ⟨rfl, (Option.some.inj hq).symm⟩
    · rw [Function.update_of_ne hqp] at hq
      exact .inr hq
  refine ⟨fun q e hq => ?_, fun q hq => ?_, fun q r e f hq hr he => ?_, fun b hb => ?_⟩
  · rcases hcases q e hq with ⟨rfl, rfl⟩ | hq
    · obtain ⟨hfl, hf⟩ := h.clear (addr e) hd
      exact .idle (h.idle q hp) hfl hf
    · exact h.pending q e hq
  · by_cases hqp : q = p
    · subst hqp; rw [Function.update_self] at hq; cases hq
    · rw [Function.update_of_ne hqp] at hq; exact h.idle q hq
  · rcases hcases q e hq with ⟨hqp, rfl⟩ | hq' <;> rcases hcases r f hr with ⟨hrp, rfl⟩ | hr'
    · rw [hqp, hrp]
    · exact absurd he.symm (hd r f hr')
    · exact absurd he (hd q e hq')
    · exact h.apart q r e f hq' hr' he
  · refine h.clear b fun q e hq => hb q e ?_
    rwa [Function.update_of_ne (by rintro rfl; rw [hp] at hq; cases hq)]

/-- A port with nothing on its way to it goes out of use. -/
theorem drop (h : Signals addr good here held sent taken flight flag) (hp : held p = some d)
    (hs : sent p = taken p) :
    Signals addr good here (Function.update held p none) sent taken flight flag := by
  have hcases : ∀ q e, Function.update held p none q = some e → held q = some e := by
    intro q e hq
    by_cases hqp : q = p
    · subst hqp; rw [Function.update_self] at hq; cases hq
    · rwa [Function.update_of_ne hqp] at hq
  refine ⟨fun q e hq => h.pending q e (hcases q e hq), fun q hq => ?_,
    fun q r e f hq hr => h.apart q r e f (hcases q e hq) (hcases r f hr), fun b hb => ?_⟩
  · by_cases hqp : q = p
    · subst hqp; exact hs
    · rw [Function.update_of_ne hqp] at hq; exact h.idle q hq
  · by_cases hdb : addr d = b
    · subst hdb; exact (h.pending p d hp).quiet hs
    · refine h.clear b fun q e hq => ?_
      by_cases hqp : q = p
      · subst hqp
        rw [hp] at hq
        obtain rfl := Option.some.inj hq
        exact hdb
      · exact hb q e (by rwa [Function.update_of_ne hqp])

end

/-- What is on its way to one port changes; the others do not notice. -/
theorem change [DecidableEq A] (h : Signals addr good here held sent taken flight flag) (hp : held p = some d)
    {l : List Op} {f : Bool} (hnew : Pending (good' p d) (here' p d) (sent' p) (taken' p) l f)
    (hcount : ∀ q, q ≠ p → sent' q = sent q ∧ taken' q = taken q)
    (hg : ∀ q e, q ≠ p → held q = some e → sent q = taken q + 1 → ∀ op, good q e op → good' q e op)
    (hh : ∀ q e, q ≠ p → held q = some e → sent q = taken q + 1 → here q e → here' q e) :
    Signals addr good' here' held sent' taken' (Function.update flight (addr d) l)
      (Function.update flag (addr d) f) := by
  refine ⟨fun q e hq => ?_, fun q hq => ?_, h.apart, fun b hb => ?_⟩
  · by_cases hqp : q = p
    · subst hqp
      rw [hp] at hq
      obtain rfl := Option.some.inj hq
      rw [Function.update_self, Function.update_self]
      exact hnew
    · have hne : addr e ≠ addr d := fun he => hqp (h.apart q p e d hq hp he)
      rw [Function.update_of_ne hne, Function.update_of_ne hne, (hcount q hqp).1, (hcount q hqp).2]
      exact (h.pending q e hq).imp (hg q e hqp hq) (hh q e hqp hq)
  · have hqp : q ≠ p := by rintro rfl; rw [hp] at hq; cases hq
    rw [(hcount q hqp).1, (hcount q hqp).2]
    exact h.idle q hq
  · have hne : b ≠ addr d := (hb p d hp).symm
    rw [Function.update_of_ne hne, Function.update_of_ne hne]
    exact h.clear b hb

theorem changeFlight [DecidableEq A] (h : Signals addr good here held sent taken flight flag) (hp : held p = some d)
    {l : List Op} (hnew : Pending (good' p d) (here' p d) (sent' p) (taken' p) l (flag (addr d)))
    (hcount : ∀ q, q ≠ p → sent' q = sent q ∧ taken' q = taken q)
    (hg : ∀ q e, q ≠ p → held q = some e → sent q = taken q + 1 → ∀ op, good q e op → good' q e op)
    (hh : ∀ q e, q ≠ p → held q = some e → sent q = taken q + 1 → here q e → here' q e) :
    Signals addr good' here' held sent' taken' (Function.update flight (addr d) l) flag := by
  have hflag : Function.update flag (addr d) (flag (addr d)) = flag := Function.update_eq_self ..
  rw [← hflag]
  exact h.change hp hnew hcount hg hh

theorem changeFlag [DecidableEq A] (h : Signals addr good here held sent taken flight flag) (hp : held p = some d)
    {f : Bool} (hnew : Pending (good' p d) (here' p d) (sent' p) (taken' p) (flight (addr d)) f)
    (hcount : ∀ q, q ≠ p → sent' q = sent q ∧ taken' q = taken q)
    (hg : ∀ q e, q ≠ p → held q = some e → sent q = taken q + 1 → ∀ op, good q e op → good' q e op)
    (hh : ∀ q e, q ≠ p → held q = some e → sent q = taken q + 1 → here q e → here' q e) :
    Signals addr good' here' held sent' taken' flight (Function.update flag (addr d) f) := by
  have hflight : Function.update flight (addr d) (flight (addr d)) = flight := Function.update_eq_self ..
  rw [← hflight]
  exact h.change hp hnew hcount hg hh

end Signals

end GaspiCxx.OneSided
