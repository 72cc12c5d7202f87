import GaspiCxx.OneSided.Channel

/-!
# Counting what was posted and what was taken

`Tracks W Good F I sent taken` adds two counters to a simulated fabric: the
operations ever posted to a port and the messages ever taken from it. They
differ by one exactly while a message is on its way, so who has posted how
often, a matter of each rank's own program, decides which channels are busy.
`Good p k v` says that `v` is right for the `k`-th message to port `p`.
-/

namespace GaspiCxx.OneSided

variable {Port Loc Val : Type}

structure Tracks (W : Wiring Port Loc) (Good : Port → Nat → Val → Prop) (F : Fabric Port Loc Val)
    (I : Channels Port Loc Val) (sent taken : Port → Nat) : Prop where
  sim : Sim W F I
  count : ∀ p, sent p = taken p + if (I.msg p).isSome then 1 else 0
  good : ∀ p v, I.msg p = some v → W.carries p = true → Good p (taken p) v

/-- One more at `p`. -/
def bump [DecidableEq Port] (f : Port → Nat) (p : Port) : Port → Nat := Function.update f p (f p + 1)

theorem bump_apply [DecidableEq Port] (f : Port → Nat) (p q : Port) :
    bump f p q = f q + if q = p then 1 else 0 := by
  by_cases h : q = p
  · subst h; simp [bump]
  · simp [bump, h]

namespace Tracks

section

variable {W : Wiring Port Loc} {Good : Port → Nat → Val → Prop} {F : Fabric Port Loc Val}
  {I : Channels Port Loc Val} {sent taken sent' taken' : Port → Nat} {p : Port}

theorem quiet (W : Wiring Port Loc) (Good : Port → Nat → Val → Prop) (m : Loc → Val) :
    Tracks W Good (Fabric.quiet m) { mem := m, msg := fun _ => none } (fun _ => 0) (fun _ => 0) where
  sim := Sim.quiet W m
  count _ := rfl
  good _ _ hm := by cases hm

theorem recount (h : Tracks W Good F I sent taken) (hs : ∀ p, sent' p = sent p)
    (ht : ∀ p, taken' p = taken p) : Tracks W Good F I sent' taken' := by
  obtain rfl : sent' = sent := funext hs
  obtain rfl : taken' = taken := funext ht
  exact h

theorem mono {Good' : Port → Nat → Val → Prop} (h : Tracks W Good F I sent taken)
    (hgood : ∀ p k v, Good p k v → Good' p k v) : Tracks W Good' F I sent taken :=
  ⟨h.sim, h.count, fun p v hm hc => hgood p _ v (h.good p v hm hc)⟩

theorem taken_le (h : Tracks W Good F I sent taken) (p : Port) : taken p ≤ sent p := by
  rw [h.count p]; omega

theorem sent_le (h : Tracks W Good F I sent taken) (p : Port) : sent p ≤ taken p + 1 := by
  rw [h.count p]; split <;> omega

theorem isSome_iff (h : Tracks W Good F I sent taken) : (I.msg p).isSome ↔ taken p < sent p := by
  rw [h.count p]; split <;> simp_all

theorem incoming_iff (h : Tracks W Good F I sent taken) :
    I.Incoming W p ↔ W.carries p = true ∧ taken p < sent p := by
  rw [Channels.Incoming, h.isSome_iff]

theorem msg_none (h : Tracks W Good F I sent taken) (he : sent p = taken p) : I.msg p = none := by
  rw [← Option.not_isSome_iff_eq_none, h.isSome_iff]; omega

theorem idle (h : Tracks W Good F I sent taken) (he : sent p = taken p) :
    F.flight p = [] ∧ F.slot p = false :=
  h.sim.idle_of_none (h.msg_none he)

theorem lt_of_flight (h : Tracks W Good F I sent taken) (hf : F.flight p ≠ []) :
    taken p < sent p :=
  h.isSome_iff.mp (h.sim.msg_of_flight hf)

theorem lt_of_slot (h : Tracks W Good F I sent taken) (hs : F.slot p = true) : taken p < sent p := by
  obtain ⟨v, hv, -⟩ := h.sim.msg_of_slot hs
  exact h.isSome_iff.mp (by rw [hv]; rfl)

/-- A message that is not in flight has set its slot. -/
theorem slot_of_lt (h : Tracks W Good F I sent taken) (hlt : taken p < sent p)
    (hf : F.flight p = []) : F.slot p = true :=
  h.sim.slot_of_msg (h.isSome_iff.mpr hlt) hf

/-- A rank reads what the abstract memory holds where no data is on its way to. -/
theorem mem_eq (h : Tracks W Good F I sent taken) {l : Loc}
    (hl : ∀ q, W.carries q = true → taken q < sent q → W.loc q ≠ l) : F.mem l = I.mem l :=
  h.sim.mem l fun q hq => hl q hq.1 (h.incoming_iff.mp hq).2

theorem advance [DecidableEq Port] [DecidableEq Loc] (h : Tracks W Good F I sent taken) {i : Nat}
    {F' : Fabric Port Loc Val} (ha : F.advance W p i = some F') : Tracks W Good F' I sent taken :=
  ⟨h.sim.advance ha, h.count, h.good⟩

end

section

variable [DecidableEq Port] {W : Wiring Port Loc} {Good : Port → Nat → Val → Prop}
  {F : Fabric Port Loc Val} {I : Channels Port Loc Val} {sent taken : Port → Nat} {p : Port}

theorem post (h : Tracks W Good F I sent taken) (hfree : sent p = taken p)
    (hself : W.carries p = true → W.loc p ≠ W.loc (W.peer p))
    (hsrc : W.carries p = true → ∀ q, W.carries q = true → taken q < sent q →
      W.loc q ≠ W.loc (W.peer p))
    (hdst : W.carries p = true → ∀ q, W.carries q = true → taken q < sent q → W.loc q ≠ W.loc p)
    (hread : W.carries p = true → ∀ q, W.carries q = true → F.flight q ≠ [] →
      W.loc p ≠ W.loc (W.peer q))
    (hgood : W.carries p = true → Good p (sent p) (I.mem (W.loc (W.peer p)))) :
    Tracks W Good (F.post p) (I.post W p) (bump sent p) taken where
  sim := h.sim.post (h.msg_none hfree) hself
    (fun hc q hq => hsrc hc q hq.1 (h.incoming_iff.mp hq).2)
    (fun hc q hq => hdst hc q hq.1 (h.incoming_iff.mp hq).2) hread
  count q := by
    rw [bump_apply, h.count q, Channels.post]
    by_cases hq : q = p
    · subst hq; simp [h.msg_none hfree]
    · simp [hq]
  good q v hm hc := by
    by_cases hq : q = p
    · subst hq
      simp only [Channels.post, Function.update_self, Option.some.injEq] at hm
      rw [← hfree, ← hm]
      exact hgood hc
    · simp only [Channels.post, Function.update_of_ne hq] at hm
      exact h.good q v hm hc

/-- A bare notification. -/
theorem post_bare (h : Tracks W Good F I sent taken) (hbare : W.carries p = false) (hfree : sent p = taken p) :
    Tracks W Good (F.post p) (I.post W p) (bump sent p) taken := by
  have hno : ¬ W.carries p = true := by rw [hbare]; exact Bool.false_ne_true
  exact h.post hfree (fun hc => absurd hc hno) (fun hc => absurd hc hno) (fun hc => absurd hc hno)
    (fun hc => absurd hc hno) (fun hc => absurd hc hno)

theorem take [DecidableEq Loc] (h : Tracks W Good F I sent taken) (hs : F.slot p = true) :
    ∃ v, I.msg p = some v ∧ (W.carries p = true → Good p (taken p) v) ∧
      Tracks W Good (F.reset p) (I.take W p v) sent (bump taken p) := by
  obtain ⟨v, hv, -⟩ := h.sim.msg_of_slot hs
  refine ⟨v, hv, h.good p v hv, h.sim.take hv hs, fun q => ?_, fun q w hm hc => ?_⟩
  · rw [bump_apply, h.count q, Channels.take]
    by_cases hq : q = p
    · subst hq; simp [hv]
    · simp [hq]
  · have hq : q ≠ p := by rintro rfl; simp [Channels.take] at hm
    simp only [Channels.take, Function.update_of_ne hq] at hm
    rw [bump_apply, if_neg hq]
    exact h.good q w hm hc

end

theorem write [DecidableEq Loc] {W : Wiring Port Loc} {Good : Port → Nat → Val → Prop}
    {F : Fabric Port Loc Val} {I : Channels Port Loc Val} {sent taken : Port → Nat} {l : Loc}
    (h : Tracks W Good F I sent taken) (v : Val)
    (hdst : ∀ q, W.carries q = true → taken q < sent q → W.loc q ≠ l)
    (hsrc : ∀ q, W.carries q = true → F.flight q ≠ [] → W.loc (W.peer q) ≠ l) :
    Tracks W Good (F.write l v) (I.write l v) sent taken where
  sim := h.sim.write v (fun q hq => hdst q hq.1 (h.incoming_iff.mp hq).2) hsrc
  count := h.count
  good := h.good

end Tracks

/-! ## Counting notifications -/

section

/-- An operation to `p` sets the slot: that is when it leaves the network. -/
def Fabric.sets (p : Port) (F F' : Fabric Port Loc Val) : Bool :=
  decide ((F'.flight p).length < (F.flight p).length)

/-- A rank clears the slot of `p`. -/
def Fabric.clears (p : Port) (F F' : Fabric Port Loc Val) : Bool := F.slot p && !F'.slot p

/-- How a call changes the network: nothing in flight goes missing, no slot is
set, and what is taken is cleared. -/
structure Calm (F F' : Fabric Port Loc Val) (taken taken' : Port → Nat) : Prop where
  flight : ∀ p, (F.flight p).length ≤ (F'.flight p).length
  slot : ∀ p, F'.slot p = true → F.slot p = true
  taken : ∀ p, taken' p = taken p + if Fabric.clears p F F' then 1 else 0

variable {F F' F'' : Fabric Port Loc Val} {taken taken' taken'' : Port → Nat} {p : Port}

theorem Calm.refl (F : Fabric Port Loc Val) (taken : Port → Nat) : Calm F F taken taken :=
  ⟨fun _ => Nat.le_refl _, fun _ h => h, fun p => by simp [Fabric.clears]⟩

theorem Calm.recount (h : Calm F F' taken taken') (ht : ∀ p, taken'' p = taken' p) :
    Calm F F' taken taken'' := by
  obtain rfl : taken'' = taken' := funext ht
  exact h

theorem Calm.trans (h : Calm F F' taken taken') (h' : Calm F' F'' taken' taken'') :
    Calm F F'' taken taken'' where
  flight p := Nat.le_trans (h.flight p) (h'.flight p)
  slot p hp := h.slot p (h'.slot p hp)
  taken p := by
    have key : ∀ a b c : Bool, (b = true → a = true) → (c = true → b = true) →
        (if (a && !b) = true then 1 else 0) + (if (b && !c) = true then 1 else 0) =
          if (a && !c) = true then 1 else 0 := by decide
    rw [h'.taken, h.taken, Nat.add_assoc]
    exact congrArg (taken p + ·) (key _ _ _ (h.slot p) (h'.slot p))

theorem Calm.post [DecidableEq Port] (F : Fabric Port Loc Val) (taken : Port → Nat) (q : Port) :
    Calm F (F.post q) taken taken where
  flight p := by
    rw [Fabric.post_flight]
    split
    · next h => subst h; simp
    · exact Nat.le_refl _
  slot _ h := h
  taken p := by simp [Fabric.clears]

theorem Calm.write [DecidableEq Loc] (F : Fabric Port Loc Val) (taken : Port → Nat) (l : Loc) (v : Val) :
    Calm F (F.write l v) taken taken :=
  ⟨fun _ => Nat.le_refl _, fun _ h => h, fun p => by simp [Fabric.clears]⟩

theorem Calm.reset [DecidableEq Port] {q : Port} (hs : F.slot q = true) (taken : Port → Nat) :
    Calm F (F.reset q) taken (bump taken q) where
  flight _ := Nat.le_refl _
  slot p h := by
    rw [Fabric.reset_slot] at h
    split at h
    · cases h
    · exact h
  taken p := by
    rw [bump_apply]
    simp only [Fabric.clears, Fabric.reset_slot]
    by_cases h : p = q
    · subst h; simp [hs]
    · simp [h]

/-- A call sets no slot; a message it takes was in the slot. -/
theorem Calm.counts (h : Calm F F' taken taken') (p : Port) :
    Fabric.sets p F F' = false ∧ taken' p + (if F'.slot p then 1 else 0) = taken p + if F.slot p then 1 else 0 := by
  constructor
  · simpa [Fabric.sets] using h.flight p
  · have hslot := h.slot p
    rw [h.taken, Fabric.clears]
    cases hs : F.slot p <;> cases hs' : F'.slot p <;> simp_all

/-- The network clears no slot, and sets one where an operation leaves it. -/
theorem Tracks.advance_sets [DecidableEq Port] [DecidableEq Loc] {W : Wiring Port Loc}
    {Good : Port → Nat → Val → Prop} {I : Channels Port Loc Val} {sent : Port → Nat} {i : Nat}
    (h : Tracks W Good F I sent taken) (ha : F.advance W p i = some F') (q : Port) :
    (if F'.slot q then 1 else 0) = (if F.slot q then 1 else 0) + (if Fabric.sets q F F' then 1 else 0) ∧
      Fabric.clears q F F' = false := by
  have stay : ∀ (G : Fabric Port Loc Val) ph,
      G.slot q = F.slot q → G.flight = (F.setPhase p i ph).flight →
      (if G.slot q then 1 else 0) = (if F.slot q then 1 else 0) + (if Fabric.sets q F G then 1 else 0) ∧
        Fabric.clears q F G = false := by
    intro G ph hs hf
    have hlen : (G.flight q).length = (F.flight q).length := by
      rw [hf]
      by_cases hq : q = p
      · subst hq; simp [Fabric.setPhase]
      · simp [Fabric.setPhase, hq]
    simp [Fabric.sets, Fabric.clears, hs, hlen]
  have leave : ∀ {ph}, (F.flight p)[i]? = some ph →
      (if (F.notify p i).slot q then 1 else 0) =
        (if F.slot q then 1 else 0) + (if Fabric.sets q F (F.notify p i) then 1 else 0) ∧
        Fabric.clears q F (F.notify p i) = false := by
    intro ph hi
    by_cases hq : q = p
    · subst hq
      have hlt := (List.getElem?_eq_some_iff.mp hi).1
      have hclear : F.slot q = false := by
        have := h.sim.no_overrun q
        cases hs : F.slot q with
        | false => rfl
        | true => exact absurd ⟨hs, fun he => by rw [he] at hlt; cases hlt⟩ this
      have hdec : (F.flight q).length - 1 < (F.flight q).length := by omega
      simp [Fabric.sets, Fabric.clears, Fabric.notify, hclear, List.length_eraseIdx, hlt, hdec]
    · simp [Fabric.sets, Fabric.clears, Fabric.notify, hq]
  rcases Fabric.advance_cases ha with ⟨-, -, rfl⟩ | ⟨hi, -, rfl⟩ | ⟨v, -, rfl⟩ | ⟨hi, rfl⟩
  · exact stay _ _ rfl rfl
  · exact leave hi
  · exact stay _ .stored rfl rfl
  · exact leave hi

end

end GaspiCxx.OneSided
