import GaspiCxx.OneSided.Fabric

/-!
# Channels: what a well-used fabric looks like to the ranks

`Channels` is the abstract model: every port is the end of a channel that
holds at most one message, `post` puts the current contents of the source into
it and `take` stores them at the target. No memory is ever read or written
behind a rank's back.

`Sim W F I` ties a fabric to its channels: a message on its way is exactly one
operation in some phase, or a set slot. The network steps are invisible
(`Sim.advance`); posting, taking and writing are simulated as long as nobody
touches a location an operation may still read or write (`Sim.post`,
`Sim.take`, `Sim.write`), and then a rank reads what the abstract memory holds
(`Sim.mem`).
-/

namespace GaspiCxx.OneSided

/-- The abstract memory and the message on its way to each port. -/
structure Channels (Port Loc Val : Type) where
  mem : Loc → Val
  msg : Port → Option Val

section

variable {Port Loc Val : Type}

/-- Data is on its way to port `p`. -/
def Channels.Incoming (W : Wiring Port Loc) (I : Channels Port Loc Val) (p : Port) : Prop :=
  W.carries p = true ∧ (I.msg p).isSome

/-- The operation (or the set slot) that stands for the message of port `p`. -/
inductive Carried (W : Wiring Port Loc) (F : Fabric Port Loc Val) (p : Port) : Option Val → Prop where
  | idle (hf : F.flight p = []) (hs : F.slot p = false) : Carried W F p none
  | posted {v : Val} (hf : F.flight p = [.posted]) (hs : F.slot p = false)
      (hv : W.carries p = true → F.mem (W.loc (W.peer p)) = v) : Carried W F p (some v)
  | read {v : Val} (hf : F.flight p = [.read v]) (hs : F.slot p = false)
      (hc : W.carries p = true) : Carried W F p (some v)
  | stored {v : Val} (hf : F.flight p = [.stored]) (hs : F.slot p = false)
      (hv : W.carries p = true → F.mem (W.loc p) = v) : Carried W F p (some v)
  | set {v : Val} (hf : F.flight p = []) (hs : F.slot p = true)
      (hv : W.carries p = true → F.mem (W.loc p) = v) : Carried W F p (some v)

/-- The fabric carries the channels' messages, and the memories agree except
where data is on its way to. -/
structure Sim (W : Wiring Port Loc) (F : Fabric Port Loc Val) (I : Channels Port Loc Val) : Prop where
  port : ∀ p, Carried W F p (I.msg p)
  mem : ∀ l, (∀ p, I.Incoming W p → W.loc p ≠ l) → F.mem l = I.mem l
  /-- No data is on its way to the source of an operation in flight. -/
  apart : ∀ p q, I.Incoming W p → W.carries q = true → F.flight q ≠ [] → W.loc p ≠ W.loc (W.peer q)
  /-- At most one message is on its way to a location. -/
  alone : ∀ p q, I.Incoming W p → I.Incoming W q → W.loc p = W.loc q → p = q

/-- Whether the operation to `p` is carried depends on `p`'s own flight and
slot and on the two locations it touches. -/
theorem Carried.congr {W : Wiring Port Loc} {F F' : Fabric Port Loc Val} {p : Port} {o : Option Val}
    (h : Carried W F p o) (hf : F'.flight p = F.flight p) (hs : F'.slot p = F.slot p)
    (hsrc : W.carries p = true → F.flight p ≠ [] →
      F'.mem (W.loc (W.peer p)) = F.mem (W.loc (W.peer p)))
    (hdst : W.carries p = true → o.isSome → F'.mem (W.loc p) = F.mem (W.loc p)) :
    Carried W F' p o := by
  cases h with
  | idle h1 h2 => exact .idle (hf ▸ h1) (hs ▸ h2)
  | posted h1 h2 hv =>
    exact .posted (hf ▸ h1) (hs ▸ h2) fun hc => (hsrc hc (by simp [h1])).trans (hv hc)
  | read h1 h2 hc => exact .read (hf ▸ h1) (hs ▸ h2) hc
  | stored h1 h2 hv => exact .stored (hf ▸ h1) (hs ▸ h2) fun hc => (hdst hc rfl).trans (hv hc)
  | set h1 h2 hv => exact .set (hf ▸ h1) (hs ▸ h2) fun hc => (hdst hc rfl).trans (hv hc)

namespace Sim

variable {W : Wiring Port Loc} {F : Fabric Port Loc Val} {I : Channels Port Loc Val} {p : Port}

theorem quiet (W : Wiring Port Loc) (m : Loc → Val) :
    Sim W (Fabric.quiet m) { mem := m, msg := fun _ => none } where
  port _ := .idle rfl rfl
  mem _ _ := rfl
  apart _ _ _ _ hq := absurd rfl hq
  alone _ _ hp := by simp [Channels.Incoming] at hp

/-! ## Reading the relation -/

theorem no_overrun (h : Sim W F I) (p : Port) : ¬ F.Overrun p := by
  rintro ⟨hs, hf⟩
  have hp := h.port p
  cases hm : I.msg p <;> rw [hm] at hp <;> cases hp <;> simp_all

theorem single (h : Sim W F I) {i : Nat} {ph : Phase Val} (hi : (F.flight p)[i]? = some ph) :
    i = 0 ∧ F.flight p = [ph] := by
  have hp := h.port p
  cases hm : I.msg p <;> rw [hm] at hp <;> cases hp <;>
    simp_all [List.getElem?_cons]

theorem msg_of_slot (h : Sim W F I) (hs : F.slot p = true) :
    ∃ v, I.msg p = some v ∧ F.flight p = [] ∧ (W.carries p = true → F.mem (W.loc p) = v) := by
  have hp := h.port p
  cases hm : I.msg p with
  | none => rw [hm] at hp; cases hp; simp_all
  | some v => rw [hm] at hp; cases hp <;> simp_all

theorem msg_of_flight (h : Sim W F I) (hf : F.flight p ≠ []) : (I.msg p).isSome := by
  have hp := h.port p
  cases hm : I.msg p with
  | none => rw [hm] at hp; cases hp; contradiction
  | some v => rfl

/-- With nothing in flight a message is a set slot. -/
theorem slot_of_msg (h : Sim W F I) (hm : (I.msg p).isSome) (hf : F.flight p = []) :
    F.slot p = true := by
  have hp := h.port p
  obtain ⟨v, hv⟩ := Option.isSome_iff_exists.mp hm
  rw [hv] at hp
  cases hp <;> simp_all

theorem idle_of_none (h : Sim W F I) (hm : I.msg p = none) :
    F.flight p = [] ∧ F.slot p = false := by
  have hp := h.port p
  rw [hm] at hp
  cases hp with
  | idle hf hs => exact ⟨hf, hs⟩

end Sim

end

namespace Sim

variable {Port Loc Val : Type} {W : Wiring Port Loc}
  {F F' : Fabric Port Loc Val} {I : Channels Port Loc Val} {p : Port}

/-! ## Network steps -/

/-- One operation moves on; the others do not notice. -/
theorem moved (h : Sim W F I) (hfp : F.flight p ≠ []) (hp : Carried W F' p (I.msg p))
    (hf : ∀ q, q ≠ p → F'.flight q = F.flight q) (hs : ∀ q, q ≠ p → F'.slot q = F.slot q)
    (hm : F'.mem = F.mem ∨ W.carries p = true ∧ ∀ l, l ≠ W.loc p → F'.mem l = F.mem l) :
    Sim W F' I := by
  have hin : W.carries p = true → I.Incoming W p := fun hc => ⟨hc, h.msg_of_flight hfp⟩
  have hmem : ∀ l, (W.carries p = true → W.loc p ≠ l) → F'.mem l = F.mem l := by
    intro l hl
    rcases hm with hm | ⟨hc, hm⟩
    · rw [hm]
    · exact hm l (hl hc).symm
  refine ⟨fun q => ?_, fun l hl => ?_, fun a b ha hcb hb => ?_, h.alone⟩
  · by_cases hq : q = p
    · subst hq; exact hp
    · refine (h.port q).congr (hf q hq) (hs q hq) (fun hc hfq => ?_) (fun hc ho => ?_)
      · exact hmem _ fun hcp => h.apart p q (hin hcp) hc hfq
      · exact hmem _ fun hcp he => hq (h.alone p q (hin hcp) ⟨hc, ho⟩ he).symm
  · rw [hmem l fun hc => hl p (hin hc)]
    exact h.mem l hl
  · apply h.apart a b ha hcb
    by_cases hbp : b = p
    · subst hbp; exact hfp
    · rwa [hf b hbp] at hb

/-- **The network is invisible.** -/
theorem advance [DecidableEq Port] [DecidableEq Loc] (h : Sim W F I) {i : Nat} (ha : F.advance W p i = some F') : Sim W F' I := by
  rcases Fabric.advance_cases ha with ⟨hi, hc, rfl⟩ | ⟨hi, hc, rfl⟩ | ⟨v, hi, rfl⟩ | ⟨hi, rfl⟩ <;>
    obtain ⟨rfl, hfl⟩ := h.single hi <;>
    obtain ⟨w, hw⟩ := Option.isSome_iff_exists.mp (h.msg_of_flight (p := p) (by simp [hfl])) <;>
    have hp := h.port p <;> rw [hw] at hp
  · have hv : F.mem (W.loc (W.peer p)) = w := by cases hp <;> simp_all
    have hs : F.slot p = false := by cases hp <;> simp_all
    refine h.moved (p := p) (by simp [hfl]) ?_ (fun q hq => Function.update_of_ne hq ..)
      (fun _ _ => rfl) (.inl rfl)
    rw [hw, ← hv]
    exact .read (by simp [Fabric.setPhase, hfl]) hs hc
  · refine h.moved (p := p) (by simp [hfl]) ?_ (fun q hq => Function.update_of_ne hq ..)
      (fun q hq => Function.update_of_ne hq ..) (.inl rfl)
    rw [hw]
    exact .set (by simp [Fabric.notify, hfl]) (by simp [Fabric.notify]) (by simp [hc])
  · have hv : w = v ∧ W.carries p = true ∧ F.slot p = false := by cases hp <;> simp_all
    obtain ⟨rfl, hc, hs⟩ := hv
    refine h.moved (p := p) (by simp [hfl]) ?_ (fun q hq => Function.update_of_ne hq ..)
      (fun _ _ => rfl) (.inr ⟨hc, fun l hl => Function.update_of_ne hl ..⟩)
    rw [hw]
    exact .stored (by simp [Fabric.setPhase, hfl]) hs
      fun _ => by simp [Fabric.setPhase, Fabric.write]
  · have hv : W.carries p = true → F.mem (W.loc p) = w := by cases hp <;> simp_all
    refine h.moved (p := p) (by simp [hfl]) ?_ (fun q hq => Function.update_of_ne hq ..)
      (fun q hq => Function.update_of_ne hq ..) (.inl rfl)
    rw [hw]
    exact .set (by simp [Fabric.notify, hfl]) (by simp [Fabric.notify]) hv

end Sim

/-! ## What the ranks do -/

namespace Channels

variable {Port Loc Val : Type}

/-- Send the source's contents to port `p`. -/
def post [DecidableEq Port] (W : Wiring Port Loc) (I : Channels Port Loc Val) (p : Port) :
    Channels Port Loc Val :=
  { I with msg := Function.update I.msg p (some (I.mem (W.loc (W.peer p)))) }

/-- Take the message `v` from port `p`. -/
def take [DecidableEq Port] [DecidableEq Loc] (W : Wiring Port Loc) (I : Channels Port Loc Val)
    (p : Port) (v : Val) : Channels Port Loc Val where
  mem := if W.carries p then Function.update I.mem (W.loc p) v else I.mem
  msg := Function.update I.msg p none

def write [DecidableEq Loc] (I : Channels Port Loc Val) (l : Loc) (v : Val) : Channels Port Loc Val :=
  { I with mem := Function.update I.mem l v }

end Channels

namespace Sim

section

variable {Port Loc Val : Type} [DecidableEq Port] {W : Wiring Port Loc}
  {F : Fabric Port Loc Val} {I : Channels Port Loc Val} {p : Port}

/-- A rank posts on a free channel whose two locations nobody else is using. -/
theorem post (h : Sim W F I) (hfree : I.msg p = none)
    (hself : W.carries p = true → W.loc p ≠ W.loc (W.peer p))
    (hsrc : W.carries p = true → ∀ q, I.Incoming W q → W.loc q ≠ W.loc (W.peer p))
    (hdst : W.carries p = true → ∀ q, I.Incoming W q → W.loc q ≠ W.loc p)
    (hread : W.carries p = true → ∀ q, W.carries q = true → F.flight q ≠ [] →
      W.loc p ≠ W.loc (W.peer q)) :
    Sim W (F.post p) (I.post W p) := by
  obtain ⟨hf, hs⟩ := h.idle_of_none hfree
  have hin : ∀ q, (I.post W p).Incoming W q → q ≠ p → I.Incoming W q := by
    intro q hq hne
    simpa only [Channels.Incoming, Channels.post, Function.update_of_ne hne] using hq
  have hfl : ∀ q, q ≠ p → (F.post p).flight q = F.flight q := fun q hq => Function.update_of_ne hq ..
  refine ⟨fun q => ?_, fun l hl => ?_, fun a b ha hcb hb => ?_, fun a b ha hb he => ?_⟩
  · by_cases hq : q = p
    · subst hq
      simp only [Channels.post, Function.update_self]
      refine .posted (by simp [Fabric.post, hf]) hs fun hc => h.mem _ (hsrc hc)
    · simp only [Channels.post, Function.update_of_ne hq]
      exact (h.port q).congr (hfl q hq) rfl (fun _ _ => rfl) (fun _ _ => rfl)
  · refine h.mem l fun q hq => hl q ?_
    have hne : q ≠ p := by rintro rfl; simp [Channels.Incoming, hfree] at hq
    simpa only [Channels.Incoming, Channels.post, Function.update_of_ne hne] using hq
  · by_cases hap : a = p <;> by_cases hbp : b = p
    · subst hap; subst hbp; exact hself hcb
    · subst hap; rw [hfl b hbp] at hb; exact hread ha.1 b hcb hb
    · subst hbp; exact hsrc hcb a (hin a ha hap)
    · rw [hfl b hbp] at hb; exact h.apart a b (hin a ha hap) hcb hb
  · by_cases hap : a = p <;> by_cases hbp : b = p
    · rw [hap, hbp]
    · subst hap; exact absurd he.symm (hdst ha.1 b (hin b hb hbp))
    · subst hbp; exact absurd he (hdst hb.1 a (hin a ha hap))
    · exact h.alone a b (hin a ha hap) (hin b hb hbp) he

end

section

variable {Port Loc Val : Type} [DecidableEq Loc] {W : Wiring Port Loc}
  {F : Fabric Port Loc Val} {I : Channels Port Loc Val} {l : Loc}

/-- A rank writes memory no operation is reading from or writing to. -/
theorem write (h : Sim W F I) (v : Val) (hdst : ∀ q, I.Incoming W q → W.loc q ≠ l)
    (hsrc : ∀ q, W.carries q = true → F.flight q ≠ [] → W.loc (W.peer q) ≠ l) :
    Sim W (F.write l v) (I.write l v) := by
  refine ⟨fun q => ?_, fun l' hl => ?_, h.apart, h.alone⟩
  · exact (h.port q).congr rfl rfl (fun hc hf => Function.update_of_ne (hsrc q hc hf) ..)
      (fun hc ho => Function.update_of_ne (hdst q ⟨hc, ho⟩) ..)
  · by_cases hll : l' = l
    · subst hll; simp [Fabric.write, Channels.write]
    · simp only [Fabric.write, Channels.write, Function.update_of_ne hll]
      exact h.mem l' hl

end

section

variable {Port Loc Val : Type} [DecidableEq Port] [DecidableEq Loc] {W : Wiring Port Loc}
  {F : Fabric Port Loc Val} {I : Channels Port Loc Val} {p : Port}

/-- A rank finds its slot set: a message has arrived, and it takes it. -/
theorem take (h : Sim W F I) {v : Val} (hm : I.msg p = some v) (hs : F.slot p = true) :
    Sim W (F.reset p) (I.take W p v) := by
  obtain ⟨w, hw, hf, hv⟩ := h.msg_of_slot hs
  rw [hm] at hw
  obtain rfl := Option.some.inj hw
  have hin : ∀ q, (I.take W p v).Incoming W q → q ≠ p ∧ I.Incoming W q := by
    intro q hq
    have hne : q ≠ p := by rintro rfl; simp [Channels.Incoming, Channels.take] at hq
    refine ⟨hne, ?_⟩
    simpa only [Channels.Incoming, Channels.take, Function.update_of_ne hne] using hq
  refine ⟨fun q => ?_, fun l hl => ?_, fun a b ha hcb hb => ?_, fun a b ha hb he => ?_⟩
  · by_cases hq : q = p
    · subst hq
      simp only [Channels.take, Function.update_self]
      exact .idle hf (by simp [Fabric.reset])
    · simp only [Channels.take, Function.update_of_ne hq]
      exact (h.port q).congr rfl (Function.update_of_ne hq ..) (fun _ _ => rfl) (fun _ _ => rfl)
  · have hl' : ∀ q, q ≠ p → I.Incoming W q → W.loc q ≠ l := by
      intro q hne hq
      apply hl q
      simpa only [Channels.Incoming, Channels.take, Function.update_of_ne hne] using hq
    by_cases hc : W.carries p = true
    · by_cases hlp : l = W.loc p
      · subst hlp; simpa [Channels.take, hc] using hv hc
      · simp only [Channels.take, hc, if_true, Function.update_of_ne hlp, Fabric.reset_mem]
        refine h.mem l fun q hq => ?_
        by_cases hqp : q = p
        · subst hqp; exact Ne.symm hlp
        · exact hl' q hqp hq
    · simp only [Channels.take, hc, Fabric.reset_mem, Bool.false_eq_true, if_false]
      refine h.mem l fun q hq => hl' q ?_ hq
      rintro rfl
      exact hc hq.1
  · exact h.apart a b (hin a ha).2 hcb hb
  · exact h.alone a b (hin a ha).2 (hin b hb).2 he

end

end Sim

end GaspiCxx.OneSided
