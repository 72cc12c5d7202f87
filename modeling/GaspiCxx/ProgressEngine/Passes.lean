import GaspiCxx.ProgressEngine.RoundRobinDedicatedThread

/-!
# What the management thread serves

The management thread works on a private copy of the registered collectives
and renews it, behind the wait, when a flag says that the map has changed.
Every change sets the flag and only a renewal clears it, so a pass serves what
is registered when it leaves the lock. The wait comes before the renewal: when
the last collective goes, the thread falls asleep on the old copy.
-/

namespace GaspiCxx.ProgressEngine

variable {Collective : Type}

def Label.trigger? : Label Collective → Option Collective
  | .trigger c => some c
  | _ => none

/-- The collectives on which `triggerProgress` is called, in order. -/
def triggered (ls : List (Label Collective)) : List Collective := ls.filterMap Label.trigger?

def Label.isLeave : Label Collective → Bool
  | .leave => true
  | _ => false

/-- The private list is the map's values whenever the flag is down. -/
def Fresh (s : State Collective) : Prop :=
  s.manager ≠ .stopped → s.engine.updated_operators = false → s.current_operators.Perm s.engine.operators.values

variable {ls ks before after : List (Label Collective)} {s t u v : State Collective} {l : Label Collective}
  {c : Collective}

theorem Step.fresh (h : Fresh s) (hl : Step s l t) : Fresh t := by
  cases hl with
  | register _ he =>
    obtain ⟨operators, -, rfl⟩ := Engine.register_collective_ok he
    exact fun _ hf => by cases hf
  | refuse _ he =>
    rw [Engine.register_collective_error he]
    exact fun _ hf => by cases hf
  | deregister =>
    rw [Engine.deregister_collective_snd]
    exact fun _ hf => by cases hf
  | returns => exact h
  | terminate => exact h
  | loop hm => exact fun _ => h (by rw [hm]; nofun)
  | stop => exact fun hne => absurd rfl hne
  | sleep hm => exact fun _ => h (by rcases hm with hm | hm <;> rw [hm] <;> nofun)
  | leave hm _ hlist =>
    intro _ _
    unfold Refreshed at hlist
    split at hlist
    · exact hlist
    · next hdown =>
      subst hlist
      exact h (by rcases hm with hm | hm <;> rw [hm] <;> nofun) (by simpa using hdown)
  | pass hm => exact fun _ => h (by rw [hm]; nofun)
  | cut hm => exact fun _ => h (by rw [hm]; nofun)
  | trigger hm => exact fun _ => h (by rw [hm]; nofun)
  | served hm => exact fun _ => h (by rw [hm]; nofun)

theorem fresh (h : Run ls s) : Fresh s :=
  h.invariant (fun _ _ => .nil) fun _ _ _ hs hl => hl.fresh hs

/-! ## A pass -/

/-- Between leaving the lock and the end of the pass: what has been triggered
and what is still to be triggered is what was registered. -/
def Serving (registered : List Collective) (ks : List (Label Collective)) (s : State Collective) : Prop :=
  match s.manager with
  | .unlocked => triggered ks = [] ∧ s.current_operators.Perm registered
  | .pass todo => (triggered ks ++ todo).Perm registered
  | _ => True

theorem triggered_snoc (ks : List (Label Collective)) (l : Label Collective) :
    triggered (ks ++ [l]) = triggered ks ++ l.trigger?.toList := by
  unfold triggered
  rw [List.filterMap_append]
  cases hl : l.trigger? <;> simp [hl]

theorem Serving.step {registered : List Collective} (h : Serving registered ks s) (hl : Step s l t)
    (hno : l.isLeave = false) : Serving registered (ks ++ [l]) t := by
  unfold Serving at h ⊢
  rw [triggered_snoc]
  cases hl with
  | leave => cases hno
  | loop => trivial
  | stop => trivial
  | sleep => trivial
  | pass hm =>
    rw [hm] at h
    simpa [h.1, Label.trigger?] using h.2
  | cut => trivial
  | trigger hm =>
    rw [hm] at h
    simpa [Label.trigger?] using h
  | served => trivial
  | _ => simpa [Label.trigger?] using h

/-- A registered entry stays until its handle is deregistered. -/
theorem Step.keeps {key : CollectiveHandle} (hm : (key, c) ∈ s.engine.operators.entries) (hl : Step s l t)
    (hno : ∀ t' removed, l ≠ .deregister t' key removed) : (key, c) ∈ t.engine.operators.entries := by
  cases hl with
  | register _ he =>
    obtain ⟨operators, hins, rfl⟩ := Engine.register_collective_ok he
    simp only [(Operators.insert_entries hins).2]
    exact List.mem_append_left _ hm
  | refuse _ he =>
    rw [Engine.register_collective_error he]
    exact hm
  | @deregister t' handle _ =>
    rw [Engine.deregister_collective_snd]
    refine Operators.mem_erase.mpr ⟨hm, fun he => ?_⟩
    subst he
    exact hno t' _ rfl
  | _ => exact hm

/-- A handle stays free until a registration uses it. -/
theorem Step.keeps_out {key : CollectiveHandle} (hm : ∀ c, (key, c) ∉ s.engine.operators.entries) (hl : Step s l t)
    (hno : ∀ t' c, l ≠ .register t' key c) : ∀ c, (key, c) ∉ t.engine.operators.entries := by
  intro c
  cases hl with
  | @register t' c' e _ he =>
    obtain ⟨operators, hins, rfl⟩ := Engine.register_collective_ok he
    simp only [(Operators.insert_entries hins).2]
    intro hin
    rcases List.mem_append.mp hin with hin | hin
    · exact hm c hin
    · obtain ⟨rfl, rfl⟩ := Prod.mk.inj (List.mem_singleton.mp hin)
      exact hno t' c rfl
  | refuse _ he =>
    rw [Engine.register_collective_error he]
    exact hm c
  | deregister =>
    rw [Engine.deregister_collective_snd]
    exact fun hin => hm c (Operators.mem_erase.mp hin).1
  | _ => exact hm c

theorem registered_of_register {t' : Thread} {key : CollectiveHandle} (h : Run (before ++ .register t' key c :: after) s)
    (hno : ∀ t'' removed, .deregister t'' key removed ∉ after) : (key, c) ∈ s.engine.operators.entries := by
  obtain ⟨u, v, -, hl, hafter⟩ := h.split_cons
  have hin : (key, c) ∈ v.engine.operators.entries := by
    generalize hk : Label.register t' key c = l at hl
    cases hl with
    | register _ he =>
      obtain ⟨rfl, rfl, rfl⟩ := Label.register.inj hk
      obtain ⟨operators, hins, rfl⟩ := Engine.register_collective_ok he
      simp [(Operators.insert_entries hins).2]
    | _ => cases hk
  refine hafter.history (P := fun ks w => (∀ t'' removed, .deregister t'' key removed ∉ ks) →
    (key, c) ∈ w.engine.operators.entries) (fun _ => hin) ?_ hno
  intro ks w l x hw hl hno
  refine hl.keeps (hw fun t'' removed hm => hno t'' removed (List.mem_append_left _ hm)) ?_
  rintro t'' removed rfl
  exact hno t'' removed (by simp)

theorem free_of_deregister {t' : Thread} {key : CollectiveHandle} {removed : List (CollectiveHandle × Collective)}
    (h : Run (before ++ .deregister t' key removed :: after) s) (hno : ∀ t'' c, .register t'' key c ∉ after) :
    ∀ c, (key, c) ∉ s.engine.operators.entries := by
  obtain ⟨u, v, -, hl, hafter⟩ := h.split_cons
  have hout : ∀ c, (key, c) ∉ v.engine.operators.entries := by
    cases hl with
    | deregister =>
      rw [Engine.deregister_collective_snd]
      exact fun c hin => (Operators.mem_erase.mp hin).2 rfl
  refine hafter.history (P := fun ks w => (∀ t'' c, .register t'' key c ∉ ks) →
    ∀ c, (key, c) ∉ w.engine.operators.entries) (fun _ => hout) ?_ hno
  intro ks w l x hw hl hno
  refine hl.keeps_out (hw fun t'' c hm => hno t'' c (List.mem_append_left _ hm)) ?_
  rintro t'' c rfl
  exact hno t'' c (by simp)

/-- What a pass has to do with the map `operators` it left the lock with, after the run `before`. -/
structure Serves (before : List (Label Collective)) (operators : Operators Collective)
    (served : List Collective) : Prop where
  /-- Each registered collective is triggered, once for each time it is registered. -/
  exact : served.Perm operators.values
  registered : ∀ ls ks t key c, before = ls ++ .register t key c :: ks →
    (∀ t' removed, .deregister t' key removed ∉ ks) → (key, c) ∈ operators.entries
  deregistered : ∀ ls ks t key removed, before = ls ++ .deregister t key removed :: ks →
    (∀ t' c, .register t' key c ∉ ks) → ∀ c, (key, c) ∉ operators.entries

/-- **A pass serves what is registered when it leaves the lock.** -/
theorem pass_serves_registered (hs : Run before s) (hleave : Step s .leave t) (hpass : Runs.Trace Step t ks u)
    (hone : ∀ l ∈ ks, l.isLeave = false) (hserved : Step u .served v) :
    Serves before t.engine.operators (triggered ks) := by
  have hfresh := hleave.fresh (fresh hs)
  have hstart : Serving t.engine.operators.values [] t := by
    cases hleave with
    | leave => exact ⟨rfl, hfresh nofun rfl⟩
  have hend : Serving t.engine.operators.values ks u := by
    refine hpass.history (P := fun ks u => (∀ l ∈ ks, l.isLeave = false) → Serving t.engine.operators.values ks u)
      (fun _ => hstart) ?_ hone
    intro ks u l v hu hl hone
    exact (hu fun m hm => hone m (List.mem_append_left _ hm)).step hl (hone l (by simp))
  have hmap : t.engine.operators = s.engine.operators := by
    cases hleave with
    | leave => rfl
  refine ⟨?_, ?_, ?_⟩
  · cases hserved with
    | served hm =>
      unfold Serving at hend
      rw [hm] at hend
      simpa using hend
  · rintro ls ks t' key c rfl hno
    rw [hmap]
    exact registered_of_register hs hno
  · rintro ls ks t' key removed rfl hno
    rw [hmap]
    exact free_of_deregister hs hno

/-! ## Asleep -/

/-- A sleeping management thread holds registered collectives only. -/
def Clean (s : State Collective) : Prop :=
  s.manager = .blocked → ∀ c ∈ s.current_operators, c ∈ s.engine.operators.values

/-- The management thread does not fall asleep again once it has been past the wait. -/
def StaysAwake (ls : List (Label Collective)) : Prop :=
  ∀ before after, ls = before ++ .sleep :: after → .leave ∉ before

/-- Until the end the private list is not empty. -/
def Loaded (s : State Collective) : Prop := s.engine.terminate_man_thread = false → s.current_operators ≠ []

theorem loaded_of_leave (h : Fresh s) (hl : Step s .leave t) : Loaded t := by
  have hfresh := hl.fresh h
  cases hl with
  | leave _ hready hlist =>
    intro hgo hnil
    have hsize : 0 < s.engine.operators.size := hready.resolve_right (by simpa using hgo)
    have hlen := (hfresh nofun rfl).length_eq
    simp only at hnil
    rw [hnil, Operators.values, List.length_map] at hlen
    simp only [Operators.size] at hsize
    simp at hlen
    omega

theorem Step.loaded (h : Loaded s) (hf : Fresh s) (hl : Step s l t) : Loaded t := by
  cases hl with
  | register _ he =>
    obtain ⟨operators, -, rfl⟩ := Engine.register_collective_ok he
    exact h
  | refuse _ he =>
    rw [Engine.register_collective_error he]
    exact h
  | deregister =>
    rw [Engine.deregister_collective_snd]
    exact h
  | terminate => exact fun hgo => by cases hgo
  | stop _ hend => exact fun hgo => absurd (hend.symm.trans hgo) (by decide)
  | leave hm hready hlist => exact loaded_of_leave hf (.leave hm hready hlist)
  | _ => exact h

/-- Asleep with a list that was renewed once: nothing is registered, and the list is not empty. -/
theorem not_clean (h : Run (before ++ .leave :: (ks ++ [.sleep])) s) : ¬ Clean s := by
  obtain ⟨u, v, hu, hleave, hrest⟩ := h.split_cons
  obtain ⟨w, hks, hsleep⟩ := hrest.last
  have hloaded : Loaded w ∧ Fresh w := by
    refine hks.invariant (P := fun w => Loaded w ∧ Fresh w) ?_ fun _ _ _ hx hl => ?_
    · exact ⟨loaded_of_leave (fresh hu) hleave, hleave.fresh (fresh hu)⟩
    · exact ⟨hl.loaded hx.1 hx.2, hl.fresh hx.2⟩
  cases hsleep with
  | sleep _ hwait =>
    obtain ⟨hsize, hgo⟩ := not_or.mp hwait
    obtain ⟨c, cs, hc⟩ := List.exists_cons_of_ne_nil (hloaded.1 (by simpa using hgo))
    intro hclean
    have hin : c ∈ w.engine.operators.values := hclean rfl c (by simp [hc])
    have hlen := List.length_pos_of_mem hin
    rw [Operators.values, List.length_map] at hlen
    exact hsize hlen

/-- Asleep, nothing has been renewed since it fell asleep; before any renewal the list is empty. -/
theorem asleep (h : Run ls s) : (.leave ∉ ls → s.current_operators = []) ∧
    (s.manager = .blocked → ∃ before after, ls = before ++ .sleep :: after ∧ .leave ∉ after) := by
  refine h.history (P := fun ls s => (.leave ∉ ls → s.current_operators = []) ∧
    (s.manager = .blocked → ∃ before after, ls = before ++ .sleep :: after ∧ .leave ∉ after))
    ⟨fun _ => rfl, nofun⟩ ?_
  rintro ls s l t ⟨hnil, hblocked⟩ hl
  have hsame : l ≠ .leave → t.current_operators = s.current_operators →
      .leave ∉ ls ++ [l] → t.current_operators = [] := by
    intro _ he hno
    rw [he]
    exact hnil fun hm => hno (List.mem_append_left _ hm)
  have hlater : l ≠ .leave → s.manager = .blocked →
      ∃ before after, ls ++ [l] = before ++ .sleep :: after ∧ .leave ∉ after := by
    intro hne hm
    obtain ⟨before, after, rfl, hno⟩ := hblocked hm
    exact ⟨before, after ++ [l], by simp, by simpa using ⟨hno, hne.symm⟩⟩
  cases hl with
  | stop => exact ⟨fun _ => rfl, nofun⟩
  | sleep => exact ⟨hsame nofun rfl, fun _ => ⟨ls, [], rfl, by simp⟩⟩
  | leave => exact ⟨fun hno => absurd (by simp) hno, nofun⟩
  | loop => exact ⟨hsame nofun rfl, nofun⟩
  | pass => exact ⟨hsame nofun rfl, nofun⟩
  | cut => exact ⟨hsame nofun rfl, nofun⟩
  | trigger => exact ⟨hsame nofun rfl, nofun⟩
  | served => exact ⟨hsame nofun rfl, nofun⟩
  | _ => exact ⟨hsame nofun rfl, hlater nofun⟩

/-- **A sleeping engine holds registered collectives only, in every state of a
run, exactly if it never falls asleep again after it has served.** -/
theorem idle_holds_registered_iff (h : Run ls s) :
    (∀ before after u, ls = before ++ after → Run before u → Runs.Trace Step u after s → Clean u) ↔
      StaysAwake ls := by
  constructor
  · rintro hclean before after rfl hm
    obtain ⟨la, lb, rfl⟩ := List.append_of_mem hm
    have h' : Run (la ++ .leave :: (lb ++ [.sleep]) ++ after) s := by simpa using h
    obtain ⟨u, hu, hrest⟩ := h'.split
    exact not_clean hu (hclean _ after u (by simp) hu hrest)
  · rintro hawake before after u rfl hu - hm c hc
    obtain ⟨hnil, hblocked⟩ := asleep hu
    obtain ⟨la, lb, rfl, hno⟩ := hblocked hm
    have hla := hawake la (lb ++ after) (by simp)
    rw [hnil (by simp [hla, hno])] at hc
    exact absurd hc List.not_mem_nil

/-! ## One collective, served once -/

/-- It is registered, and the management thread is on its way to the lock. -/
def once : List (Label Nat) := [.register 0 1 10, .returns 0 1 10 1, .check]

/-- It is served and deregistered. -/
def onceGone : List (Label Nat) :=
  once ++ .leave :: ([.pass, .trigger 10, .served, .deregister 0 1 [(1, 10)], .check] ++ [.sleep])

theorem once_left : ∃ s t : State Nat, Run once s ∧ Step s .leave t ∧ t.manager = .unlocked ∧ t.calls 0 = none ∧
    t.current_operators = [10] ∧ t.engine.operators.entries = [(1, 10)] ∧ t.engine.terminate_man_thread = false := by
  have h₁ := Runs.Trace.single (Step.register_new (s := State.initial) (t := 0) (c := (10 : Nat)) rfl rfl)
  have h₂ := h₁.snoc (.returns (t := 0) rfl)
  exact ⟨_, _, h₂.snoc (.loop rfl rfl), .leave (.inl rfl) (.inl Nat.one_pos) (show Refreshed _ [10] from .refl _),
    rfl, rfl, rfl, rfl, rfl⟩

theorem pass_serves_registered_once : ∃ s t u v : State Nat, Run once s ∧ Step s .leave t ∧
    Runs.Trace Step t [.pass, .trigger 10] u ∧ Step u .served v ∧
      Serves once t.engine.operators (triggered [.pass, .trigger 10]) := by
  obtain ⟨s, t, hs, ht, hm, -, hc, -, hgo⟩ := once_left
  have hu := (Runs.Trace.single (Step.pass hm hgo)).snoc (.trigger (congrArg Manager.pass hc))
  exact ⟨s, t, _, _, hs, ht, hu, .served rfl, pass_serves_registered hs ht hu (by decide) (.served rfl)⟩

theorem once_asleep : ∃ s : State Nat, Run onceGone s ∧ ¬ Clean s := by
  obtain ⟨s, t, hs, ht, hm, hidle, hc, he, hgo⟩ := once_left
  have hin : (1, 10) ∈ t.engine.operators.entries := by rw [he]; exact List.mem_cons_self
  have hgone : ¬ ({ t.engine with updated_operators := true, operators := t.engine.operators.erase 1 } :
      Engine Nat).ready := by
    simp [Engine.ready, Operators.size, Operators.erase, he, hgo]
  have h₁ := (hs.snoc ht).snoc (.pass hm hgo)
  have h₂ := (h₁.snoc (.trigger (congrArg Manager.pass hc))).snoc (.served rfl)
  have h₃ := h₂.snoc (.deregister 1 hidle)
  simp only [Operators.taken_eq_singleton hin, Engine.deregister_collective_snd] at h₃
  have h₄ : Run onceGone _ := (h₃.snoc (.loop rfl hgo)).snoc (.sleep (.inl rfl) hgone)
  refine ⟨_, h₄, ?_⟩
  unfold onceGone at h₄
  exact not_clean h₄

theorem idle_holds_registered_iff_once : ∃ s, Run onceGone s ∧
    ((∀ before after u, onceGone = before ++ after → Run before u → Runs.Trace Step u after s → Clean u) ↔
      StaysAwake onceGone) := by
  obtain ⟨s, hs, -⟩ := once_asleep
  exact ⟨s, hs, idle_holds_registered_iff hs⟩

/-- The thread falls asleep with a deregistered collective in its hands. -/
theorem idle_holds_deregistered : ¬ ∀ (ls : List (Label Nat)) (s : State Nat), Run ls s → Clean s := by
  intro h
  obtain ⟨s, hs, hnot⟩ := once_asleep
  exact hnot (h _ s hs)

end GaspiCxx.ProgressEngine
