import GaspiCxx.ProgressEngine.RoundRobinDedicatedThread

/-!
# Which handle `register_collective` returns

The counter advances under the lock, once for every locked section of
`register_collective`; the key of a section is its number, and the handle a
call returns is the number of sections there have been by then. The two agree
as long as no other section comes between a call's own section and its return.
-/

namespace GaspiCxx.ProgressEngine

variable {Collective : Type}

namespace Label

/-- A locked section of `register_collective`. -/
def registers : Label Collective → Bool
  | .register .. | .refuse _ => true
  | _ => false

/-- The return of a call by the thread `t`. -/
def returnsTo (t : Thread) : Label Collective → Bool
  | .returns t' .. => t' = t
  | _ => false

def handle? : Label Collective → Option CollectiveHandle
  | .returns _ _ _ handle => some handle
  | _ => none

end Label

/-- How many locked sections of `register_collective` there have been. -/
def registrations (ls : List (Label Collective)) : Nat := ls.countP Label.registers

/-- Handles identify their collective. -/
structure Identify (ls : List (Label Collective)) : Prop where
  /-- A call returns the key under which it inserted its collective. -/
  own : ∀ t key c handle, .returns t key c handle ∈ ls → handle = key
  /-- Different calls return different handles. -/
  distinct : (ls.filterMap Label.handle?).Nodup
  /-- The first deregistration with a handle takes out the collective of the
  call that returned it, and nothing else; a later one takes out nothing. -/
  removes : ∀ before t handle removed after, ls = before ++ .deregister t handle removed :: after →
    ∀ t' key c, .returns t' key c handle ∈ before →
      removed = [(handle, c)] ∨ (removed = [] ∧ ∃ t'', .deregister t'' handle [(handle, c)] ∈ before)

/-- No other locked section comes between the locked section of a call and its return. -/
def Undisturbed (ls : List (Label Collective)) : Prop :=
  ∀ before between after t key c key' c' handle,
    ls = before ++ .register t key c :: (between ++ .returns t key' c' handle :: after) →
    (∀ l ∈ between, l.returnsTo t = false) → registrations between = 0

variable {ls before between after : List (Label Collective)} {s u : State Collective} {l : Label Collective}
  {t : Thread} {key handle : Nat} {c : Collective}

/-! ## Counting the locked sections -/

theorem registrations_append (ls ks : List (Label Collective)) :
    registrations (ls ++ ks) = registrations ls + registrations ks := List.countP_append

theorem registrations_cons (l : Label Collective) (ls : List (Label Collective)) :
    registrations (l :: ls) = registrations ls + if l.registers then 1 else 0 := List.countP_cons

theorem registrations_snoc (ls : List (Label Collective)) (l : Label Collective) :
    registrations (ls ++ [l]) = registrations ls + if l.registers then 1 else 0 := by
  rw [registrations_append, registrations_cons]
  simp [registrations]

/-- The last locked section of a run is one section. -/
theorem last_section {ls ls' ks ks' : List (Label Collective)} {l l' : Label Collective}
    (he : ls ++ l :: ks = ls' ++ l' :: ks') (hl : l.registers = true) (hl' : l'.registers = true)
    (hk : registrations ks = 0) (hk' : registrations ks' = 0) : l = l' ∧ ks = ks' := by
  have hnone : ∀ m ∈ ks, m.registers = false := by simpa [registrations, List.countP_eq_zero] using hk
  have hnone' : ∀ m ∈ ks', m.registers = false := by simpa [registrations, List.countP_eq_zero] using hk'
  rcases List.append_eq_append_iff.mp he with ⟨as, -, has⟩ | ⟨as, -, has⟩
  · cases as with
    | nil => exact List.cons.inj has
    | cons a as =>
      obtain ⟨-, rfl⟩ := List.cons.inj has
      exact absurd hl' (by simp [hnone l' (by simp)])
  · cases as with
    | nil => exact (List.cons.inj has).imp Eq.symm Eq.symm
    | cons a as =>
      obtain ⟨-, rfl⟩ := List.cons.inj has
      exact absurd hl (by simp [hnone' l (by simp)])

/-- The counter is the number of locked sections. -/
theorem current_handle_eq (h : Run ls s) : s.engine.current_handle = registrations ls % 2 ^ 64 := by
  refine h.history (P := fun ls s => s.engine.current_handle = registrations ls % 2 ^ 64) rfl ?_
  intro ls s l u hs hl
  rw [registrations_snoc]
  cases hl with
  | register _ he =>
    obtain ⟨operators, -, rfl⟩ := Engine.register_collective_ok he
    simp only [hs, Label.registers, ↓reduceIte]
    omega
  | refuse _ he =>
    rw [Engine.register_collective_error he]
    simp only [hs, Label.registers, ↓reduceIte]
    omega
  | deregister => rw [Engine.deregister_collective_snd]; exact hs
  | _ => exact hs

/-- A key is the number of its section. -/
theorem key_eq (h : Run (before ++ .register t key c :: after) s) : key = (registrations before + 1) % 2 ^ 64 := by
  obtain ⟨u, v, hu, hl, -⟩ := h.split_cons
  have hcount := current_handle_eq hu
  generalize hk : Label.register t key c = l at hl
  cases hl with
  | register _ he =>
    obtain ⟨operators, -, rfl⟩ := Engine.register_collective_ok he
    obtain ⟨-, rfl, -⟩ := Label.register.inj hk
    show (u.engine.current_handle + 1) % 2 ^ 64 = _
    rw [hcount, Nat.mod_add_mod]
  | _ => cases hk

/-- A returned handle is the number of sections by then. -/
theorem handle_eq (h : Run (before ++ .returns t key c handle :: after) s) :
    handle = registrations before % 2 ^ 64 := by
  obtain ⟨u, v, hu, hl, -⟩ := h.split_cons
  cases hl with
  | returns => exact current_handle_eq hu

/-! ## The section a return belongs to -/

/-- A call under way is one whose section is behind it and whose return is not. -/
theorem exists_section (h : Run ls s) (hc : s.calls t = some (key, c)) :
    ∃ before between, ls = before ++ .register t key c :: between ∧ ∀ l ∈ between, l.returnsTo t = false := by
  refine h.history (P := fun ls s => ∀ t key c, s.calls t = some (key, c) → ∃ before between,
    ls = before ++ .register t key c :: between ∧ ∀ l ∈ between, l.returnsTo t = false)
    (fun _ _ _ hc => by cases hc) ?_ t key c hc
  intro ls s l u hs hl t key c hc
  have hkeep : s.calls t = some (key, c) → l.returnsTo t = false → ∃ before between,
      ls ++ [l] = before ++ .register t key c :: between ∧ ∀ l ∈ between, l.returnsTo t = false := by
    intro hc hno
    obtain ⟨before, between, rfl, hb⟩ := hs t key c hc
    refine ⟨before, between ++ [l], by simp, fun m hm => ?_⟩
    rcases List.mem_append.mp hm with hm | hm
    · exact hb m hm
    · rw [List.mem_singleton.mp hm, hno]
  cases hl with
  | @register t' c' e hidle he =>
    by_cases ht : t = t'
    · subst ht
      obtain ⟨rfl, rfl⟩ : e.current_handle = key ∧ c' = c := by simpa using hc
      exact ⟨ls, [], rfl, by simp⟩
    · exact hkeep (by simpa [Function.update_of_ne ht] using hc) rfl
  | @returns t' key' c' _ =>
    by_cases ht : t = t'
    · subst ht
      simp at hc
    · exact hkeep (by simpa [Function.update_of_ne ht] using hc) (by simpa [Label.returnsTo] using Ne.symm ht)
  | _ => exact hkeep hc rfl

theorem exists_section_of_returns (h : Run (before ++ .returns t key c handle :: after) s) :
    ∃ ls ks, before = ls ++ .register t key c :: ks ∧ ∀ l ∈ ks, l.returnsTo t = false := by
  obtain ⟨u, v, hu, hl, -⟩ := h.split_cons
  cases hl with
  | returns hcall => exact exists_section hu hcall

/-- Behind its section a call keeps its key until it returns. -/
theorem calls_kept {ks : List (Label Collective)} (h : Runs.Trace Step s ks u) (hc : s.calls t = some (key, c))
    (hno : ∀ l ∈ ks, l.returnsTo t = false) : u.calls t = some (key, c) := by
  refine h.history (P := fun ks u => (∀ l ∈ ks, l.returnsTo t = false) → u.calls t = some (key, c))
    (fun _ => hc) ?_ hno
  intro ks v l w hv hl hno
  have hv := hv fun m hm => hno m (List.mem_append_left _ hm)
  cases hl with
  | @register t' c' e hidle he =>
    have ht : t ≠ t' := fun ht => by rw [← ht, hv] at hidle; cases hidle
    simpa [Function.update_of_ne ht] using hv
  | @returns t' key' c' _ =>
    have ht : t' ≠ t := by simpa [Label.returnsTo] using hno _ (List.mem_append_right _ List.mem_cons_self)
    simpa [Function.update_of_ne ht.symm] using hv
  | _ => exact hv

/-! ## The handles of a run -/

/-- A handle is the key it should be exactly when nothing came between. -/
theorem handle_eq_key_iff (h : Run (before ++ .register t key c :: between) s)
    (hr : Run (before ++ .register t key c :: between ++ .returns t key c handle :: after) u)
    (hb : registrations (before ++ .register t key c :: between) ≤ 2 ^ 64) :
    handle = key ↔ registrations between = 0 := by
  have hkey := key_eq h
  have hhandle := handle_eq hr
  rw [registrations_append, registrations_cons] at hb hhandle
  simp only [Label.registers, ↓reduceIte] at hb hhandle
  omega

theorem own_of_undisturbed (h : Run ls s) (hb : registrations ls ≤ 2 ^ 64) (hu : Undisturbed ls)
    (hm : .returns t key c handle ∈ ls) : handle = key := by
  obtain ⟨before, after, rfl⟩ := List.append_of_mem hm
  obtain ⟨la, lb, rfl, hno⟩ := exists_section_of_returns h
  obtain ⟨v, hv, -⟩ := h.split
  rw [registrations_append] at hb
  apply (handle_eq_key_iff hv h (by omega)).mpr
  exact hu la lb after t key c key c handle (by simp) hno

theorem undisturbed_of_own (h : Run ls s) (hb : registrations ls ≤ 2 ^ 64) (hi : Identify ls) : Undisturbed ls := by
  rintro before between after t key c key' c' handle rfl hno
  have h' : Run (before ++ .register t key c :: between ++ .returns t key' c' handle :: after) s := by simpa using h
  obtain ⟨v, hv, hrest⟩ := h'.split
  obtain ⟨w, x, hw, hsection, hbetween⟩ := hv.split_cons
  obtain ⟨y, hreturn, -⟩ := hrest.first
  have hcall : x.calls t = some (key, c) := by
    generalize hk : Label.register t key c = l at hsection
    cases hsection with
    | register _ he =>
      obtain ⟨rfl, rfl, rfl⟩ := Label.register.inj hk
      simp
    | _ => cases hk
  have hkept := calls_kept hbetween hcall hno
  obtain ⟨rfl, rfl⟩ : key = key' ∧ c = c' := by
    cases hreturn with
    | returns hcall' =>
      rw [hkept] at hcall'
      exact Prod.mk.inj (Option.some.inj hcall')
  have hle : registrations (before ++ .register t key c :: between) ≤ 2 ^ 64 := by
    simp only [registrations_append, registrations_cons] at hb ⊢
    omega
  exact (handle_eq_key_iff hv h' hle).mp (hi.own t key c handle (by simp))

theorem handles_differ {middle : List (Label Collective)} {t' : Thread} {key' handle' : Nat} {c' : Collective}
    (h : Run (before ++ .returns t key c handle :: middle ++ .returns t' key' c' handle' :: after) s)
    (hb : registrations (before ++ .returns t key c handle :: middle ++ .returns t' key' c' handle' :: after) ≤ 2 ^ 64)
    (hu : Undisturbed (before ++ .returns t key c handle :: middle ++ .returns t' key' c' handle' :: after)) :
    handle ≠ handle' := by
  intro heq
  have h₁ : Run (before ++ .returns t key c handle :: (middle ++ .returns t' key' c' handle' :: after)) s := by
    simpa using h
  obtain ⟨la, lb, rfl, hno⟩ := exists_section_of_returns h₁
  obtain ⟨la', lb', he', hno'⟩ := exists_section_of_returns h
  have hlb : registrations lb = 0 := hu la lb (middle ++ .returns t' key' c' handle' :: after) t key c key c handle
    (by simp) hno
  have hlb' : registrations lb' = 0 := hu la' lb' after t' key' c' key' c' handle' (by rw [he']; simp) hno'
  -- equal numbers of sections: none lies between the two returns
  have hmiddle : registrations middle = 0 := by
    have e := handle_eq h₁
    have e' := handle_eq h
    simp only [registrations_append, registrations_cons, Label.registers, ↓reduceIte, Bool.false_eq_true] at e e' hb
    omega
  have hcons : la ++ .register t key c :: (lb ++ .returns t key c handle :: middle) =
      la' ++ .register t' key' c' :: lb' := by simpa using he'
  obtain ⟨hl, rfl⟩ := last_section hcons rfl rfl
    (by simp [registrations_append, registrations_cons, hlb, hmiddle, Label.registers]) hlb'
  obtain ⟨rfl, -, -⟩ := Label.register.inj hl
  have hlast := hno' (.returns t key c handle) (by simp)
  exact absurd hlast (by simp [Label.returnsTo])

/-- Two returns never give one handle. -/
theorem distinct_of_undisturbed (h : Run ls s) (hb : registrations ls ≤ 2 ^ 64) (hu : Undisturbed ls) :
    (ls.filterMap Label.handle?).Nodup := by
  refine h.history (P := fun ks _ => (∃ after, ls = ks ++ after) → (ks.filterMap Label.handle?).Nodup)
    (fun _ => List.nodup_nil) ?_ ⟨[], by simp⟩
  rintro ks v l w ih - ⟨after, rfl⟩
  have ih := ih ⟨l :: after, by simp⟩
  rw [List.filterMap_append]
  refine List.nodup_append.mpr ⟨ih, ?_, ?_⟩
  · cases hl : l.handle? <;> simp [hl]
  · intro a ha b hl heq
    obtain ⟨m, hm, hma⟩ := List.mem_filterMap.mp ha
    obtain ⟨m', hm', hmb⟩ := List.mem_filterMap.mp hl
    obtain rfl := List.mem_singleton.mp hm'
    obtain ⟨before, middle, rfl⟩ := List.append_of_mem hm
    cases m with
    | returns t key c handle =>
      cases m' with
      | returns t' key' c' handle' =>
        obtain rfl : handle = a := Option.some.inj hma
        obtain rfl : handle' = b := Option.some.inj hmb
        have he : before ++ .returns t key c handle :: middle ++ [.returns t' key' c' handle'] ++ after =
          before ++ .returns t key c handle :: middle ++ .returns t' key' c' handle' :: after := by simp
        rw [he] at h hb hu
        exact handles_differ h hb hu heq
      | _ => cases hmb
    | _ => cases hma

/-! ## What a deregistration removes -/

/-- Where the entry of a registration is: in the map, or taken out by a deregistration, for good. -/
def Tracked (ls : List (Label Collective)) (s : State Collective) : Prop :=
  ∀ t key c, .register t key c ∈ ls → (key, c) ∈ s.engine.operators.entries ∨
    (key ∉ s.engine.operators.entries.map Prod.fst ∧ ∃ t', .deregister t' key [(key, c)] ∈ ls)

/-- A new key is none of the keys so far. -/
theorem key_fresh (h : Run ls s) (hb : registrations ls < 2 ^ 64) (hm : .register t key c ∈ ls) :
    key ≠ (s.engine.current_handle + 1) % 2 ^ 64 := by
  obtain ⟨before, after, rfl⟩ := List.append_of_mem hm
  have hkey := key_eq h
  rw [current_handle_eq h, Nat.mod_add_mod]
  rw [registrations_append, registrations_cons] at hb ⊢
  simp only [Label.registers, ↓reduceIte] at hb ⊢
  intro heq
  rw [hkey] at heq
  omega

theorem tracked (h : Run ls s) (hb : registrations ls ≤ 2 ^ 64) : Tracked ls s := by
  induction h with
  | refl => exact fun _ _ _ hm => absurd hm List.not_mem_nil
  | @snoc v w ls l hrun hl ih =>
    rw [registrations_snoc] at hb
    have ih := ih (by omega)
    intro t key c hm
    cases hl with
    | @register t' c' e _ he =>
      obtain ⟨operators, hins, rfl⟩ := Engine.register_collective_ok he
      obtain ⟨hno, hentries⟩ := Operators.insert_entries hins
      simp only [Label.registers, ↓reduceIte] at hb
      rcases List.mem_append.mp hm with hm | hm
      · simp only [hentries]
        rcases ih t key c hm with hin | ⟨hout, t'', hd⟩
        · exact .inl (List.mem_append_left _ hin)
        · refine .inr ⟨?_, t'', List.mem_append_left _ hd⟩
          have hne := key_fresh hrun (by omega) hm
          intro hmem
          obtain ⟨⟨_, x⟩, hx, rfl⟩ := List.mem_map.mp hmem
          rcases List.mem_append.mp hx with hx | hx
          · exact hout (List.mem_map.mpr ⟨_, hx, rfl⟩)
          · exact hne (congrArg Prod.fst (List.mem_singleton.mp hx))
      · obtain ⟨rfl, rfl, rfl⟩ := Label.register.inj (List.mem_singleton.mp hm)
        exact .inl (by simp [hentries])
    | refuse _ he =>
      rw [Engine.register_collective_error he]
      have hm : .register t key c ∈ ls := by simpa using hm
      exact (ih t key c hm).imp_right fun ⟨hout, t'', hd⟩ => ⟨hout, t'', List.mem_append_left _ hd⟩
    | @deregister t' handle _ =>
      rw [Engine.deregister_collective_snd]
      have hm : .register t key c ∈ ls := by simpa using hm
      rcases ih t key c hm with hin | ⟨hout, t'', hd⟩
      · by_cases hk : key = handle
        · subst hk
          refine .inr ⟨by simp [Operators.erase], t', List.mem_append_right _ ?_⟩
          rw [Operators.taken_eq_singleton hin]
          exact List.mem_cons_self
        · exact .inl (Operators.mem_erase.mpr ⟨hin, hk⟩)
      · refine .inr ⟨fun hin => hout ?_, t'', List.mem_append_left _ hd⟩
        obtain ⟨⟨k, c'⟩, hk, rfl⟩ := List.mem_map.mp hin
        exact List.mem_map_of_mem (Operators.mem_erase.mp hk).1
    | _ =>
      have hm : .register t key c ∈ ls := by simpa using hm
      exact (ih t key c hm).imp_right fun ⟨hout, t'', hd⟩ => ⟨hout, t'', List.mem_append_left _ hd⟩

/-! ## The result -/

theorem identify_of_undisturbed (h : Run ls s) (hb : registrations ls ≤ 2 ^ 64) (hu : Undisturbed ls) :
    Identify ls where
  own _ _ _ _ hm := own_of_undisturbed h hb hu hm
  distinct := distinct_of_undisturbed h hb hu
  removes := by
    rintro before t handle removed after rfl t' key c hm
    obtain rfl := own_of_undisturbed h hb hu (List.mem_append_left _ hm)
    obtain ⟨la, lb, rfl⟩ := List.append_of_mem hm
    obtain ⟨v, w, hv, hl, -⟩ := h.split_cons
    obtain ⟨lc, ld, rfl, -⟩ := exists_section_of_returns hv
    rw [registrations_append] at hb
    have htracked := tracked hv (by omega) t' handle c (by simp)
    cases hl with
    | deregister =>
      rcases htracked with hin | ⟨hout, hd⟩
      · exact .inl (Operators.taken_eq_singleton hin)
      · exact .inr ⟨Operators.taken_eq_nil hout, hd⟩

/-- **Handles identify their collective in the runs without a section between a
call's own section and its return, and in no others.** -/
theorem handles_identify_iff (h : Run ls s) (hb : registrations ls ≤ 2 ^ 64) : Identify ls ↔ Undisturbed ls :=
  ⟨undisturbed_of_own h hb, identify_of_undisturbed h hb⟩

/-- Two calls one after the other, and a deregistration. -/
def inTurn : List (Label Nat) :=
  [.register 0 1 10, .returns 0 1 10 1, .register 1 2 20, .returns 1 2 20 2, .deregister 0 1 [(1, 10)]]

theorem handles_identify_iff_in_turn : ∃ s, Run inTurn s ∧ (Identify inTurn ↔ Undisturbed inTurn) := by
  have hrun : ∃ s : State Nat, Run inTurn s := by
    have h₁ := Runs.Trace.single (Step.register_new (s := State.initial) (t := 0) (c := (10 : Nat)) rfl rfl)
    have h₂ := h₁.snoc (.returns (t := 0) rfl)
    have h₃ := h₂.snoc (.register_new (t := 1) (c := 20) rfl rfl)
    have h₄ := h₃.snoc (.returns (t := 1) rfl)
    exact ⟨_, h₄.snoc (.deregister (t := 0) 1 rfl)⟩
  obtain ⟨s, hs⟩ := hrun
  exact ⟨s, hs, handles_identify_iff hs (by decide)⟩

/-- Two calls at once: the first returns the handle of the second. -/
theorem handles_mixed_up : ¬ ∀ (ls : List (Label Nat)) (s : State Nat), Run ls s → Identify ls := by
  intro h
  have hrun : ∃ s : State Nat, Run [.register 0 1 10, .register 1 2 20, .returns 0 1 10 2] s := by
    have h₁ := Runs.Trace.single (Step.register_new (s := State.initial) (t := 0) (c := (10 : Nat)) rfl rfl)
    have h₂ := h₁.snoc (.register_new (t := 1) (c := 20) rfl rfl)
    exact ⟨_, h₂.snoc (.returns (t := 0) rfl)⟩
  obtain ⟨s, hs⟩ := hrun
  exact absurd ((h _ s hs).own 0 1 10 2 (by simp)) (by decide)

end GaspiCxx.ProgressEngine
