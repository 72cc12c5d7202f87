import GaspiCxx.Collectives.AllreduceRing.Schedule

/-!
# Cutting a vector into chunks

`copyInImpl` and `copyOutImpl` walk over the buffers until `number_elements`
elements are copied: the last buffer may be padded and further buffers unused.
Element `e` of chunk `j` stands for element `j * number_elements_padded + e` of
the user's vector, if there is one.
-/

namespace GaspiCxx.Collectives.AllreduceRing

open OneSided SingleSided GroupUtilities

variable {n number_elements : Nat} {T : Type}

variable (n number_elements) in
/-- The index in the user's vector of element `e` of chunk `j`. -/
def element (j : Fin n) (e : Fin (number_elements_padded n number_elements)) : Nat :=
  j * number_elements_padded n number_elements + e

theorem le_padded (hn : 0 < n) (N : Nat) : N ≤ n * number_elements_padded n N := by
  have h1 := Nat.div_add_mod (N + n - 1) n
  have h2 := Nat.mod_lt (N + n - 1) hn
  simp only [number_elements_padded, ceil_div]
  omega

theorem element_div (j : Fin n) (e : Fin (number_elements_padded n number_elements)) :
    element n number_elements j e / number_elements_padded n number_elements = j := by
  have := e.isLt
  rw [element, Nat.add_comm, Nat.add_mul_div_right _ _ (by omega), Nat.div_eq_of_lt e.isLt, Nat.zero_add]

theorem element_inj {j k : Fin n} {e d : Fin (number_elements_padded n number_elements)}
    (h : element n number_elements j e = element n number_elements k d) : j = k ∧ e = d := by
  have hj : j.val = k.val := by rw [← element_div j e, h, element_div]
  refine ⟨Fin.ext hj, Fin.ext ?_⟩
  simp only [element, hj] at h
  omega

theorem padded_pos (hn : 0 < n) (hN : 1 ≤ number_elements) : 0 < number_elements_padded n number_elements := by
  have hle := le_padded hn number_elements
  rcases Nat.eq_zero_or_pos (number_elements_padded n number_elements) with h0 | h0
  · rw [h0] at hle; omega
  · exact h0

/-- The place of element `t` of the vector. -/
theorem place_lt {t : Nat} (hn : 0 < n) (ht : t < number_elements) :
    t / number_elements_padded n number_elements < n ∧
      t % number_elements_padded n number_elements < number_elements_padded n number_elements := by
  have hpos := padded_pos hn (show 1 ≤ number_elements by omega)
  have hle := le_padded hn number_elements
  exact ⟨(Nat.div_lt_iff_lt_mul hpos).mpr (by omega), Nat.mod_lt _ hpos⟩

/-- Every index of the vector is in a chunk. -/
theorem exists_element {t : Nat} (ht : t < number_elements) (hn : 0 < n) :
    ∃ j e, element n number_elements j e = t := by
  obtain ⟨hj, he⟩ := place_lt hn ht
  exact ⟨⟨_, hj⟩, ⟨_, he⟩, Nat.div_add_mod' ..⟩

/-! ## The copy loops -/

/-- The loops have buffers `js` to go, from buffer `i` on. -/
structure Remaining (js : List (Fin n)) (i : Nat) : Prop where
  get : ∀ p (hp : p < js.length), (js.get ⟨p, hp⟩).val = i + p
  length : i + js.length = n

theorem remaining_finRange : Remaining (List.finRange n) 0 :=
  ⟨fun p hp => by simp, by simp⟩

theorem Remaining.head {j : Fin n} {js : List (Fin n)} {i : Nat} (h : Remaining (j :: js) i) :
    j.val = i := h.get 0 (Nat.zero_lt_succ _)

theorem Remaining.tail {j : Fin n} {js : List (Fin n)} {i : Nat} (h : Remaining (j :: js) i) :
    Remaining js (i + 1) where
  get p hp := by
    have := h.get (p + 1) (Nat.succ_lt_succ hp)
    simp only [List.get_cons_succ] at this
    omega
  length := by have := h.length; simp only [List.length_cons] at this; omega

/-- A buffer's share of the vector, from index `total` on. -/
theorem elements_cases {total : Nat} (ht : total < number_elements) :
    (number_elements ≤ total + elements_to_copy n number_elements total ∧
      total + elements_to_copy n number_elements total = number_elements ∧
      elements_to_copy n number_elements total ≤ number_elements_padded n number_elements) ∨
    (total + elements_to_copy n number_elements total < number_elements ∧
      elements_to_copy n number_elements total = number_elements_padded n number_elements) := by
  simp only [elements_to_copy]
  split <;> omega

theorem copyInLoop_spec {Good : Port n → Nat → Chunk n number_elements T → Prop}
    {sent taken : Port n → Nat} {r : Fin n} (inputs : Nat → T) :
    ∀ (js : List (Fin n)) (i : Nat) (F : Net n number_elements T)
      (I : Channels (Port n) (Loc n) (Chunk n number_elements T)), Remaining js i →
    i * number_elements_padded n number_elements < number_elements →
    Tracks (wiring n) Good F I sent taken →
    (∀ j q, (wiring n).carries q = true → taken q < sent q → (wiring n).loc q ≠ .chunk r j) →
    (∀ j q, (wiring n).carries q = true → F.flight q ≠ [] →
      (wiring n).loc ((wiring n).peer q) ≠ .chunk r j) →
    ∃ I', Tracks (wiring n) Good
        (copyInLoop r inputs js (i * number_elements_padded n number_elements) F) I' sent taken ∧
      (∀ l, (∀ j, l ≠ .chunk r j) → I'.mem l = I.mem l) ∧
      (∀ j : Fin n, j.val < i → I'.mem (.chunk r j) = I.mem (.chunk r j)) ∧
      ∀ (j : Fin n) e, i ≤ j.val → element n number_elements j e < number_elements →
        I'.mem (.chunk r j) e = inputs (element n number_elements j e) := by
  intro js
  induction js with
  | nil =>
    intro i F I hjs _ ht _ _
    have := hjs.length
    refine ⟨I, ht, fun _ _ => rfl, fun _ _ => rfl, fun j _ hj => ?_⟩
    have := j.isLt
    simp only [List.length_nil] at *
    omega
  | cons k js ih =>
    intro i F I hjs htot ht hdst hsrc
    obtain rfl : k.val = i := hjs.head
    let v : Chunk n number_elements T := fun e =>
      if e.val < elements_to_copy n number_elements (k * number_elements_padded n number_elements)
      then inputs (k * number_elements_padded n number_elements + e) else F.mem (.chunk r k) e
    have hw := ht.write (l := .chunk r k) v (hdst k) (hsrc k)
    have hself : (I.write (.chunk r k) v).mem (.chunk r k) = v := by simp [Channels.write]
    have hother : ∀ l, l ≠ .chunk r k → (I.write (.chunk r k) v).mem l = I.mem l := by
      intro l hl; simp [Channels.write, hl]
    have hv : ∀ e, element n number_elements k e < number_elements →
        v e = inputs (element n number_elements k e) := by
      intro e he
      have := e.isLt
      simp only [element] at he
      apply if_pos
      rcases elements_cases (n := n) htot with ⟨-, h1, -⟩ | ⟨-, h1⟩ <;> omega
    have hstep := Nat.succ_mul k.val (number_elements_padded n number_elements)
    rcases elements_cases (n := n) htot with ⟨hge, -, hle⟩ | ⟨hlt, heq⟩
    · -- the vector is exhausted
      have hloop : copyInLoop r inputs (k :: js) (k * number_elements_padded n number_elements) F =
          F.write (.chunk r k) v := by
        simp only [copyInLoop, v]
        rw [if_pos hge]
      rw [hloop]
      refine ⟨_, hw, fun l hl => hother l (hl k), fun j hj => hother _ ?_, fun j e hj he => ?_⟩
      · simp only [ne_eq, Loc.chunk.injEq, true_and]
        rintro rfl
        omega
      · by_cases hjk : j = k
        · subst hjk; rw [hself]; exact hv e he
        · have h1 : k.val + 1 ≤ j.val := by
            have : j.val ≠ k.val := fun h => hjk (Fin.ext h)
            omega
          have h2 := Nat.mul_le_mul_right (number_elements_padded n number_elements) h1
          simp only [element, Nat.succ_eq_add_one] at he hstep
          omega
    · have hloop : copyInLoop r inputs (k :: js) (k * number_elements_padded n number_elements) F =
          copyInLoop r inputs js ((k + 1) * number_elements_padded n number_elements)
            (F.write (.chunk r k) v) := by
        simp only [copyInLoop, v]
        rw [if_neg (by omega), heq, ← hstep]
      rw [hloop]
      obtain ⟨I', h1, h2, h3, h4⟩ := ih (k + 1) (F.write (.chunk r k) v) (I.write (.chunk r k) v)
        hjs.tail (by rw [← Nat.succ_eq_add_one, hstep]; omega) hw hdst hsrc
      refine ⟨I', h1, fun l hl => (h2 l hl).trans (hother l (hl k)), fun j hj => ?_, fun j e hj he => ?_⟩
      · rw [h3 j (by omega)]
        apply hother _
        simp only [ne_eq, Loc.chunk.injEq, true_and]
        rintro rfl
        omega
      · by_cases hjk : j = k
        · subst hjk; rw [h3 j (by omega), hself]; exact hv e he
        · refine h4 j e ?_ he
          have : j.val ≠ k.val := fun h => hjk (Fin.ext h)
          omega

theorem copyOutLoop_spec {r : Fin n} {F : Net n number_elements T} {g : Nat → Option T}
    (hF : ∀ j e, element n number_elements j e < number_elements →
      some (F.mem (.chunk r j) e) = g (element n number_elements j e)) :
    ∀ (js : List (Fin n)) (i : Nat) (out : Nat → Option T), Remaining js i →
    i * number_elements_padded n number_elements < number_elements →
    (∀ t, t < i * number_elements_padded n number_elements ∨ number_elements ≤ t → out t = g t) →
    copyOutLoop r F js (i * number_elements_padded n number_elements) out = g := by
  intro js
  induction js with
  | nil =>
    intro i out hjs htot _
    obtain rfl : i = n := by have := hjs.length; simpa using this
    have h0 : 0 < i := by
      rcases Nat.eq_zero_or_pos i with rfl | h0
      · exact r.elim0
      · exact h0
    have := le_padded h0 number_elements
    omega
  | cons k js ih =>
    intro i out hjs htot hout
    obtain rfl : k.val = i := hjs.head
    have hstep := Nat.succ_mul k.val (number_elements_padded n number_elements)
    obtain ⟨total, hT⟩ : ∃ total, k.val * number_elements_padded n number_elements = total := ⟨_, rfl⟩
    rw [hT] at htot hout hstep ⊢
    let out' := copyTo out total
      ((List.ofFn (F.mem (.chunk r k))).take (elements_to_copy n number_elements total))
    have hle : elements_to_copy n number_elements total ≤ number_elements_padded n number_elements := by
      rcases elements_cases (n := n) htot with ⟨-, -, h⟩ | ⟨-, h⟩ <;> omega
    have hlen : ((List.ofFn (F.mem (.chunk r k))).take (elements_to_copy n number_elements total)).length =
        elements_to_copy n number_elements total := by
      rw [List.length_take, List.length_ofFn]; omega
    have hout' : ∀ t, t < total + elements_to_copy n number_elements total ∨ number_elements ≤ t →
        out' t = g t := by
      intro t ht
      simp only [out', copyTo, hlen]
      split
      · next hr =>
        -- element `t - total` of this chunk
        have hlt : t - total < number_elements_padded n number_elements := by omega
        have hel : element n number_elements k ⟨t - total, hlt⟩ = t := by
          show k.val * number_elements_padded n number_elements + (t - total) = t
          omega
        have hN : t < number_elements := by
          rcases elements_cases (n := n) htot with ⟨-, h, -⟩ | ⟨h, -⟩ <;> omega
        rw [List.getElem?_take_of_lt (by omega), List.getElem?_ofFn, dif_pos hlt, hF k _ (by rw [hel]; exact hN),
          hel]
      · next hr =>
        exact hout t (by omega)
    rcases elements_cases (n := n) htot with ⟨hge, -, -⟩ | ⟨hlt, heq⟩
    · have hloop : copyOutLoop r F (k :: js) total out = out' := by
        simp only [copyOutLoop, out']
        rw [if_pos hge]
      rw [hloop]
      funext t
      exact hout' t (by omega)
    · have hloop : copyOutLoop r F (k :: js) total out =
          copyOutLoop r F js ((k + 1) * number_elements_padded n number_elements) out' := by
        simp only [copyOutLoop, out']
        rw [if_neg (by omega), heq, ← hstep]
      rw [hloop]
      refine ih (k + 1) out' hjs.tail (by rw [← Nat.succ_eq_add_one, hstep]; omega) fun t ht => hout' t ?_
      rw [← Nat.succ_eq_add_one, hstep] at ht
      omega

end GaspiCxx.Collectives.AllreduceRing
