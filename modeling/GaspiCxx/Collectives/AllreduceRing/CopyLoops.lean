import GaspiCxx.Collectives.AllreduceRing.Chunks

/-!
# The copy loops of the ring allreduce

Both loops make the same `passes` over the buffers: buffer `j` takes the
elements from `j * number_elements_padded` on, up to its own end or that of the
vector, and the first buffer that reaches the end of the vector is the last one
visited. So input and output element `t` are element `t % number_elements_padded`
of chunk `t / number_elements_padded`.

`passes64` is the control of the loops in `size_t`.
-/

namespace GaspiCxx.Collectives.AllreduceRing

open OneSided SingleSided

variable {n number_elements : Nat} {T : Type}

/-- One pass through the body of either loop. -/
structure Pass (n : Nat) where
  buffer : Fin n
  total_copied_elements : Nat
  elements_to_copy : Nat
  deriving DecidableEq, Repr

/-- The passes over the remaining buffers. -/
def passes (n number_elements : Nat) : List (Fin n) → Nat → List (Pass n)
  | [], _ => []
  | j :: js, total =>
    let elements := elements_to_copy n number_elements total
    ⟨j, total, elements⟩ ::
      if total + elements ≥ number_elements then [] else passes n number_elements js (total + elements)

/-- `std::copy` to the buffer. -/
def Pass.copyIn (r : Fin n) (inputs : Nat → T) (F : Net n number_elements T) (p : Pass n) :
    Net n number_elements T :=
  F.write (.chunk r p.buffer) fun e =>
    if e.val < p.elements_to_copy then inputs (p.total_copied_elements + e) else F.mem (.chunk r p.buffer) e

/-- `std::copy` from the buffer. -/
def Pass.copyOut (r : Fin n) (F : Net n number_elements T) (out : Nat → Option T) (p : Pass n) : Nat → Option T :=
  copyTo out p.total_copied_elements ((List.ofFn (F.mem (.chunk r p.buffer))).take p.elements_to_copy)

theorem copyInLoop_eq (r : Fin n) (inputs : Nat → T) (js : List (Fin n)) (total : Nat)
    (F : Net n number_elements T) :
    copyInLoop r inputs js total F = (passes n number_elements js total).foldl (Pass.copyIn r inputs) F := by
  induction js generalizing total F with
  | nil => rfl
  | cons j js ih =>
    rw [copyInLoop, passes, List.foldl_cons]
    split
    · rfl
    · exact ih _ _

theorem copyOutLoop_eq (r : Fin n) (F : Net n number_elements T) (js : List (Fin n)) (total : Nat)
    (out : Nat → Option T) :
    copyOutLoop r F js total out = (passes n number_elements js total).foldl (Pass.copyOut r F) out := by
  induction js generalizing total out with
  | nil => rfl
  | cons j js ih =>
    rw [copyOutLoop, passes, List.foldl_cons]
    split
    · rfl
    · exact ih _ _

/-! ## The passes -/

/-- The pass that fills chunk `j`. -/
def passOf (number_elements : Nat) (j : Fin n) : Pass n where
  buffer := j
  total_copied_elements := j * number_elements_padded n number_elements
  elements_to_copy := min (number_elements_padded n number_elements)
    (number_elements - j * number_elements_padded n number_elements)

theorem Remaining.le_of_mem {js : List (Fin n)} {i : Nat} (h : Remaining js i) {j : Fin n} (hj : j ∈ js) :
    i ≤ j := by
  obtain ⟨p, hp⟩ := List.mem_iff_get.mp hj
  have := h.get p p.isLt
  rw [hp] at this
  omega

theorem elements_to_copy_eq {total : Nat} (ht : total < number_elements) :
    elements_to_copy n number_elements total =
      min (number_elements_padded n number_elements) (number_elements - total) := by
  simp only [elements_to_copy]
  split <;> omega

/-- The loops visit the buffers whose chunk begins inside the vector. -/
theorem passes_eq (js : List (Fin n)) (i : Nat) (hjs : Remaining js i)
    (hi : i * number_elements_padded n number_elements < number_elements) :
    passes n number_elements js (i * number_elements_padded n number_elements) =
      (js.filter fun j : Fin n => j * number_elements_padded n number_elements < number_elements).map
        (passOf number_elements) := by
  induction js generalizing i with
  | nil => rfl
  | cons j js ih =>
    obtain rfl : j.val = i := hjs.head
    have hstep : (j.val + 1) * number_elements_padded n number_elements =
        j * number_elements_padded n number_elements + number_elements_padded n number_elements := Nat.succ_mul ..
    have helems := elements_to_copy_eq (n := n) hi
    rw [passes, List.filter_cons_of_pos (by simpa using hi), List.map_cons]
    congr 1
    · rw [helems]; rfl
    · split
      · next hend =>
        -- no later chunk begins inside the vector
        have hnone : js.filter (fun k : Fin n => k * number_elements_padded n number_elements < number_elements) =
            [] := by
          rw [List.filter_eq_nil_iff]
          intro k hk
          have hle := Nat.mul_le_mul_right (number_elements_padded n number_elements) (hjs.tail.le_of_mem hk)
          rw [decide_eq_true_eq]
          omega
        rw [hnone, List.map_nil]
      · have hnext : j * number_elements_padded n number_elements +
            elements_to_copy n number_elements (j * number_elements_padded n number_elements) =
              (j.val + 1) * number_elements_padded n number_elements := by omega
        rw [hnext]
        exact ih (j.val + 1) hjs.tail (by omega)

/-- The passes of the whole loops. -/
theorem passes_buffers (hn : 2 ≤ n) (hN : 1 ≤ number_elements) :
    passes n number_elements (buffers n number_elements) 0 =
      ((List.finRange n).filter fun j : Fin n => j * number_elements_padded n number_elements < number_elements).map
        (passOf number_elements) := by
  have hzero : 0 * number_elements_padded n number_elements < number_elements := by omega
  have hall := passes_eq (List.finRange n) 0 remaining_finRange hzero
  rw [Nat.zero_mul] at hall
  rw [buffers, if_pos ⟨hN, hn⟩, hall]

theorem mem_passes (hn : 2 ≤ n) (hN : 1 ≤ number_elements) {p : Pass n} :
    p ∈ passes n number_elements (buffers n number_elements) 0 ↔
      ∃ j : Fin n, j * number_elements_padded n number_elements < number_elements ∧
        p = passOf number_elements j := by
  rw [passes_buffers hn hN]
  simp [eq_comm]

theorem nodup_passes (hn : 2 ≤ n) (hN : 1 ≤ number_elements) :
    ((passes n number_elements (buffers n number_elements) 0).map Pass.buffer).Nodup := by
  rw [passes_buffers hn hN, List.map_map]
  have hid : Pass.buffer ∘ passOf (n := n) number_elements = id := rfl
  rw [hid, List.map_id]
  exact (List.nodup_finRange n).filter _

/-! ## What is copied -/

section

variable {r : Fin n} {inputs : Nat → T} {ps : List (Pass n)}

theorem Pass.copyIn_mem_self (F : Net n number_elements T) (p : Pass n)
    (e : Fin (number_elements_padded n number_elements)) :
    (Pass.copyIn r inputs F p).mem (.chunk r p.buffer) e =
      if e.val < p.elements_to_copy then inputs (p.total_copied_elements + e) else F.mem (.chunk r p.buffer) e :=
  congrFun (Function.update_self (Loc.chunk r p.buffer) _ F.mem) e

theorem Pass.copyIn_mem_of_ne {l : Loc n} {p : Pass n} (h : l ≠ .chunk r p.buffer) (F : Net n number_elements T) :
    (Pass.copyIn r inputs F p).mem l = F.mem l :=
  Function.update_of_ne h ..

theorem foldl_copyIn_mem_of_ne {l : Loc n} (h : ∀ p ∈ ps, l ≠ .chunk r p.buffer) (F : Net n number_elements T) :
    (ps.foldl (Pass.copyIn r inputs) F).mem l = F.mem l := by
  induction ps generalizing F with
  | nil => rfl
  | cons p ps ih =>
    rw [List.foldl_cons, ih fun q hq => h q (List.mem_cons_of_mem p hq)]
    exact Pass.copyIn_mem_of_ne (h p List.mem_cons_self) F

/-- A buffer is written in its own pass only. -/
theorem foldl_copyIn_mem {p : Pass n} (hp : p ∈ ps) (hnd : (ps.map Pass.buffer).Nodup) (F : Net n number_elements T)
    (e : Fin (number_elements_padded n number_elements)) :
    (ps.foldl (Pass.copyIn r inputs) F).mem (.chunk r p.buffer) e =
      if e.val < p.elements_to_copy then inputs (p.total_copied_elements + e) else F.mem (.chunk r p.buffer) e := by
  induction ps generalizing F with
  | nil => cases hp
  | cons q ps ih =>
    rw [List.map_cons, List.nodup_cons] at hnd
    rw [List.foldl_cons]
    rcases List.mem_cons.mp hp with rfl | hp
    · have hother : ∀ q ∈ ps, Loc.chunk r p.buffer ≠ Loc.chunk r q.buffer := by
        intro q hq he
        apply hnd.1
        rw [(Loc.chunk.inj he).2]
        exact List.mem_map_of_mem hq
      rw [foldl_copyIn_mem_of_ne hother, Pass.copyIn_mem_self]
    · have hne : Loc.chunk r p.buffer ≠ Loc.chunk r q.buffer := by
        intro he
        apply hnd.1
        rw [← (Loc.chunk.inj he).2]
        exact List.mem_map_of_mem hp
      rw [ih hp hnd.2, Pass.copyIn_mem_of_ne hne]

theorem foldl_copyIn_network (F : Net n number_elements T) :
    (ps.foldl (Pass.copyIn r inputs) F).slot = F.slot ∧ (ps.foldl (Pass.copyIn r inputs) F).flight = F.flight := by
  induction ps generalizing F with
  | nil => exact ⟨rfl, rfl⟩
  | cons p ps ih => exact ih (Pass.copyIn r inputs F p)

end

variable (hn : 2 ≤ n) (hN : 1 ≤ number_elements) (r : Fin n) (inputs : Nat → T) (f : Fields n T)
  (F : Net n number_elements T)

include hn in
theorem copyInImpl_eq : copyInImpl r inputs f F =
    (f, (passes n number_elements (buffers n number_elements) 0).foldl (Pass.copyIn r inputs) F) := by
  rw [copyInImpl, if_neg (by omega), copyInLoop_eq]

include hn hN in
theorem copyInImpl_mem (j : Fin n) (e : Fin (number_elements_padded n number_elements)) :
    (copyInImpl r inputs f F).2.mem (.chunk r j) e =
      if element n number_elements j e < number_elements then inputs (element n number_elements j e)
      else F.mem (.chunk r j) e := by
  have he := e.isLt
  rw [copyInImpl_eq hn]
  by_cases hj : j * number_elements_padded n number_elements < number_elements
  · have hp := (mem_passes hn hN).mpr ⟨j, hj, rfl⟩
    refine (foldl_copyIn_mem hp (nodup_passes hn hN) F e).trans ?_
    simp only [passOf, element]
    exact if_congr (by omega) rfl rfl
  · rw [foldl_copyIn_mem_of_ne, if_neg (by simp only [element]; omega)]
    intro p hp hloc
    obtain ⟨k, hk, rfl⟩ := (mem_passes hn hN).mp hp
    obtain rfl : j = k := (Loc.chunk.inj hloc).2
    exact hj hk

include hn hN in
/-- Output element `t` is read from where input element `t` is stored. -/
theorem copyOutImpl_eq {g : Nat → Option T}
    (hg : ∀ j e, element n number_elements j e < number_elements →
      some (F.mem (.chunk r j) e) = g (element n number_elements j e))
    (hnone : ∀ t, number_elements ≤ t → g t = none) : copyOutImpl r f F = g := by
  have hloop := copyOutLoop_spec (r := r) (F := F) hg (List.finRange n) 0 (fun _ => none) remaining_finRange
    (by omega) fun t ht => (hnone t (by omega)).symm
  rw [Nat.zero_mul] at hloop
  rw [copyOutImpl, if_neg (by omega), buffers, if_pos ⟨hN, hn⟩, hloop]

/-- The elements of rank `r`'s chunks, each from its place. -/
def fetched (hn : 0 < n) (t : Nat) : Option T :=
  if ht : t < number_elements then some (F.mem (.chunk r ⟨_, (place_lt hn ht).1⟩) ⟨_, (place_lt hn ht).2⟩)
  else none

include hN in
theorem copyOutImpl_fetched : copyOutImpl r f F = fetched r F (show 0 < n by omega) := by
  refine copyOutImpl_eq hn hN r f F (fun j e hje => ?_) fun t ht => dif_neg (by omega)
  obtain ⟨hj, he⟩ := place_lt (n := n) (by omega) hje
  have hsame : element n number_elements ⟨_, hj⟩ ⟨_, he⟩ = element n number_elements j e := Nat.div_add_mod' ..
  obtain ⟨h1, h2⟩ := element_inj hsame
  rw [fetched, dif_pos hje, h1, h2]

/-! ## The loops in `size_t` -/

/-- `buffer->description().size()/sizeof(T)`, where the constructor has computed
the size from `ceil_div(number_elements, number_ranks)`. -/
def buffer_elements64 (n number_elements sizeof_T : Nat) : Nat :=
  let number_elements_padded := (number_elements + n - 1) % 2 ^ 64 / n
  let size_padded := sizeof_T * number_elements_padded % 2 ^ 64
  size_padded / sizeof_T

def passes64 (n number_elements sizeof_T : Nat) : List (Fin n) → Nat → List (Pass n)
  | [], _ => []
  | j :: js, total =>
    let elements := buffer_elements64 n number_elements sizeof_T
    let elements :=
      if (total + elements) % 2 ^ 64 > number_elements then (number_elements + 2 ^ 64 - total) % 2 ^ 64 else elements
    let total_copied_elements := (total + elements) % 2 ^ 64
    ⟨j, total, elements⟩ ::
      if total_copied_elements ≥ number_elements then []
      else passes64 n number_elements sizeof_T js total_copied_elements

theorem padded_le (n N : Nat) : n * number_elements_padded n N ≤ N + n - 1 :=
  Nat.mul_div_le (N + n - 1) n

theorem buffer_elements64_eq {sizeof_T : Nat} (hn : 0 < n) (hT : 0 < sizeof_T)
    (hfit : number_elements + n ≤ 2 ^ 64) (hbytes : sizeof_T * number_elements < 2 ^ 64) :
    buffer_elements64 n number_elements sizeof_T = number_elements_padded n number_elements := by
  have hle : number_elements_padded n number_elements ≤ number_elements := by
    have hmul := Nat.le_mul_of_pos_left number_elements hn
    rw [number_elements_padded, ceil_div, Nat.div_le_iff_le_mul_add_pred hn]
    omega
  have hbytes' : sizeof_T * number_elements_padded n number_elements < 2 ^ 64 :=
    (Nat.mul_le_mul_left sizeof_T hle).trans_lt hbytes
  simp only [buffer_elements64]
  rw [Nat.mod_eq_of_lt (show number_elements + n - 1 < 2 ^ 64 by omega)]
  show sizeof_T * number_elements_padded n number_elements % 2 ^ 64 / sizeof_T = _
  rw [Nat.mod_eq_of_lt hbytes', Nat.mul_div_cancel_left _ hT]

/-- For a vector that fits the address space nothing wraps around. -/
theorem passes64_eq {sizeof_T : Nat} (hn : 0 < n) (hT : 0 < sizeof_T)
    (hfit : number_elements + n ≤ 2 ^ 64) (hbytes : sizeof_T * number_elements < 2 ^ 64) (js : List (Fin n))
    (i : Nat) (hjs : Remaining js i) (hi : i * number_elements_padded n number_elements < number_elements) :
    passes64 n number_elements sizeof_T js (i * number_elements_padded n number_elements) =
      passes n number_elements js (i * number_elements_padded n number_elements) := by
  induction js generalizing i with
  | nil => rfl
  | cons j js ih =>
    obtain rfl : j.val = i := hjs.head
    have hstep : (j.val + 1) * number_elements_padded n number_elements =
        j * number_elements_padded n number_elements + number_elements_padded n number_elements := Nat.succ_mul ..
    have hlast : (j.val + 1) * number_elements_padded n number_elements ≤
        n * number_elements_padded n number_elements := Nat.mul_le_mul_right _ j.isLt
    rw [hstep] at hlast
    have hpad := padded_le n number_elements
    have helems := elements_to_copy_eq (n := n) hi
    have hnext := ih (j.val + 1) hjs.tail
    rw [hstep] at hnext
    simp only [passes64, passes, buffer_elements64_eq hn hT hfit hbytes, helems]
    generalize j * number_elements_padded n number_elements = total at *
    generalize number_elements_padded n number_elements = elements at *
    have hwrap : (total + elements) % 2 ^ 64 = total + elements := Nat.mod_eq_of_lt (by omega)
    rw [hwrap]
    by_cases hend : total + elements > number_elements
    · have hsub : (number_elements + 2 ^ 64 - total) % 2 ^ 64 = number_elements - total := by
        rw [show number_elements + 2 ^ 64 - total = number_elements - total + 2 ^ 64 by omega, Nat.add_mod_right]
        exact Nat.mod_eq_of_lt (by omega)
      have hmin : min elements (number_elements - total) = number_elements - total := by omega
      have htotal : total + (number_elements - total) = number_elements := by omega
      rw [if_pos hend, hsub, hmin, htotal, Nat.mod_eq_of_lt (by omega), if_pos (Nat.le_refl _), if_pos (Nat.le_refl _)]
    · have hmin : min elements (number_elements - total) = elements := by omega
      rw [if_neg hend, hmin, hwrap]
      congr 1
      split
      · rfl
      · exact hnext (by omega)

/-! ## Result -/

/-- What `copyInImpl` and `copyOutImpl` do to the chunks of rank `r`. -/
structure Chunked : Prop where
  length : number_elements_padded n number_elements = number_elements ⌈/⌉ n
  stored : ∀ t < number_elements, ∃ (hj : t / number_elements_padded n number_elements < n)
    (he : t % number_elements_padded n number_elements < number_elements_padded n number_elements),
    (copyInImpl r inputs f F).2.mem (.chunk r ⟨_, hj⟩) ⟨_, he⟩ = inputs t
  /-- The padding of the last used chunk, and the unused chunks. -/
  padding : ∀ j e, number_elements ≤ element n number_elements j e →
    (copyInImpl r inputs f F).2.mem (.chunk r j) e = F.mem (.chunk r j) e
  others : ∀ l, (∀ j, l ≠ .chunk r j) → (copyInImpl r inputs f F).2.mem l = F.mem l
  network : (copyInImpl r inputs f F).1 = f ∧ (copyInImpl r inputs f F).2.slot = F.slot ∧
    (copyInImpl r inputs f F).2.flight = F.flight
  read : ∀ t < number_elements, ∃ (hj : t / number_elements_padded n number_elements < n)
    (he : t % number_elements_padded n number_elements < number_elements_padded n number_elements),
    copyOutImpl r f F t = some (F.mem (.chunk r ⟨_, hj⟩) ⟨_, he⟩)
  unwritten : ∀ t, number_elements ≤ t → copyOutImpl r f F t = none
  in_passes : (copyInImpl r inputs f F).2 =
    (passes n number_elements (buffers n number_elements) 0).foldl (Pass.copyIn r inputs) F
  out_passes : copyOutImpl r f F =
    (passes n number_elements (buffers n number_elements) 0).foldl (Pass.copyOut r F) fun _ => none
  /-- The subtraction does not underflow, and a buffer holds what it gets. -/
  bounded : ∀ p ∈ passes n number_elements (buffers n number_elements) 0,
    p.total_copied_elements < number_elements ∧
      p.elements_to_copy ≤ number_elements_padded n number_elements ∧
      p.total_copied_elements + p.elements_to_copy ≤ number_elements
  size_t : ∀ sizeof_T, 0 < sizeof_T → number_elements + n ≤ 2 ^ 64 → sizeof_T * number_elements < 2 ^ 64 →
    passes64 n number_elements sizeof_T (buffers n number_elements) 0 =
      passes n number_elements (buffers n number_elements) 0
  identity : copyOutImpl r (copyInImpl r inputs f F).1 (copyInImpl r inputs f F).2 =
    fun t => if t < number_elements then some (inputs t) else none

/-- **The ring allreduce cuts a vector into chunks and puts it together again.** -/
theorem copy_loops_chunked (hn : 2 ≤ n) (hN : 1 ≤ number_elements) : Chunked r inputs f F := by
  have hcopyIn := copyInImpl_mem hn hN r inputs f F
  refine ⟨?_, fun t ht => ?_, fun j e hje => ?_, fun l hl => ?_, ?_, fun t ht => ?_, fun t ht => ?_, ?_, ?_,
    fun p hp => ?_, fun sizeof_T hT hfit hbytes => ?_, ?_⟩
  · rw [Nat.ceilDiv_eq_add_pred_div]; rfl
  · obtain ⟨hj, he⟩ := place_lt (n := n) (by omega) ht
    refine ⟨hj, he, ?_⟩
    have hel : element n number_elements ⟨_, hj⟩ ⟨_, he⟩ = t := Nat.div_add_mod' ..
    rw [hcopyIn, hel, if_pos ht]
  · rw [hcopyIn, if_neg (by omega)]
  · rw [copyInImpl_eq hn]
    exact foldl_copyIn_mem_of_ne (fun p _ => hl p.buffer) F
  · rw [copyInImpl_eq hn]
    exact ⟨rfl, foldl_copyIn_network F⟩
  · obtain ⟨hj, he⟩ := place_lt (n := n) (by omega) ht
    exact ⟨hj, he, by rw [copyOutImpl_fetched hn hN, fetched, dif_pos ht]⟩
  · rw [copyOutImpl_fetched hn hN, fetched, dif_neg (by omega)]
  · rw [copyInImpl_eq hn]
  · rw [copyOutImpl, if_neg (by omega), copyOutLoop_eq]
  · obtain ⟨j, hj, rfl⟩ := (mem_passes hn hN).mp hp
    simp only [passOf]
    omega
  · have hall := passes64_eq (n := n) (by omega) hT hfit hbytes (List.finRange n) 0 remaining_finRange (by omega)
    rw [Nat.zero_mul] at hall
    rw [buffers, if_pos ⟨hN, hn⟩, hall]
  · refine copyOutImpl_eq hn hN r _ _ (fun j e hje => ?_) fun t ht => if_neg (by omega)
    rw [hcopyIn, if_pos hje, if_pos hje]

/-- Five elements on four ranks: the last of the four buffers is unused. -/
theorem copy_loops_chunked_unused :
    2 ≤ 4 ∧ 1 ≤ 5 ∧ (passes 4 5 (buffers 4 5) 0).map Pass.elements_to_copy = [2, 2, 1] ∧
      Chunked (0 : Fin 4) (id : Nat → Nat) ⟨0, 0, []⟩ (Fabric.quiet fun _ _ => 0 : Net 4 5 Nat) :=
  ⟨by decide, by decide, by decide, copy_loops_chunked _ _ _ _ (by decide) (by decide)⟩

end GaspiCxx.Collectives.AllreduceRing
