import Mathlib

/-!
# Parts of segments

The memory of a rank is its segments' bytes. A `Part` is a run of bytes of one
segment, as the offset and the size of a description name it. Parts with no byte
in common (`Part.Apart`) do not see each other's writes.

The members of a group call a collective together: a `Call` is what one such call
was given, as parts. `source p q` is what member `p` has for member `q`, and it
goes to `target q p`.
-/

namespace GaspiCxx.Collectives.Exchange

/-- The bytes of a rank, by segment id and offset. -/
abbrev Memory := Nat × Nat → UInt8

structure Part where
  segmentId : Nat
  offset : Nat
  size : Nat
  deriving DecidableEq, Repr

namespace Part

def Contains (P : Part) (x : Nat × Nat) : Prop :=
  x.1 = P.segmentId ∧ P.offset ≤ x.2 ∧ x.2 < P.offset + P.size

instance (P : Part) (x : Nat × Nat) : Decidable (P.Contains x) := by
  unfold Contains; infer_instance

/-- No byte in common. -/
def Apart (P Q : Part) : Prop := ∀ x, P.Contains x → ¬ Q.Contains x

variable {P Q : Part}

theorem Apart.symm (h : P.Apart Q) : Q.Apart P := fun x hq hp => h x hp hq

theorem contains_of_lt {j : Nat} (hj : j < P.size) : P.Contains (P.segmentId, P.offset + j) :=
  ⟨rfl, Nat.le_add_right .., Nat.add_lt_add_left hj _⟩

/-- One part ends before the other begins. -/
theorem apart_of_le (h : P.offset + P.size ≤ Q.offset) : P.Apart Q := by
  rintro x ⟨-, -, hp⟩ ⟨-, hq, -⟩
  omega

/-- `P` lies inside `Q`. -/
def Within (P Q : Part) : Prop :=
  P.segmentId = Q.segmentId ∧ Q.offset ≤ P.offset ∧ P.offset + P.size ≤ Q.offset + Q.size

theorem Within.refl (P : Part) : P.Within P := ⟨rfl, Nat.le_refl _, Nat.le_refl _⟩

theorem Within.contains (h : P.Within Q) {x : Nat × Nat} (hx : P.Contains x) : Q.Contains x := by
  obtain ⟨hs, hlo, hhi⟩ := h
  obtain ⟨hxs, hxlo, hxhi⟩ := hx
  exact ⟨hxs.trans hs, hlo.trans hxlo, by omega⟩

theorem Apart.mono {P' Q' : Part} (h : P'.Apart Q') (hp : P.Within P') (hq : Q.Within Q') : P.Apart Q :=
  fun x hx hx' => h x (hp.contains hx) (hq.contains hx')

end Part

namespace Memory

def read (M : Memory) (P : Part) : List UInt8 :=
  (List.range P.size).map fun j => M (P.segmentId, P.offset + j)

def write (M : Memory) (P : Part) (data : List UInt8) : Memory := fun x =>
  if P.Contains x then data.getD (x.2 - P.offset) 0 else M x

variable {M M' : Memory} {P Q : Part} {data : List UInt8}

@[simp] theorem read_length : (read M P).length = P.size := by simp [read]

theorem read_congr (h : ∀ x, P.Contains x → M x = M' x) : read M P = read M' P :=
  List.map_congr_left fun _ hj => h _ (Part.contains_of_lt (List.mem_range.mp hj))

/-- A part of size zero has nothing to read. -/
theorem read_of_size_zero (hP : P.size = 0) (hQ : Q.size = 0) : read M P = read M' Q := by
  simp [read, hP, hQ]

theorem read_getElem {j : Nat} (hj : j < (read M P).length) :
    (read M P)[j] = M (P.segmentId, P.offset + j) := by simp [read]

theorem read_write (hlen : data.length = P.size) : read (write M P data) P = data := by
  refine List.ext_getElem (by rw [read_length, hlen]) fun j hj hj' => ?_
  rw [read_getElem]
  unfold write
  rw [if_pos (Part.contains_of_lt (hlen ▸ hj')), Nat.add_sub_cancel_left, List.getD_eq_getElem?_getD,
    List.getElem?_eq_getElem hj', Option.getD_some]

/-- A write leaves every part alone that has no byte of it. -/
theorem read_write_apart (h : P.Apart Q) : read (write M P data) Q = read M Q := by
  refine read_congr fun x hx => ?_
  unfold write
  rw [if_neg fun hp => h x hp hx]

end Memory

/-- What the `n` members of a group passed to one collective call. -/
structure Call (n : Nat) where
  source : Fin n → Fin n → Part
  target : Fin n → Fin n → Part
  /-- What is sent is as long as what is expected. -/
  agree : ∀ p q, (source p q).size = (target q p).size
  targets : ∀ m i j, i ≠ j → (target m i).Apart (target m j)
  sources : ∀ m i j, (source m i).Apart (target m j)

end GaspiCxx.Collectives.Exchange
