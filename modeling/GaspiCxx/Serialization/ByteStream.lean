import Mathlib

/-!
# Byte streams

Input and output streams as byte lists with a `good` flag, and programs on them
that may throw. `Reads f bs x` is all a decoder has to do with an encoding:
given `bs` and more it takes exactly `bs` and returns `x`, given any part of
`bs` it throws. Encodings compose (`Reads.bind`), so a decoder built from
smaller ones needs no argument about where its input was cut.

`Writes` is the same for encoders; `leBytes` and `leNat` are little-endian
numbers of a fixed width, `insertNew` the insertion of an ordered container.
-/

namespace GaspiCxx.Bytes

/-- `std::istream`: what is still unread. -/
structure IStream where
  unread : List UInt8
  good : Bool
  deriving DecidableEq, Repr

/-- `std::ostream`: what has been written. -/
structure OStream where
  written : List UInt8
  good : Bool
  deriving DecidableEq, Repr

variable {ε α β : Type}

abbrev Decoder (ε α : Type) := StateT IStream (Except ε) α

abbrev Encoder (ε α : Type) := StateT OStream (Except ε) α

/-- `in.read (p, n)`: a short read leaves the stream bad, a bad stream reads nothing. -/
def read (n : Nat) : Decoder ε (List UInt8) := fun s =>
  if s.good then .ok (s.unread.take n, ⟨s.unread.drop n, n ≤ s.unread.length⟩) else .ok ([], s)

/-- `if (not in.good()) throw e`. -/
def checkIn (e : ε) : Decoder ε Unit := fun s => if s.good then .ok ((), s) else .error e

/-- `out.write (p, n)`. -/
def write (bs : List UInt8) : Encoder ε Unit := fun s =>
  if s.good then .ok ((), ⟨s.written ++ bs, true⟩) else .ok ((), s)

/-- `if (not out.good()) throw e`. -/
def checkOut (e : ε) : Encoder ε Unit := fun s => if s.good then .ok ((), s) else .error e

/-! ## Encoders -/

/-- On a good stream `m` appends `bs`. -/
def Writes (m : Encoder ε Unit) (bs : List UInt8) : Prop :=
  ∀ w, m ⟨w, true⟩ = .ok ((), ⟨w ++ bs, true⟩)

theorem writes_write (bs : List UInt8) : Writes (write bs : Encoder ε Unit) bs := fun _ => rfl

theorem writes_checkOut (e : ε) : Writes (checkOut e) [] := fun w => by
  unfold checkOut
  rw [if_pos rfl, List.append_nil]

theorem Writes.bind {m m' : Encoder ε Unit} {bs cs : List UInt8} (h : Writes m bs) (h' : Writes m' cs) :
    Writes (do m; m') (bs ++ cs) := by
  intro w
  have hb : (do m; m' : Encoder ε Unit) ⟨w, true⟩ = (m ⟨w, true⟩ >>= fun p => m' p.2) := rfl
  rw [hb, h w, ← List.append_assoc]
  exact h' (w ++ bs)

/-- An encoder that ends in a check. -/
theorem Writes.checked {m : Encoder ε Unit} {bs : List UInt8} (e : ε) (h : Writes m bs) :
    Writes (do m; checkOut e) bs := by
  simpa using h.bind (writes_checkOut e)

theorem Writes.forM {f : α → Encoder ε Unit} {enc : α → List UInt8} (xs : List α)
    (h : ∀ x ∈ xs, Writes (f x) (enc x)) : Writes (xs.forM f) (xs.flatMap enc) := by
  induction xs with
  | nil => intro w; simp only [List.flatMap_nil, List.append_nil]; rfl
  | cons x xs ih =>
    rw [List.flatMap_cons]
    exact (h x List.mem_cons_self).bind (ih fun y hy => h y (List.mem_cons_of_mem _ hy))

/-! ## Decoders -/

structure Reads (f : Decoder ε α) (bs : List UInt8) (x : α) : Prop where
  full : ∀ rest, f ⟨bs ++ rest, true⟩ = .ok (x, ⟨rest, true⟩)
  short : ∀ p q, bs = p ++ q → q ≠ [] → ∃ e, f ⟨p, true⟩ = .error e

theorem Reads.pure (x : α) : Reads (pure x : Decoder ε α) [] x where
  full _ := rfl
  short _ _ h hq := absurd (List.append_eq_nil_iff.mp h.symm).2 hq

theorem reads_checkIn (e : ε) : Reads (checkIn e) [] () where
  full _ := rfl
  short _ _ h hq := absurd (List.append_eq_nil_iff.mp h.symm).2 hq

theorem bind_run (f : Decoder ε α) (g : α → Decoder ε β) (s : IStream) :
    (f >>= g) s = (f s >>= fun p => g p.1 p.2) := rfl

/-- The cut is in the first part, which throws, or in the second one. -/
theorem Reads.bind {f : Decoder ε α} {g : α → Decoder ε β} {bs cs : List UInt8} {x : α} {y : β}
    (h : Reads f bs x) (h' : Reads (g x) cs y) : Reads (f >>= g) (bs ++ cs) y where
  full rest := by
    rw [bind_run, List.append_assoc, h.full]
    exact h'.full rest
  short p q hpq hq := by
    obtain ⟨a, rfl, rfl⟩ | ⟨a, rfl, rfl⟩ := List.append_eq_append_iff.mp hpq
    · -- `bs` is whole, the cut is in `cs`
      obtain ⟨e, he⟩ := h'.short a q rfl hq
      refine ⟨e, ?_⟩
      rw [bind_run, h.full]
      exact he
    · -- the cut is in `bs`, unless nothing of it is missing
      by_cases ha : a = []
      · subst ha
        obtain ⟨e, he⟩ := h'.short [] cs rfl (by simpa using hq)
        refine ⟨e, ?_⟩
        have hfull := h.full []
        simp only [List.append_nil] at hfull
        rw [bind_run, hfull]
        exact he
      · obtain ⟨e, he⟩ := h.short p a rfl ha
        refine ⟨e, ?_⟩
        rw [bind_run, he]
        rfl

/-- A decoder that ends in a check. -/
theorem Reads.checked {f : Decoder ε α} {bs : List UInt8} {x : α} (e : ε) (h : Reads f bs x) :
    Reads (do let a ← f; checkIn e; Pure.pure a) bs x := by
  have hc : Reads (do checkIn e; Pure.pure x) ([] ++ []) x := (reads_checkIn e).bind (Reads.pure x)
  simpa using h.bind (g := fun a => do checkIn e; Pure.pure a) hc

/-- A block read with its check: the only place where a short input is noticed. -/
theorem reads_read (e : ε) (bs : List UInt8) {n : Nat} (hn : n = bs.length) :
    Reads (do let a ← read n; checkIn e; Pure.pure a) bs bs where
  full rest := by
    subst hn
    rw [bind_run]
    unfold read
    rw [if_pos rfl]
    simp [checkIn, Bind.bind, StateT.bind, Except.bind, Pure.pure, StateT.pure, Except.pure]
  short p q hpq hq := by
    refine ⟨e, ?_⟩
    have hlt : ¬ n ≤ p.length := by
      have hlen := congrArg List.length hpq
      rw [List.length_append] at hlen
      have := List.length_pos_iff.mpr hq
      omega
    rw [bind_run]
    unfold read
    rw [if_pos rfl]
    simp [checkIn, Bind.bind, StateT.bind, Except.bind, hlt]

theorem Reads.mapM {f : α → Decoder ε β} {enc : β → List UInt8} (ds : List α) (xs : List β)
    (hlen : ds.length = xs.length) (h : ∀ d, ∀ x ∈ xs, Reads (f d) (enc x) x) :
    Reads (ds.mapM f) (xs.flatMap enc) xs := by
  induction ds generalizing xs with
  | nil =>
    obtain rfl := List.length_eq_zero_iff.mp hlen.symm
    exact Reads.pure []
  | cons d ds ih =>
    cases xs with
    | nil => cases hlen
    | cons x xs =>
      rw [List.mapM_cons, List.flatMap_cons]
      refine (h d x List.mem_cons_self).bind ?_
      have htail := ih xs (Nat.succ.inj hlen) fun d y hy => h d y (List.mem_cons_of_mem _ hy)
      simpa using htail.bind (g := fun l => Pure.pure (x :: l)) (Reads.pure (x :: xs))

/-- `for n < length { T elem; read elem; insert elem; }`. -/
def insertEach (f : Decoder ε α) (insert : β → α → β) : Nat → β → Decoder ε β
  | 0, b => Pure.pure b
  | n + 1, b => do
    let a ← f
    insertEach f insert n (insert b a)

theorem Reads.insertEach {f : Decoder ε α} {insert : β → α → β} {enc : α → List UInt8} (xs : List α) (b : β)
    (h : ∀ x ∈ xs, Reads f (enc x) x) :
    Reads (Bytes.insertEach f insert xs.length b) (xs.flatMap enc) (xs.foldl insert b) := by
  induction xs generalizing b with
  | nil => exact Reads.pure b
  | cons x xs ih =>
    rw [List.flatMap_cons, List.length_cons, List.foldl_cons]
    unfold Bytes.insertEach
    exact (h x List.mem_cons_self).bind (ih (insert b x) fun y hy => h y (List.mem_cons_of_mem _ hy))

/-! ## Numbers and ordered insertion -/

def leBytes : Nat → Nat → List UInt8
  | 0, _ => []
  | w + 1, n => UInt8.ofNat n :: leBytes w (n / 256)

def leNat : List UInt8 → Nat
  | [] => 0
  | b :: bs => b.toNat + 256 * leNat bs

@[simp] theorem leBytes_length (w n : Nat) : (leBytes w n).length = w := by
  induction w generalizing n with
  | zero => rfl
  | succ w ih => simp [leBytes, ih]

theorem leNat_leBytes (w n : Nat) (h : n < 256 ^ w) : leNat (leBytes w n) = n := by
  induction w generalizing n with
  | zero => simp only [Nat.pow_zero] at h; unfold leBytes leNat; omega
  | succ w ih =>
    have hd : n / 256 < 256 ^ w := by
      rw [Nat.pow_succ] at h
      exact Nat.div_lt_of_lt_mul (by omega)
    unfold leBytes leNat
    rw [ih _ hd, UInt8.toNat_ofNat']
    omega

/-- Insertion into a container kept in the order `lt`; an equivalent element stays. -/
def insertNew (lt : α → α → Bool) : List α → α → List α
  | [], x => [x]
  | y :: ys, x => if lt x y then x :: y :: ys else if lt y x then y :: insertNew lt ys x else y :: ys

theorem insertNew_last {lt : α → α → Bool} (hasymm : ∀ x y, lt x y = true → lt y x = false) (ys : List α) (x : α)
    (h : ∀ y ∈ ys, lt y x = true) : insertNew lt ys x = ys ++ [x] := by
  induction ys with
  | nil => rfl
  | cons y ys ih =>
    have hy := h y List.mem_cons_self
    unfold insertNew
    rw [hasymm y x hy, hy, ih fun z hz => h z (List.mem_cons_of_mem _ hz)]
    rfl

/-- Elements that come in order are appended one after another. -/
theorem foldl_insertNew {lt : α → α → Bool} (hasymm : ∀ x y, lt x y = true → lt y x = false) (xs ys : List α)
    (h : (ys ++ xs).Pairwise fun a b => lt a b = true) : xs.foldl (insertNew lt) ys = ys ++ xs := by
  induction xs generalizing ys with
  | nil => simp
  | cons x xs ih =>
    have hlast := insertNew_last hasymm ys x fun y hy =>
      (List.pairwise_append.mp h).2.2 y hy x List.mem_cons_self
    have hrest : (ys ++ [x] ++ xs).Pairwise fun a b => lt a b = true := by
      rwa [List.append_assoc]
    rw [List.foldl_cons, hlast, ih _ hrest, List.append_assoc]
    rfl

/-- `resize (n)`: the first elements stay, new ones are default. -/
def resize (d : α) (xs : List α) (n : Nat) : List α := xs.take n ++ List.replicate (n - xs.length) d

@[simp] theorem resize_length (d : α) (xs : List α) (n : Nat) : (resize d xs n).length = n := by
  unfold resize
  rw [List.length_append, List.length_take, List.length_replicate]
  omega

end GaspiCxx.Bytes
