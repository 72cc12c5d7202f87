import GaspiCxx.Serialization.Buffer

/-!
# The size of pairs

`size` of a pair is `sizeof (first) + sizeof (second)`, while `serialize` writes
the encodings of the components. The two agree for all values of a pair type
only when both components have a fixed width and these add up to the `sizeof`s.
Containers of pairs inherit the difference, since they return a recomputed
`size`.

Every byte of the encoding is stored somewhere, whatever lengths are returned
(`stores_length`), so the number of stored bytes decides what `size` should be.
-/

namespace GaspiCxx.Serialization

open Bytes

variable (D : Typedefs) (L : Layout) (O : Orders)

/-- The number of bytes of every value of the type, where there is one. -/
def width : Ty → Option Nat
  | .scalar s => some s.sizeof
  | .bufferDescription => some (Buffer.sizeBufferDescription D)
  | .pair u v =>
    match width u, width v with
    | some m, some n => some (m + n)
    | _, _ => none
  | _ => none

/-- Pairs, and vectors, deques and sets of them to any depth. -/
inductive PairNest where
  | pair (u v : Ty)
  | vector (T : PairNest)
  | deque (T : PairNest)
  | set (T : PairNest)
  deriving DecidableEq, Repr

def PairNest.ty : PairNest → Ty
  | .pair u v => .pair u v
  | .vector T => .vector T.ty
  | .deque T => .deque T.ty
  | .set T => .set T.ty

/-- Both components of the pair have a fixed width, and the `sizeof`s add up to it. -/
def PairNest.Packed : PairNest → Prop
  | .pair u v => width D (.pair u v) = some (L.sizeof u + L.sizeof v)
  | .vector T => T.Packed
  | .deque T => T.Packed
  | .set T => T.Packed

/-- What `size` promises for a value: it is the number of bytes `serialize`
stores, these lie in a buffer of that size, and `deserialize` of what was stored
returns the number of bytes it loads. -/
structure SizeLaw (t : Ty) (x : Raw t) : Prop where
  written : ∀ a, (Buffer.serialize D L t x a).stores.length = Buffer.size D L t x
  inside : ∀ a, ∀ s ∈ (Buffer.serialize D L t x a).stores, a ≤ s.1 ∧ s.1 < a + Buffer.size D L t x
  consumed : ∀ a mem dest,
    (Buffer.deserialize D L O (applyStores (Buffer.serialize D L t x a).stores mem) t dest a).returned =
      (Buffer.deserialize D L O (applyStores (Buffer.serialize D L t x a).stores mem) t dest a).loads.length

variable {D L O}

theorem width_pair {u v : Ty} {n : Nat} (h : width D (.pair u v) = some n) :
    ∃ k m, width D u = some k ∧ width D v = some m ∧ n = k + m := by
  unfold width at h
  split at h
  · next k m hk hm => exact ⟨k, m, hk, hm, (Option.some.inj h).symm⟩
  · cases h

theorem width_pair_none {u v : Ty} (h : width D (.pair u v) = none) : width D u = none ∨ width D v = none := by
  unfold width at h
  split at h
  · cases h
  · next hne =>
    cases hu : width D u with
    | none => left; rfl
    | some m =>
      cases hv : width D v with
      | none => right; rfl
      | some n => exact absurd hv (hne m n hu)

theorem width_encode {t : Ty} {n : Nat} (h : width D t = some n) {x : Raw t} (hx : Valid D O t x) :
    (encode t x).length = n := by
  induction t generalizing n with
  | scalar s =>
    obtain rfl := Option.some.inj h
    exact hx
  | bufferDescription =>
    obtain rfl := Option.some.inj h
    exact encode_bufferDescription_length hx
  | pair u v hu hv =>
    obtain ⟨k, m, hk, hm, rfl⟩ := width_pair h
    unfold encode
    rw [List.length_append, hu hk hx.1, hv hm hx.2]
  | _ => cases h

/-- A type of fixed width has no containers inside. -/
theorem width_exact {t : Ty} {n : Nat} (h : width D t = some n) (x : Raw t) : Exact L t x := by
  induction t generalizing n with
  | scalar s => trivial
  | bufferDescription => trivial
  | pair u v hu hv =>
    obtain ⟨k, m, hk, hm, -⟩ := width_pair h
    exact ⟨hu hk x.1, hv hm x.2⟩
  | _ => cases h

theorem PairNest.Packed.sized {T : PairNest} (h : T.Packed D L) {x : Raw T.ty} (hx : Valid D O T.ty x) :
    Sized L T.ty x := by
  induction T with
  | pair u v =>
    obtain ⟨k, m, hk, hm, hn⟩ := width_pair h
    show (encode u x.1).length + (encode v x.2).length = L.sizeof u + L.sizeof v
    rw [width_encode hk hx.1, width_encode hm hx.2, hn]
  | vector T ih => exact fun y hy => ih h (hx.2 y hy)
  | deque T ih => exact fun y hy => ih h (hx.2 y hy)
  | set T ih => exact fun y hy => ih h (hx.2.1 y hy)

theorem PairNest.Packed.exact {T : PairNest} (h : T.Packed D L) {x : Raw T.ty} (hx : Valid D O T.ty x) :
    Exact L T.ty x := by
  induction T with
  | pair u v =>
    obtain ⟨k, m, hk, hm, -⟩ := width_pair h
    exact ⟨width_exact hk x.1, width_exact hm x.2⟩
  | vector T ih => exact fun y hy => ⟨ih h (hx.2 y hy), PairNest.Packed.sized (T := T) h (hx.2 y hy)⟩
  | deque T ih => exact fun y hy => ⟨ih h (hx.2 y hy), PairNest.Packed.sized (T := T) h (hx.2 y hy)⟩
  | set T ih => exact fun y hy => ⟨ih h (hx.2.1 y hy), PairNest.Packed.sized (T := T) h (hx.2.1 y hy)⟩

/-! ## What is stored -/

theorem serializeLength_stores (n a : Nat) : (Buffer.serializeLength n a).stores.length = (size_t n).length :=
  stores_length a _

/-- The loop of a container stores its encoding. -/
theorem seq_stores_length {α : Type} {f : OutPtr → α → OutPtr} {enc : α → List UInt8} (xs : List α) (a : Nat)
    (h : ∀ x ∈ xs, ∀ c, (f c x).stores.length = c.stores.length + (enc x).length) :
    (xs.foldl f ((OutPtr.mk a []).put (Buffer.serializeLength xs.length))).stores.length =
      (encodeSeq enc xs).length := by
  rw [OutPtr.foldl_stores_length xs _ h, OutPtr.put_stores_length _ _ _ (serializeLength_stores _)]
  unfold encodeSeq
  rw [List.length_append, List.length_nil, Nat.zero_add]

/-- The bytes of the encoding are all stored, wherever the pointers have gone. -/
theorem stores_length_encode {t : Ty} {x : Raw t} (a : Nat) :
    (Buffer.serialize D L t x a).stores.length = (encode t x).length := by
  induction t generalizing a with
  | scalar s => exact stores_length a x
  | string =>
    unfold Buffer.serialize encode
    simp only [List.length_append, OutPtr.put_stores_length _ _ _ (serializeLength_stores _), stores_length,
      List.length_nil, Nat.zero_add]
  | bufferDescription =>
    unfold Buffer.serialize encode
    simp only [OutPtr.put, Buffer.serializeScalar, List.length_append, stores_length, List.length_nil]
    omega
  | pair u v hu hv =>
    unfold Buffer.serialize encode
    simp only [OutPtr.put_stores_length _ _ _ fun b => hu b, OutPtr.put_stores_length _ _ _ fun b => hv b,
      List.length_append, List.length_nil, Nat.zero_add]
  | vector t ih => exact seq_stores_length x a fun y _ c => OutPtr.put_stores_length c _ _ ih
  | deque t ih => exact seq_stores_length x a fun y _ c => OutPtr.put_stores_length c _ _ ih
  | set t ih => exact seq_stores_length x a fun y _ c => OutPtr.put_stores_length c _ _ ih
  | map c u v hu hv =>
    refine seq_stores_length x a fun y _ c => ?_
    rw [OutPtr.put_stores_length _ _ _ hv, OutPtr.put_stores_length c _ _ hu, List.length_append, Nat.add_assoc]

theorem SizeLaw.size_eq {t : Ty} {x : Raw t} (h : SizeLaw D L O t x) :
    Buffer.size D L t x = (encode t x).length := by
  rw [← h.written 0, stores_length_encode]

/-- The law holds of a value whose lengths are right throughout. -/
theorem sizeLaw_of {t : Ty} {x : Raw t} (hs : Sized L t x) (he : Exact L t x) (hx : Valid D O t x) :
    SizeLaw D L O t x where
  written a := by rw [stores_length_encode, Buffer.size_eq hs hx]
  inside a s h := by
    rw [Buffer.puts_serialize he hx] at h
    rw [Buffer.size_eq hs hx]
    exact mem_stores h
  consumed a mem dest := by
    rw [Buffer.puts_serialize he hx, Buffer.gives_deserialize dest he hx a (holds_applyStores a _ mem)]
    simp only [List.length_range']

/-! ## Types without a width -/

theorem encode_pos {t : Ty} {x : Raw t} (hx : Valid D O t x) : 0 < (encode t x).length := by
  have hseq : ∀ {α : Type} (enc : α → List UInt8) (xs : List α), 0 < (encodeSeq enc xs).length := by
    intro α enc xs
    unfold encodeSeq
    rw [List.length_append, size_t_length]
    exact Nat.add_pos_left (by decide) _
  induction t with
  | scalar s =>
    have hlen : List.length x = s.sizeof := hx
    unfold encode
    rw [hlen]
    exact s.sizeof_pos
  | string =>
    unfold encode
    rw [List.length_append, size_t_length]
    exact Nat.add_pos_left (by decide) _
  | bufferDescription =>
    rw [encode_bufferDescription_length hx]
    have := D.gaspi_rank_t.sizeof_pos
    unfold Buffer.sizeBufferDescription
    omega
  | pair u v hu hv =>
    unfold encode
    rw [List.length_append]
    exact Nat.add_pos_left (hu hx.1) _
  | _ => exact hseq _ _

/-- An empty container and one with a single element differ in length. -/
theorem encodeSeq_ne {α : Type} (enc : α → List UInt8) (x : α) (h : 0 < (enc x).length) :
    (encodeSeq enc []).length ≠ (encodeSeq enc [x]).length := by
  unfold encodeSeq
  simp only [List.length_append, size_t_length, List.flatMap_nil, List.flatMap_cons, List.append_nil,
    List.length_nil]
  omega

variable (D O) in
/-- A type that has no width has two values of different lengths. -/
theorem exists_ne_of_width_none {t : Ty} (h : width D t = none) :
    ∃ x y : Raw t, Valid D O t x ∧ Valid D O t y ∧ (encode t x).length ≠ (encode t y).length := by
  have hone : (1 : Nat) < 2 ^ 64 := by decide
  induction t with
  | scalar s => cases h
  | bufferDescription => cases h
  | string =>
    refine ⟨[], [0], Nat.two_pow_pos 64, hone, ?_⟩
    unfold encode
    simp
  | pair u v hu hv =>
    obtain h | h := width_pair_none h
    · obtain ⟨x, y, hx, hy, hne⟩ := hu h
      have hd := Raw.default_valid D O v
      refine ⟨(x, Raw.default D v), (y, Raw.default D v), ⟨hx, hd⟩, ⟨hy, hd⟩, ?_⟩
      unfold encode
      simpa using hne
    · obtain ⟨x, y, hx, hy, hne⟩ := hv h
      have hd := Raw.default_valid D O u
      refine ⟨(Raw.default D u, x), (Raw.default D u, y), ⟨hd, hx⟩, ⟨hd, hy⟩, ?_⟩
      unfold encode
      simpa using hne
  | vector t ih =>
    have hd := Raw.default_valid D O t
    exact ⟨[], [Raw.default D t], Raw.default_valid D O (.vector t),
      ⟨hone, fun y hy => by rw [List.mem_singleton.mp hy]; exact hd⟩, encodeSeq_ne _ _ (encode_pos hd)⟩
  | deque t ih =>
    have hd := Raw.default_valid D O t
    exact ⟨[], [Raw.default D t], Raw.default_valid D O (.deque t),
      ⟨hone, fun y hy => by rw [List.mem_singleton.mp hy]; exact hd⟩, encodeSeq_ne _ _ (encode_pos hd)⟩
  | set t ih =>
    have hd := Raw.default_valid D O t
    exact ⟨[], [Raw.default D t], Raw.default_valid D O (.set t),
      ⟨hone, fun y hy => by rw [List.mem_singleton.mp hy]; exact hd, List.pairwise_singleton _ _⟩,
      encodeSeq_ne _ _ (encode_pos hd)⟩
  | map c u v hu hv =>
    have hd : Valid D O u (Raw.default D u) ∧ Valid D O v (Raw.default D v) :=
      ⟨Raw.default_valid D O u, Raw.default_valid D O v⟩
    refine ⟨[], [(Raw.default D u, Raw.default D v)], Raw.default_valid D O (.map c u v),
      ⟨hone, fun y hy => by rw [List.mem_singleton.mp hy]; exact hd, List.pairwise_singleton _ _⟩, ?_⟩
    apply encodeSeq_ne _ _
    rw [List.length_append]
    exact Nat.add_pos_left (encode_pos hd.1) _

/-- The law for a container with one element is the law for the element. -/
theorem sizeSeq_singleton {α : Type} {size : α → Nat} {enc : α → List UInt8} {x : α}
    (h : Buffer.sizeSeq size [x] = (encodeSeq enc [x]).length) : size x = (enc x).length := by
  unfold Buffer.sizeSeq encodeSeq at h
  simp only [List.foldl_cons, List.foldl_nil, List.length_append, size_t_length, List.flatMap_cons,
    List.flatMap_nil, List.append_nil] at h
  omega

/-- Where `size` is right for every value, the pairs are packed. -/
theorem PairNest.packed_of_size {T : PairNest}
    (h : ∀ x, Valid D O T.ty x → Buffer.size D L T.ty x = (encode T.ty x).length) : T.Packed D L := by
  have hone : (1 : Nat) < 2 ^ 64 := by decide
  induction T with
  | pair u v =>
    have hlen : ∀ x : Raw (.pair u v), Valid D O (.pair u v) x →
        (encode (.pair u v) x).length = L.sizeof u + L.sizeof v := fun x hx => (h x hx).symm
    show width D (.pair u v) = some (L.sizeof u + L.sizeof v)
    cases hw : width D (.pair u v) with
    | none =>
      obtain ⟨x, y, hx, hy, hne⟩ := exists_ne_of_width_none D O hw
      exact absurd ((hlen x hx).trans (hlen y hy).symm) hne
    | some n =>
      have hd := Raw.default_valid D O (.pair u v)
      rw [← hlen _ hd, width_encode hw hd]
  | vector T ih =>
    exact ih fun x hx => sizeSeq_singleton (h [x] ⟨hone, fun y hy => by rw [List.mem_singleton.mp hy]; exact hx⟩)
  | deque T ih =>
    exact ih fun x hx => sizeSeq_singleton (h [x] ⟨hone, fun y hy => by rw [List.mem_singleton.mp hy]; exact hx⟩)
  | set T ih =>
    exact ih fun x hx => sizeSeq_singleton
      (h [x] ⟨hone, fun y hy => by rw [List.mem_singleton.mp hy]; exact hx, List.pairwise_singleton _ _⟩)

/-! ## When the law holds -/

variable (D L O) in
/-- The law holds for all values of a type exactly when its pairs are packed. For
a single pair of components without pairs inside it holds exactly when the bytes
of the components add up to their `sizeof`s, and in general when this is so for
every pair whose `size` or returned length is used. -/
theorem pair_size_law_iff :
    (∀ T : PairNest, (∀ x : Val D O T.ty, SizeLaw D L O T.ty x.1) ↔ T.Packed D L) ∧
    (∀ (u v : Ty) (x : Val D O (.pair u v)), u.PairFree → v.PairFree →
      (SizeLaw D L O (.pair u v) x.1 ↔
        (encode u x.1.1).length + (encode v x.1.2).length = L.sizeof u + L.sizeof v)) ∧
    ∀ (T : PairNest) (x : Val D O T.ty), Sized L T.ty x.1 → Exact L T.ty x.1 → SizeLaw D L O T.ty x.1 := by
  refine ⟨fun T => ⟨fun h => ?_, fun h x => ?_⟩, fun u v x hu hv => ⟨fun h => ?_, fun h => ?_⟩, ?_⟩
  · exact PairNest.packed_of_size fun x hx => (h ⟨x, hx⟩).size_eq
  · exact sizeLaw_of (h.sized x.2) (h.exact x.2) x.2
  · have hlen := h.size_eq
    unfold encode at hlen
    rw [List.length_append] at hlen
    exact hlen.symm
  · exact sizeLaw_of (t := .pair u v) h ⟨hu.exact L x.1.1, hv.exact L x.1.2⟩ x.2
  · exact fun T x hs he => sizeLaw_of hs he x.2

/-! ## A pair with a string -/

def alignof : Ty → Nat
  | .scalar s => s.sizeof
  | .pair u v => max (alignof u) (alignof v)
  | _ => 8

def roundUp (n align : Nat) : Nat := (n + align - 1) / align * align

/-- `sizeof` on x86-64 with libstdc++. -/
def sizeof_x86_64 : Ty → Nat
  | .scalar s => s.sizeof
  | .string => 32
  | .bufferDescription => 32
  | .pair u v =>
    roundUp (roundUp (sizeof_x86_64 u) (alignof v) + sizeof_x86_64 v) (max (alignof u) (alignof v))
  | .vector _ => 24
  | .deque _ => 80
  | .set _ => 48
  | .map _ _ _ => 48

def x86_64 : Layout := ⟨sizeof_x86_64, fun _ => rfl⟩

/-- Values compared by their bytes. -/
def byteOrder : Orders where
  lt _ t x y := decide (encode t x < encode t y)
  asymm _ t x y h := by
    have h := of_decide_eq_true h
    exact decide_eq_false (List.lt_asymm h)

/-- `std::pair<std::string, int>` with a string of 29 characters. -/
def longString : Val gaspi byteOrder (.pair .string (.scalar .int)) :=
  ⟨(List.replicate 29 97, [0, 0, 0, 0]), ⟨show 29 < 2 ^ 64 by decide, rfl⟩⟩

/-- Its `size` is 36, its `serialize` stores 41 bytes, 5 of them behind a buffer
of that size. -/
theorem pair_size_overrun :
    Buffer.size gaspi x86_64 (.pair .string (.scalar .int)) longString.1 = 36 ∧
    (Buffer.serialize gaspi x86_64 (.pair .string (.scalar .int)) longString.1 0).stores.length = 41 ∧
    ¬ ∀ (T : PairNest) (x : Val gaspi byteOrder T.ty), SizeLaw gaspi x86_64 byteOrder T.ty x.1 := by
  have hsize : Buffer.size gaspi x86_64 (.pair .string (.scalar .int)) longString.1 = 36 := by decide
  have hstores : (Buffer.serialize gaspi x86_64 (.pair .string (.scalar .int)) longString.1 0).stores.length = 41 := by
    decide
  refine ⟨hsize, hstores, fun h => ?_⟩
  have hlaw := (h (.pair .string (.scalar .int)) longString).written 0
  have heq := hstores.symm.trans (hlaw.trans hsize)
  cases heq

end GaspiCxx.Serialization
