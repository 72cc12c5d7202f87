import GaspiCxx.Serialization.Types

/-!
# Serialization to and from streams

The stream overloads, container by container. Every one of them ends with a
check of the stream; only the checks of the scalar and the string can fail on
input that was good before, and they are behind every byte that is read.
-/

namespace GaspiCxx.Serialization.Stream

open Bytes

/-- `std::runtime_error`, with its text after `CODE_ORIGIN`. -/
structure runtime_error where
  what : String
  deriving DecidableEq, Repr

def serialize_failed (T : String) : runtime_error := ⟨"serialization::serialize (ostream &, " ++ T ++ ") failed"⟩

def deserialize_failed (T : String) : runtime_error := ⟨"serialization::deserialize (" ++ T ++ ", istream &) failed"⟩

/-! ## Writing -/

def serializeScalar (x : List UInt8) : Encoder runtime_error Unit := do
  write x
  checkOut (serialize_failed "T const &")

def serialize : (t : Ty) → Raw t → Encoder runtime_error Unit
  | .scalar _, (x : List UInt8) => serializeScalar x
  | .string, (x : List UInt8) => do
    write (size_t x.length)
    write x
    checkOut (serialize_failed "string const &")
  | .bufferDescription, (x : BufferDescription) => do
    serializeScalar x.rank
    serializeScalar x.segmentId
    serializeScalar x.offset
    serializeScalar x.size
    serializeScalar x.notificationId
  | .pair u v, (x : Raw u × Raw v) => do
    serialize u x.1
    serialize v x.2
    checkOut (serialize_failed "pair<U,V> const &")
  | .vector t, (xs : List (Raw t)) => do
    serializeScalar (size_t xs.length)
    xs.forM (serialize t)
    checkOut (serialize_failed "vector<T> const &")
  | .deque t, (xs : List (Raw t)) => do
    serializeScalar (size_t xs.length)
    xs.forM (serialize t)
    checkOut (serialize_failed "vector<T> const &")
  | .set t, (xs : List (Raw t)) => do
    write (size_t xs.length)
    xs.forM (serialize t)
    checkOut (serialize_failed "set<T> const &")
  | .map _ u v, (xs : List (Raw u × Raw v)) => do
    write (size_t xs.length)
    xs.forM fun x => do
      serialize u x.1
      serialize v x.2
    checkOut (serialize_failed "map<U, V> const &")

theorem writes_serializeScalar (x : List UInt8) : Writes (serializeScalar x) x :=
  (writes_write x).checked _

/-- A container: the length, the elements, the check. -/
theorem Writes.seq {α : Type} {m : Encoder runtime_error Unit} {f : α → Encoder runtime_error Unit}
    {enc : α → List UInt8} {xs : List α} (e : runtime_error) (hm : Writes m (size_t xs.length))
    (hf : ∀ x ∈ xs, Writes (f x) (enc x)) : Writes (do m; xs.forM f; checkOut e) (encodeSeq enc xs) :=
  hm.bind ((Writes.forM xs hf).checked e)

/-- On a good stream `serialize` appends the encoding. -/
theorem writes_serialize (t : Ty) (x : Raw t) : Writes (serialize t x) (encode t x) := by
  induction t with
  | scalar s => exact writes_serializeScalar x
  | string => exact (writes_write _).bind ((writes_write _).checked _)
  | bufferDescription =>
    exact (writes_serializeScalar _).bind ((writes_serializeScalar _).bind ((writes_serializeScalar _).bind
      ((writes_serializeScalar _).bind (writes_serializeScalar _))))
  | pair u v hu hv => exact (hu x.1).bind ((hv x.2).checked _)
  | vector t ih => exact Writes.seq _ (writes_serializeScalar _) fun y _ => ih y
  | deque t ih => exact Writes.seq _ (writes_serializeScalar _) fun y _ => ih y
  | set t ih => exact Writes.seq _ (writes_write _) fun y _ => ih y
  | map c u v hu hv => exact Writes.seq _ (writes_write _) fun y _ => (hu y.1).bind (hv y.2)

/-! ## Reading -/

def deserializeScalar (n : Nat) : Decoder runtime_error (List UInt8) := do
  let elem ← read n
  checkIn (deserialize_failed "T &")
  pure elem

/-- `size_t length; deserialize (length, in)`. -/
def deserializeLength : Decoder runtime_error Nat := do
  let length ← deserializeScalar sizeof_size_t
  pure (leNat length)

variable (D : Typedefs) (O : Orders)

/-- The second argument is the destination's content before the call. -/
def deserialize : (t : Ty) → Raw t → Decoder runtime_error (Raw t)
  | .scalar s, _ => deserializeScalar s.sizeof
  | .string, _ => do
    let length ← deserializeLength
    let str ← read length
    checkIn (deserialize_failed "string &")
    pure str
  | .bufferDescription, _ => do
    let rank ← deserializeScalar D.gaspi_rank_t.sizeof
    let segmentId ← deserializeScalar D.gaspi_segment_id_t.sizeof
    let offset ← deserializeScalar D.gaspi_offset_t.sizeof
    let size ← deserializeScalar D.gaspi_size_t.sizeof
    let notificationId ← deserializeScalar D.gaspi_notification_id_t.sizeof
    pure (⟨rank, segmentId, offset, size, notificationId⟩ : BufferDescription)
  | .pair u v, (data : Raw u × Raw v) => do
    let first ← deserialize u data.1
    let second ← deserialize v data.2
    checkIn (deserialize_failed "pair<U,V> &")
    pure ((first, second) : Raw u × Raw v)
  | .vector t, (vec : List (Raw t)) => do
    let length ← deserializeLength
    let vec ← (resize (Raw.default D t) vec length).mapM (deserialize t)
    checkIn (deserialize_failed "vector<T> &")
    pure vec
  | .deque t, (vec : List (Raw t)) => do
    let length ← deserializeLength
    let vec ← (resize (Raw.default D t) vec length).mapM (deserialize t)
    checkIn (deserialize_failed "vector<T> &")
    pure vec
  | .set t, _ => do
    let length ← deserializeLength
    let set ← insertEach (deserialize t (Raw.default D t)) (insertNew (O.lt .less t)) length []
    checkIn (deserialize_failed "set<T> &")
    pure set
  | .map c u v, _ => do
    let length ← deserializeLength
    let map ← insertEach
      (do
        let key ← deserialize u (Raw.default D u)
        let elem ← deserialize v (Raw.default D v)
        pure (key, elem))
      (insertNew fun a b => O.lt c u a.1 b.1) length []
    checkIn (deserialize_failed "map<U, V> &")
    pure map

theorem reads_deserializeScalar {n : Nat} {x : List UInt8} (h : x.length = n) : Reads (deserializeScalar n) x x :=
  reads_read _ x h.symm

theorem reads_deserializeLength {n : Nat} (h : n < 2 ^ 64) : Reads deserializeLength (size_t n) n := by
  have hn := (reads_deserializeScalar (size_t_length n)).bind (g := fun l => pure (leNat l)) (Reads.pure _)
  rw [List.append_nil, leNat_size_t h] at hn
  exact hn

/-- A container: the length, the loop, the check. -/
theorem Reads.seq {α : Type} {f : Nat → Decoder runtime_error (List α)} {enc : α → List UInt8} {xs : List α}
    (e : runtime_error) (hlen : xs.length < 2 ^ 64) (hf : Reads (f xs.length) (xs.flatMap enc) xs) :
    Reads (do let length ← deserializeLength; let ys ← f length; checkIn e; pure ys) (encodeSeq enc xs) xs :=
  (reads_deserializeLength hlen).bind (g := fun length => do let ys ← f length; checkIn e; pure ys) (hf.checked e)

theorem Reads.sorted {α : Type} {f : Decoder runtime_error α} {enc : α → List UInt8} {lt : α → α → Bool}
    {xs : List α} (hasymm : ∀ x y, lt x y = true → lt y x = false) (hs : xs.Pairwise fun a b => lt a b = true)
    (hf : ∀ x ∈ xs, Reads f (enc x) x) :
    Reads (insertEach f (insertNew lt) xs.length []) (xs.flatMap enc) xs := by
  have h : Reads (insertEach f (insertNew lt) xs.length []) (xs.flatMap enc) (xs.foldl (insertNew lt) []) :=
    Reads.insertEach xs [] hf
  rwa [foldl_insertNew hasymm xs [] (by simpa using hs), List.nil_append] at h

/-- `deserialize` reads the encoding of a value back, whatever the destination held. -/
theorem reads_deserialize (t : Ty) (dest x : Raw t) (h : Valid D O t x) :
    Reads (deserialize D O t dest) (encode t x) x := by
  induction t with
  | scalar s => exact reads_deserializeScalar h
  | string =>
    have hstr : Reads (do let str ← read x.length; checkIn (deserialize_failed "string &"); pure str) x x :=
      reads_read _ x rfl
    exact (reads_deserializeLength h).bind
      (g := fun length => do let str ← read length; checkIn (deserialize_failed "string &"); pure str) hstr
  | bufferDescription =>
    have hid := (reads_deserializeScalar h.notificationId).bind
      (g := fun n => pure (⟨x.rank, x.segmentId, x.offset, x.size, n⟩ : BufferDescription)) (Reads.pure _)
    rw [List.append_nil] at hid
    exact (reads_deserializeScalar h.rank).bind ((reads_deserializeScalar h.segmentId).bind
      ((reads_deserializeScalar h.offset).bind ((reads_deserializeScalar h.size).bind hid)))
  | pair u v hu hv =>
    have hsecond := (hv dest.2 x.2 h.2).bind
      (g := fun b => do checkIn (deserialize_failed "pair<U,V> &"); pure ((x.1, b) : Raw u × Raw v))
      ((reads_checkIn _).bind (Reads.pure _))
    rw [List.append_nil, List.append_nil] at hsecond
    exact (hu dest.1 x.1 h.1).bind hsecond
  | vector t ih =>
    exact Reads.seq _ h.1 (Reads.mapM _ x (resize_length _ _ _) fun d y hy => ih d y (h.2 y hy))
  | deque t ih =>
    exact Reads.seq _ h.1 (Reads.mapM _ x (resize_length _ _ _) fun d y hy => ih d y (h.2 y hy))
  | set t ih =>
    exact Reads.seq _ h.1 (Reads.sorted (O.asymm .less t) h.2.2 fun y hy => ih _ y (h.2.1 y hy))
  | map c u v hu hv =>
    refine Reads.seq _ h.1 (Reads.sorted (fun a b => O.asymm c u a.1 b.1) h.2.2 fun y hy => ?_)
    have helem := (hv (Raw.default D v) y.2 (h.2.1 y hy).2).bind
      (g := fun elem => pure ((y.1, elem) : Raw u × Raw v)) (Reads.pure _)
    rw [List.append_nil] at helem
    exact (hu (Raw.default D u) y.1 (h.2.1 y hy).1).bind helem

/-- Every value of every type comes back from a stream that holds it and more,
leaving the rest, and no part of its bytes is accepted. -/
theorem stream_round_trip (t : Ty) (x : Val D O t) :
    ∃ bs, (∀ w, serialize t x.1 ⟨w, true⟩ = .ok ((), ⟨w ++ bs, true⟩)) ∧
      (∀ (dest : Raw t) (s : List UInt8), deserialize D O t dest ⟨bs ++ s, true⟩ = .ok (x.1, ⟨s, true⟩)) ∧
      ∀ (dest : Raw t) (p : List UInt8), p <+: bs → p ≠ bs →
        ∃ e, deserialize D O t dest ⟨p, true⟩ = .error e := by
  refine ⟨encode t x.1, writes_serialize t x.1, fun dest => (reads_deserialize D O t dest x.1 x.2).full, ?_⟩
  rintro dest p ⟨q, hq⟩ hne
  apply (reads_deserialize D O t dest x.1 x.2).short p q hq.symm
  rintro rfl
  exact hne (by simpa using hq)

end GaspiCxx.Serialization.Stream
