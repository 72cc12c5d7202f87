import GaspiCxx.Serialization.ByteMemory
import GaspiCxx.Serialization.Stream

/-!
# Serialization to and from buffers

The buffer overloads and the three lengths they work with: `size`, what
`serialize` returns and what `deserialize` returns. Strings and the containers
but `map` return a recomputed `size`, the others the distance their pointer has
gone. `size` of a pair is the sum of the `sizeof`s of its components, which
need not be the number of bytes the pair takes: `Sized` are the values where
`size` counts the bytes, `Exact` those whose `serialize` and `deserialize`
return their number. Every value of a type without pairs is both.
-/

namespace GaspiCxx.Serialization

open Bytes

/-- `sizeof` of the types in memory, as the compiler lays them out. -/
structure Layout where
  sizeof : Ty → Nat
  scalar : ∀ s, sizeof (.scalar s) = s.sizeof

namespace Buffer

variable (D : Typedefs) (L : Layout) (O : Orders)

/-- `totSize` after the loop over a container. -/
def sizeSeq {α : Type} (size : α → Nat) (xs : List α) : Nat :=
  xs.foldl (fun totSize x => totSize + size x) sizeof_size_t

def sizeBufferDescription : Nat :=
  D.gaspi_rank_t.sizeof + D.gaspi_segment_id_t.sizeof + D.gaspi_offset_t.sizeof + D.gaspi_size_t.sizeof +
    D.gaspi_notification_id_t.sizeof

def size : (t : Ty) → Raw t → Nat
  | .scalar s, _ => s.sizeof
  | .string, (str : List UInt8) => sizeof_size_t + str.length
  | .bufferDescription, _ => sizeBufferDescription D
  | .pair u v, _ => L.sizeof u + L.sizeof v
  | .vector t, (vec : List (Raw t)) => sizeSeq (size t) vec
  | .deque t, (vec : List (Raw t)) => sizeSeq (size t) vec
  | .set t, (set : List (Raw t)) => sizeSeq (size t) set
  | .map _ u v, (map : List (Raw u × Raw v)) => sizeSeq (fun x => size u x.1 + size v x.2) map

/-! ## Writing -/

def serializeScalar (n : Nat) (elem : List UInt8) (buffer : Nat) : Put := ⟨n, stores buffer elem⟩

/-- `serialize (buffer, length)`. -/
def serializeLength (length : Nat) (buffer : Nat) : Put := serializeScalar sizeof_size_t (size_t length) buffer

def serialize : (t : Ty) → Raw t → Nat → Put
  | .scalar s, (elem : List UInt8), buffer => serializeScalar s.sizeof elem buffer
  | .string, (str : List UInt8), buffer =>
    let c := (OutPtr.mk buffer []).put (serializeLength str.length)
    ⟨size D L .string str, c.stores ++ stores c.cPtr str⟩
  | .bufferDescription, (desc : BufferDescription), buffer =>
    let c := (OutPtr.mk buffer []).put (serializeScalar D.gaspi_rank_t.sizeof desc.rank)
    let c := c.put (serializeScalar D.gaspi_segment_id_t.sizeof desc.segmentId)
    let c := c.put (serializeScalar D.gaspi_offset_t.sizeof desc.offset)
    let c := c.put (serializeScalar D.gaspi_size_t.sizeof desc.size)
    let c := c.put (serializeScalar D.gaspi_notification_id_t.sizeof desc.notificationId)
    ⟨c.cPtr - buffer, c.stores⟩
  | .pair u v, (data : Raw u × Raw v), buffer =>
    let c := (OutPtr.mk buffer []).put (serialize u data.1)
    let c := c.put (serialize v data.2)
    ⟨c.cPtr - buffer, c.stores⟩
  | .vector t, (vec : List (Raw t)), buffer =>
    let c := (OutPtr.mk buffer []).put (serializeLength vec.length)
    let c := vec.foldl (fun c x => c.put (serialize t x)) c
    ⟨size D L (.vector t) vec, c.stores⟩
  | .deque t, (vec : List (Raw t)), buffer =>
    let c := (OutPtr.mk buffer []).put (serializeLength vec.length)
    let c := vec.foldl (fun c x => c.put (serialize t x)) c
    ⟨size D L (.deque t) vec, c.stores⟩
  | .set t, (set : List (Raw t)), buffer =>
    let c := (OutPtr.mk buffer []).put (serializeLength set.length)
    let c := set.foldl (fun c x => c.put (serialize t x)) c
    ⟨size D L (.set t) set, c.stores⟩
  | .map _ u v, (map : List (Raw u × Raw v)), buffer =>
    let c := (OutPtr.mk buffer []).put (serializeLength map.length)
    let c := map.foldl (fun c x => (c.put (serialize u x.1)).put (serialize v x.2)) c
    ⟨c.cPtr - buffer, c.stores⟩

/-! ## Reading -/

variable (mem : Mem)

def deserializeScalar (n : Nat) (buffer : Nat) : Got (List UInt8) := ⟨n, load mem buffer n, List.range' buffer n⟩

/-- `size_t length; cPtr = buffer + deserialize (length, buffer)`. -/
def deserializeLength : StateM InPtr Nat := do
  let length ← fetch (deserializeScalar mem sizeof_size_t)
  pure (leNat length)

/-- The second argument is the destination's content before the call. -/
def deserialize : (t : Ty) → Raw t → Nat → Got (Raw t)
  | .scalar s, _ => deserializeScalar mem s.sizeof
  | .string, _ =>
    returnSize (size D L .string) do
      let length ← deserializeLength mem
      fetch (deserializeScalar mem length)
  | .bufferDescription, _ =>
    returnDistance do
      let rank ← fetch (deserializeScalar mem D.gaspi_rank_t.sizeof)
      let segmentId ← fetch (deserializeScalar mem D.gaspi_segment_id_t.sizeof)
      let offset ← fetch (deserializeScalar mem D.gaspi_offset_t.sizeof)
      let size ← fetch (deserializeScalar mem D.gaspi_size_t.sizeof)
      let notificationId ← fetch (deserializeScalar mem D.gaspi_notification_id_t.sizeof)
      pure (⟨rank, segmentId, offset, size, notificationId⟩ : BufferDescription)
  | .pair u v, (data : Raw u × Raw v) =>
    returnDistance do
      let first ← fetch (deserialize u data.1)
      let second ← fetch (deserialize v data.2)
      pure ((first, second) : Raw u × Raw v)
  | .vector t, (vec : List (Raw t)) =>
    returnSize (size D L (.vector t)) do
      let length ← deserializeLength mem
      (resize (Raw.default D t) vec length).mapM fun elem => fetch (deserialize t elem)
  | .deque t, (vec : List (Raw t)) =>
    returnSize (size D L (.deque t)) do
      let length ← deserializeLength mem
      (resize (Raw.default D t) vec length).mapM fun elem => fetch (deserialize t elem)
  | .set t, _ =>
    returnSize (size D L (.set t)) do
      let length ← deserializeLength mem
      walkEach (fetch (deserialize t (Raw.default D t))) (insertNew (O.lt .less t)) length []
  | .map c u v, _ =>
    returnDistance do
      let length ← deserializeLength mem
      walkEach
        (do
          let key ← fetch (deserialize u (Raw.default D u))
          let elem ← fetch (deserialize v (Raw.default D v))
          pure ((key, elem) : Raw u × Raw v))
        (insertNew fun a b => O.lt c u a.1 b.1) length []

end Buffer

/-! ## Which values keep their lengths -/

variable (D : Typedefs) (L : Layout) (O : Orders)

/-- `size` counts the bytes. -/
def Sized : (t : Ty) → Raw t → Prop
  | .scalar _, _ => True
  | .string, _ => True
  | .bufferDescription, _ => True
  | .pair u v, (x : Raw u × Raw v) => (encode u x.1).length + (encode v x.2).length = L.sizeof u + L.sizeof v
  | .vector t, (xs : List (Raw t)) => ∀ x ∈ xs, Sized t x
  | .deque t, (xs : List (Raw t)) => ∀ x ∈ xs, Sized t x
  | .set t, (xs : List (Raw t)) => ∀ x ∈ xs, Sized t x
  | .map _ u v, (xs : List (Raw u × Raw v)) => ∀ x ∈ xs, Sized u x.1 ∧ Sized v x.2

/-- `serialize` and `deserialize` return the number of bytes. -/
def Exact : (t : Ty) → Raw t → Prop
  | .scalar _, _ => True
  | .string, _ => True
  | .bufferDescription, _ => True
  | .pair u v, (x : Raw u × Raw v) => Exact u x.1 ∧ Exact v x.2
  | .vector t, (xs : List (Raw t)) => ∀ x ∈ xs, Exact t x ∧ Sized L t x
  | .deque t, (xs : List (Raw t)) => ∀ x ∈ xs, Exact t x ∧ Sized L t x
  | .set t, (xs : List (Raw t)) => ∀ x ∈ xs, Exact t x ∧ Sized L t x
  | .map _ u v, (xs : List (Raw u × Raw v)) => ∀ x ∈ xs, Exact u x.1 ∧ Exact v x.2

def Ty.PairFree : Ty → Prop
  | .scalar _ => True
  | .string => True
  | .bufferDescription => True
  | .pair _ _ => False
  | .vector t => t.PairFree
  | .deque t => t.PairFree
  | .set t => t.PairFree
  | .map _ u v => u.PairFree ∧ v.PairFree

theorem Ty.PairFree.sized {t : Ty} (h : t.PairFree) (x : Raw t) : Sized L t x := by
  induction t with
  | scalar s => trivial
  | string => trivial
  | bufferDescription => trivial
  | pair u v => exact h.elim
  | vector t ih => exact fun y _ => ih h y
  | deque t ih => exact fun y _ => ih h y
  | set t ih => exact fun y _ => ih h y
  | map c u v hu hv => exact fun y _ => ⟨hu h.1 y.1, hv h.2 y.2⟩

theorem Ty.PairFree.exact {t : Ty} (h : t.PairFree) (x : Raw t) : Exact L t x := by
  induction t with
  | scalar s => trivial
  | string => trivial
  | bufferDescription => trivial
  | pair u v => exact h.elim
  | vector t ih => exact fun y _ => ⟨ih h y, PairFree.sized L (t := t) h y⟩
  | deque t ih => exact fun y _ => ⟨ih h y, PairFree.sized L (t := t) h y⟩
  | set t ih => exact fun y _ => ⟨ih h y, PairFree.sized L (t := t) h y⟩
  | map c u v hu hv => exact fun y _ => ⟨hu h.1 y.1, hv h.2 y.2⟩

variable {D L O}

theorem encode_bufferDescription_length {x : BufferDescription} (h : x.Valid D) :
    (encode .bufferDescription x).length = Buffer.sizeBufferDescription D := by
  unfold encode Buffer.sizeBufferDescription
  simp only [List.length_append, h.rank, h.segmentId, h.offset, h.size, h.notificationId]
  omega

namespace Buffer

theorem sizeSeq_eq {α : Type} {size : α → Nat} {enc : α → List UInt8} {xs : List α}
    (h : ∀ x ∈ xs, size x = (enc x).length) : sizeSeq size xs = (encodeSeq enc xs).length := by
  have hfold : ∀ n, xs.foldl (fun totSize x => totSize + size x) n = n + (xs.flatMap enc).length := by
    induction xs with
    | nil => intro n; simp
    | cons x xs ih =>
      intro n
      rw [List.foldl_cons, ih (fun y hy => h y (List.mem_cons_of_mem _ hy)), h x List.mem_cons_self,
        List.flatMap_cons, List.length_append]
      omega
  unfold sizeSeq encodeSeq
  rw [hfold, List.length_append, size_t_length]

/-- `size` is the length of the encoding. -/
theorem size_eq {t : Ty} {x : Raw t} (h : Sized L t x) (hx : Valid D O t x) : size D L t x = (encode t x).length := by
  induction t with
  | scalar s => exact hx.symm
  | string =>
    unfold size encode
    rw [List.length_append, size_t_length]
  | bufferDescription => exact (encode_bufferDescription_length hx).symm
  | pair u v =>
    unfold size encode
    rw [List.length_append]
    exact h.symm
  | vector t ih => exact sizeSeq_eq fun y hy => ih (h y hy) (hx.2 y hy)
  | deque t ih => exact sizeSeq_eq fun y hy => ih (h y hy) (hx.2 y hy)
  | set t ih => exact sizeSeq_eq fun y hy => ih (h y hy) (hx.2.1 y hy)
  | map c u v hu hv =>
    refine sizeSeq_eq fun y hy => ?_
    rw [List.length_append, hu (h y hy).1 (hx.2.1 y hy).1, hv (h y hy).2 (hx.2.1 y hy).2]

theorem puts_scalar {n : Nat} {x : List UInt8} (h : x.length = n) : Puts (serializeScalar n x) x := by
  intro a
  unfold serializeScalar
  rw [h]

theorem puts_length (n : Nat) : Puts (serializeLength n) (size_t n) := puts_scalar (size_t_length n)

/-- The loop of a container, where its elements are written exactly. -/
theorem foldl_put {α : Type} (f : OutPtr → α → OutPtr) (enc : α → List UInt8) (xs : List α) (a : Nat)
    (h : ∀ x ∈ xs, ∀ bs, f (.wrote a bs) x = .wrote a (bs ++ enc x)) :
    xs.foldl f ((OutPtr.mk a []).put (serializeLength xs.length)) = .wrote a (encodeSeq enc xs) := by
  rw [OutPtr.wrote_nil, OutPtr.wrote_put a [] (puts_length xs.length), List.nil_append, OutPtr.wrote_foldl a _ xs h]
  rfl

/-- A container that returns its size. -/
theorem puts_seq {α : Type} {p : α → Nat → Put} {enc : α → List UInt8} {xs : List α} {n : Nat}
    (hp : ∀ x ∈ xs, Puts (p x) (enc x)) (hn : n = (encodeSeq enc xs).length) :
    Puts (fun buffer =>
      ⟨n, (xs.foldl (fun c x => c.put (p x)) ((OutPtr.mk buffer []).put (serializeLength xs.length))).stores⟩)
      (encodeSeq enc xs) := by
  intro a
  have hloop := foldl_put (fun c x => c.put (p x)) enc xs a fun x hx bs => OutPtr.wrote_put a bs (hp x hx)
  simp only [hloop, hn]
  rfl

/-- `serialize` stores the encoding at consecutive addresses and returns its length. -/
theorem puts_serialize {t : Ty} {x : Raw t} (h : Exact L t x) (hx : Valid D O t x) :
    Puts (serialize D L t x) (encode t x) := by
  induction t with
  | scalar s => exact puts_scalar hx
  | string =>
    intro a
    unfold serialize
    rw [OutPtr.wrote_nil, OutPtr.wrote_put a [] (puts_length _), List.nil_append]
    simp only [OutPtr.wrote, ← stores_append]
    rw [size_eq (O := O) (t := .string) trivial hx]
    rfl
  | bufferDescription =>
    intro a
    unfold serialize
    simp only [OutPtr.wrote_nil, OutPtr.wrote_put _ _ (puts_scalar hx.rank),
      OutPtr.wrote_put _ _ (puts_scalar hx.segmentId), OutPtr.wrote_put _ _ (puts_scalar hx.offset),
      OutPtr.wrote_put _ _ (puts_scalar hx.size), OutPtr.wrote_put _ _ (puts_scalar hx.notificationId)]
    simp [OutPtr.wrote, encode]
  | pair u v hu hv =>
    intro a
    unfold serialize
    simp only [OutPtr.wrote_nil, OutPtr.wrote_put _ _ (hu h.1 hx.1), OutPtr.wrote_put _ _ (hv h.2 hx.2)]
    simp [OutPtr.wrote, encode]
  | vector t ih =>
    exact puts_seq (fun y hy => ih (h y hy).1 (hx.2 y hy)) (size_eq (t := .vector t) (fun y hy => (h y hy).2) hx)
  | deque t ih =>
    exact puts_seq (fun y hy => ih (h y hy).1 (hx.2 y hy)) (size_eq (t := .deque t) (fun y hy => (h y hy).2) hx)
  | set t ih =>
    exact puts_seq (fun y hy => ih (h y hy).1 (hx.2.1 y hy)) (size_eq (t := .set t) (fun y hy => (h y hy).2) hx)
  | map c u v hu hv =>
    intro a
    have hloop := foldl_put (fun c y => (c.put (serialize D L u y.1)).put (serialize D L v y.2))
      (fun y => encode u y.1 ++ encode v y.2) x a (by
        intro y hy bs
        rw [OutPtr.wrote_put a bs (hu (h y hy).1 (hx.2.1 y hy).1),
          OutPtr.wrote_put a _ (hv (h y hy).2 (hx.2.1 y hy).2),
          List.append_assoc])
    unfold serialize
    simp only [hloop]
    simp [OutPtr.wrote, encode]

theorem gives_scalar (mem : Mem) {n : Nat} {x : List UInt8} (h : x.length = n) :
    Gives mem (deserializeScalar mem n) x x := by
  intro a ha
  subst h
  unfold deserializeScalar
  rw [load_of_holds ha]

theorem walks_length (mem : Mem) {n : Nat} (h : n < 2 ^ 64) : Walks mem (deserializeLength mem) (size_t n) n := by
  have hn := (walks_fetch (gives_scalar mem (size_t_length n))).bind (k := fun l => pure (leNat l)) (Walks.pure mem _)
  rw [List.append_nil, leNat_size_t h] at hn
  exact hn

/-- The loop of a container, after its length. -/
theorem Walks.seq {α : Type} {mem : Mem} {f : Nat → StateM InPtr (List α)} {enc : α → List UInt8} {xs : List α}
    (hlen : xs.length < 2 ^ 64) (hf : Walks mem (f xs.length) (xs.flatMap enc) xs) :
    Walks mem (do let length ← deserializeLength mem; f length) (encodeSeq enc xs) xs :=
  (walks_length mem hlen).bind hf

theorem Walks.sorted {α : Type} {mem : Mem} {f : StateM InPtr α} {enc : α → List UInt8} {lt : α → α → Bool}
    {xs : List α} (hasymm : ∀ x y, lt x y = true → lt y x = false) (hs : xs.Pairwise fun a b => lt a b = true)
    (hf : ∀ x ∈ xs, Walks mem f (enc x) x) :
    Walks mem (walkEach f (insertNew lt) xs.length []) (xs.flatMap enc) xs := by
  have h : Walks mem (walkEach f (insertNew lt) xs.length []) (xs.flatMap enc) (xs.foldl (insertNew lt) []) :=
    Walks.walkEach xs [] hf
  rwa [foldl_insertNew hasymm xs [] (by simpa using hs), List.nil_append] at h

/-- `deserialize` of the stored encoding yields the value, loads these bytes and
returns their number, whatever the destination held. -/
theorem gives_deserialize {mem : Mem} {t : Ty} (dest : Raw t) {x : Raw t} (h : Exact L t x) (hx : Valid D O t x) :
    Gives mem (deserialize D L O mem t dest) (encode t x) x := by
  induction t with
  | scalar s => exact gives_scalar mem hx
  | string =>
    refine Walks.returnSize ?_ (size_eq (O := O) (t := .string) trivial hx)
    exact (walks_length mem hx).bind (walks_fetch (gives_scalar mem rfl))
  | bufferDescription =>
    apply Walks.returnDistance
    have hid := (walks_fetch (gives_scalar mem hx.notificationId)).bind
      (k := fun n => pure (⟨x.rank, x.segmentId, x.offset, x.size, n⟩ : BufferDescription)) (Walks.pure mem _)
    rw [List.append_nil] at hid
    exact (walks_fetch (gives_scalar mem hx.rank)).bind ((walks_fetch (gives_scalar mem hx.segmentId)).bind
      ((walks_fetch (gives_scalar mem hx.offset)).bind ((walks_fetch (gives_scalar mem hx.size)).bind hid)))
  | pair u v hu hv =>
    apply Walks.returnDistance
    have hsecond := (walks_fetch (hv dest.2 h.2 hx.2)).bind
      (k := fun b => pure ((x.1, b) : Raw u × Raw v)) (Walks.pure mem _)
    rw [List.append_nil] at hsecond
    exact (walks_fetch (hu dest.1 h.1 hx.1)).bind hsecond
  | vector t ih =>
    refine Walks.returnSize ?_ (size_eq (O := O) (t := .vector t) (fun y hy => (h y hy).2) hx)
    exact Walks.seq hx.1 (Walks.mapM _ x (resize_length _ _ _) fun d y hy => walks_fetch (ih d (h y hy).1 (hx.2 y hy)))
  | deque t ih =>
    refine Walks.returnSize ?_ (size_eq (O := O) (t := .deque t) (fun y hy => (h y hy).2) hx)
    exact Walks.seq hx.1 (Walks.mapM _ x (resize_length _ _ _) fun d y hy => walks_fetch (ih d (h y hy).1 (hx.2 y hy)))
  | set t ih =>
    refine Walks.returnSize ?_ (size_eq (O := O) (t := .set t) (fun y hy => (h y hy).2) hx)
    exact Walks.seq hx.1 (Walks.sorted (O.asymm .less t) hx.2.2 fun y hy => walks_fetch (ih _ (h y hy).1 (hx.2.1 y hy)))
  | map c u v hu hv =>
    apply Walks.returnDistance
    refine Walks.seq hx.1 (Walks.sorted (fun a b => O.asymm c u a.1 b.1) hx.2.2 fun y hy => ?_)
    have helem := (walks_fetch (hv (Raw.default D v) (h y hy).2 (hx.2.1 y hy).2)).bind
      (k := fun elem => pure ((y.1, elem) : Raw u × Raw v)) (Walks.pure mem _)
    rw [List.append_nil] at helem
    exact (walks_fetch (hu (Raw.default D u) (h y hy).1 (hx.2.1 y hy).1)).bind helem

/-! ## Packets -/

/-- An object with its type. -/
abbrev Object := Σ t : Ty, Raw t

variable (D L O) in
/-- `cPtr += serialize (cPtr, object)`, one after another. -/
def writeAll (objects : List Object) (c : OutPtr) : OutPtr :=
  objects.foldl (fun c o => c.put (serialize D L o.1 o.2)) c

variable (D L O) in
/-- `cPtr += deserialize (object, cPtr)`, one after another. -/
def readAll (mem : Mem) : List Object → StateM InPtr (List Object)
  | [] => pure []
  | o :: objects => do
    let x ← fetch (deserialize D L O mem o.1 o.2)
    let xs ← readAll mem objects
    pure (⟨o.1, x⟩ :: xs)

variable (D O) in
/-- A value of a type without pairs, and what the object it is read into holds. -/
structure Item where
  ty : Ty
  pairFree : ty.PairFree
  val : Val D O ty
  dest : Raw ty

def Item.object (i : Item D O) : Object := ⟨i.ty, i.val.1⟩

def Item.slot (i : Item D O) : Object := ⟨i.ty, i.dest⟩

def Item.bytes (i : Item D O) : List UInt8 := encode i.ty i.val.1

theorem Item.puts (i : Item D O) : Puts (serialize D L i.ty i.val.1) i.bytes :=
  puts_serialize (i.pairFree.exact L i.val.1) i.val.2

theorem Item.gives (i : Item D O) (mem : Mem) : Gives mem (deserialize D L O mem i.ty i.dest) i.bytes i.val.1 :=
  gives_deserialize i.dest (i.pairFree.exact L i.val.1) i.val.2

theorem writeAll_eq (items : List (Item D O)) (a : Nat) :
    writeAll D L (items.map Item.object) ⟨a, []⟩ = .wrote a (items.flatMap Item.bytes) := by
  unfold writeAll
  rw [List.foldl_map, OutPtr.wrote_nil, OutPtr.wrote_foldl a [] items fun i _ bs => OutPtr.wrote_put a bs i.puts]
  rfl

theorem walks_readAll (items : List (Item D O)) (mem : Mem) :
    Walks mem (readAll D L O mem (items.map Item.slot)) (items.flatMap Item.bytes) (items.map Item.object) := by
  induction items with
  | nil => exact Walks.pure mem []
  | cons i items ih =>
    rw [List.map_cons, List.map_cons, List.flatMap_cons]
    unfold readAll
    have htail := ih.bind (k := fun xs => pure (i.object :: xs)) (Walks.pure mem (i.object :: items.map Item.object))
    rw [List.append_nil] at htail
    exact (walks_fetch (i.gives mem)).bind htail

/-- For values of types without pairs: `serialize` stores the bytes the stream
gets, one after another and no other, `size`, `serialize` and `deserialize` all
return their number, and a packet of such values is read back unchanged. -/
theorem buffer_agrees_with_stream (items : List (Item D O)) (buffer : Nat) (mem : Mem) :
    (∀ i ∈ items, ∃ bs, (∀ w, Stream.serialize i.ty i.val.1 ⟨w, true⟩ = .ok ((), ⟨w ++ bs, true⟩)) ∧
      ∀ a, serialize D L i.ty i.val.1 a = ⟨bs.length, stores a bs⟩ ∧
        size D L i.ty i.val.1 = bs.length ∧
        (deserialize D L O (applyStores (stores a bs) mem) i.ty i.dest a).returned = bs.length) ∧
    (readAll D L O (applyStores (writeAll D L (items.map Item.object) ⟨buffer, []⟩).stores mem)
      (items.map Item.slot) ⟨buffer, []⟩).1 = items.map Item.object := by
  constructor
  · intro i _
    refine ⟨i.bytes, Stream.writes_serialize i.ty i.val.1, fun a => ⟨i.puts a, ?_, ?_⟩⟩
    · exact size_eq (i.pairFree.sized L i.val.1) i.val.2
    · rw [i.gives _ a (holds_applyStores a i.bytes mem)]
  · rw [writeAll_eq]
    have hread := walks_readAll (L := L) items (applyStores (stores buffer (items.flatMap Item.bytes)) mem)
      ⟨buffer, []⟩ (holds_applyStores buffer _ mem)
    exact congrArg Prod.fst hread

end Buffer

end GaspiCxx.Serialization
