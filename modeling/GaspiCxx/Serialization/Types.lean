import GaspiCxx.Serialization.ByteStream

/-!
# The serializable types

The grammar the overloads of `serialize` cover, and its values. A scalar is its
object representation, which is copied byte for byte; a set or a map is its
elements in iteration order. `Valid` says which of these a C++ object can be: a
scalar has as many bytes as its type, every length fits `size_t`, and sets and
maps are in the order of their comparator.

`encode` is the byte sequence of a value; the functions of the source are
compared with it, and through it with one another.
-/

namespace GaspiCxx.Serialization

open Bytes

/-- The types `serialization.cpp` instantiates the generic template for. -/
inductive Scalar where
  | char | unsigned_char | short | unsigned_short | int | unsigned_int | long | unsigned_long | float | double
  deriving DecidableEq, Repr

/-- `sizeof`, where `long` has 64 bits. -/
def Scalar.sizeof : Scalar → Nat
  | .char | .unsigned_char => 1
  | .short | .unsigned_short => 2
  | .int | .unsigned_int | .float => 4
  | .long | .unsigned_long | .double => 8

theorem Scalar.sizeof_pos (s : Scalar) : 0 < s.sizeof := by cases s <;> decide

/-- `sizeof (size_t)`. -/
def sizeof_size_t : Nat := 8

/-- The representation of a `size_t`. -/
def size_t (n : Nat) : List UInt8 := leBytes sizeof_size_t n

@[simp] theorem size_t_length (n : Nat) : (size_t n).length = sizeof_size_t := leBytes_length _ _

theorem leNat_size_t {n : Nat} (h : n < 2 ^ 64) : leNat (size_t n) = n :=
  leNat_leBytes sizeof_size_t n (by simpa [sizeof_size_t] using h)

/-- The type of a map's third parameter; a set has the first one. -/
inductive Comparator where
  | less
  | other (n : Nat)
  deriving DecidableEq, Repr

inductive Ty where
  | scalar (s : Scalar)
  | string
  | bufferDescription
  | pair (u v : Ty)
  | vector (t : Ty)
  | deque (t : Ty)
  | set (t : Ty)
  | map (c : Comparator) (u v : Ty)
  deriving DecidableEq, Repr

structure BufferDescription where
  rank : List UInt8
  segmentId : List UInt8
  offset : List UInt8
  size : List UInt8
  notificationId : List UInt8
  deriving DecidableEq, Repr

/-- The scalar types behind the names of `GASPI.h`. -/
structure Typedefs where
  gaspi_rank_t : Scalar
  gaspi_segment_id_t : Scalar
  gaspi_offset_t : Scalar
  gaspi_size_t : Scalar
  gaspi_notification_id_t : Scalar

/-- As `GASPI.h` has them. -/
def gaspi : Typedefs where
  gaspi_rank_t := .unsigned_short
  gaspi_segment_id_t := .unsigned_char
  gaspi_offset_t := .unsigned_long
  gaspi_size_t := .unsigned_long
  gaspi_notification_id_t := .unsigned_short

@[reducible] def Raw : Ty → Type
  | .scalar _ => List UInt8
  | .string => List UInt8
  | .bufferDescription => BufferDescription
  | .pair u v => Raw u × Raw v
  | .vector t => List (Raw t)
  | .deque t => List (Raw t)
  | .set t => List (Raw t)
  | .map _ u v => List (Raw u × Raw v)

/-- The element orders of sets and maps. -/
structure Orders where
  lt : Comparator → (t : Ty) → Raw t → Raw t → Bool
  asymm : ∀ c t x y, lt c t x y = true → lt c t y x = false

variable (D : Typedefs) (O : Orders)

structure BufferDescription.Valid (d : BufferDescription) : Prop where
  rank : d.rank.length = D.gaspi_rank_t.sizeof
  segmentId : d.segmentId.length = D.gaspi_segment_id_t.sizeof
  offset : d.offset.length = D.gaspi_offset_t.sizeof
  size : d.size.length = D.gaspi_size_t.sizeof
  notificationId : d.notificationId.length = D.gaspi_notification_id_t.sizeof

def Valid : (t : Ty) → Raw t → Prop
  | .scalar s, (x : List UInt8) => x.length = s.sizeof
  | .string, (x : List UInt8) => x.length < 2 ^ 64
  | .bufferDescription, (x : BufferDescription) => x.Valid D
  | .pair u v, (x : Raw u × Raw v) => Valid u x.1 ∧ Valid v x.2
  | .vector t, (xs : List (Raw t)) => xs.length < 2 ^ 64 ∧ ∀ x ∈ xs, Valid t x
  | .deque t, (xs : List (Raw t)) => xs.length < 2 ^ 64 ∧ ∀ x ∈ xs, Valid t x
  | .set t, (xs : List (Raw t)) =>
    xs.length < 2 ^ 64 ∧ (∀ x ∈ xs, Valid t x) ∧ xs.Pairwise fun a b => O.lt .less t a b = true
  | .map c u v, (xs : List (Raw u × Raw v)) =>
    xs.length < 2 ^ 64 ∧ (∀ x ∈ xs, Valid u x.1 ∧ Valid v x.2) ∧ xs.Pairwise fun a b => O.lt c u a.1 b.1 = true

/-- The values of a type. -/
def Val (t : Ty) : Type := { x : Raw t // Valid D O t x }

/-- A default-constructed object; a scalar on the stack is whatever was there. -/
def Raw.default : (t : Ty) → Raw t
  | .scalar s => List.replicate s.sizeof 0
  | .string => []
  | .bufferDescription =>
    { rank := .replicate D.gaspi_rank_t.sizeof 0
      segmentId := .replicate D.gaspi_segment_id_t.sizeof 0
      offset := .replicate D.gaspi_offset_t.sizeof 0
      size := .replicate D.gaspi_size_t.sizeof 0
      notificationId := .replicate D.gaspi_notification_id_t.sizeof 0 }
  | .pair u v => (Raw.default u, Raw.default v)
  | .vector _ => []
  | .deque _ => []
  | .set _ => []
  | .map _ _ _ => []

theorem Raw.default_valid (t : Ty) : Valid D O t (Raw.default D t) := by
  induction t with
  | scalar s => exact List.length_replicate
  | string => exact Nat.two_pow_pos 64
  | bufferDescription => constructor <;> exact List.length_replicate
  | pair u v hu hv => exact ⟨hu, hv⟩
  | vector t => exact ⟨Nat.two_pow_pos 64, fun _ h => absurd h List.not_mem_nil⟩
  | deque t => exact ⟨Nat.two_pow_pos 64, fun _ h => absurd h List.not_mem_nil⟩
  | set t => exact ⟨Nat.two_pow_pos 64, fun _ h => absurd h List.not_mem_nil, .nil⟩
  | map c u v => exact ⟨Nat.two_pow_pos 64, fun _ h => absurd h List.not_mem_nil, .nil⟩

/-- Length and elements, as all containers are written. -/
def encodeSeq {α : Type} (enc : α → List UInt8) (xs : List α) : List UInt8 := size_t xs.length ++ xs.flatMap enc

/-- The bytes of a value. -/
def encode : (t : Ty) → Raw t → List UInt8
  | .scalar _, (x : List UInt8) => x
  | .string, (x : List UInt8) => size_t x.length ++ x
  | .bufferDescription, (x : BufferDescription) =>
    x.rank ++ (x.segmentId ++ (x.offset ++ (x.size ++ x.notificationId)))
  | .pair u v, (x : Raw u × Raw v) => encode u x.1 ++ encode v x.2
  | .vector t, (xs : List (Raw t)) => encodeSeq (encode t) xs
  | .deque t, (xs : List (Raw t)) => encodeSeq (encode t) xs
  | .set t, (xs : List (Raw t)) => encodeSeq (encode t) xs
  | .map _ u v, (xs : List (Raw u × Raw v)) => encodeSeq (fun x => encode u x.1 ++ encode v x.2) xs

end GaspiCxx.Serialization
