import Mathlib

/-!
# `std::copy` between user memory and buffers

User memory is a function of the index, and memory never written is `none`.
-/

namespace GaspiCxx.Collectives

variable {T : Type}

/-- The first `k` elements behind a pointer. -/
def readFrom (p : Nat → T) (k : Nat) : List T := (List.range k).map p

/-- `std::copy(block, out + offset)`. -/
def copyTo (out : Nat → Option T) (offset : Nat) (block : List T) : Nat → Option T :=
  fun j => if offset ≤ j ∧ j < offset + block.length then block[j - offset]? else out j

@[simp] theorem length_readFrom (p : Nat → T) (k : Nat) : (readFrom p k).length = k := by
  simp [readFrom]

theorem getElem?_readFrom (p : Nat → T) {i k : Nat} (h : i < k) : (readFrom p k)[i]? = some (p i) := by
  simp [readFrom, h]

theorem take_readFrom (p : Nat → T) (k : Nat) : (readFrom p k).take k = readFrom p k :=
  List.take_of_length_le (by simp)

end GaspiCxx.Collectives
