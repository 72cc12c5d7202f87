import GaspiCxx.Group.Utilities

/-!
# Rank arithmetic (`group/Rank`)

A `Rank` is an `unsigned short`: sums and differences are taken modulo `2^16`
before `operator%` reduces them to the group. For groups of at most `2^15`
ranks nothing wraps around.
-/

namespace GaspiCxx.Rank

/-- `Rank::operator+`. -/
def add (a b : Nat) : Nat := (a + b) % 2 ^ 16

/-- `Rank::operator-`. -/
def sub (a b : Nat) : Nat := (a + (2 ^ 16 - b % 2 ^ 16)) % 2 ^ 16

variable {n a b : Nat}

theorem add_mod (ha : a < n) (hb : b < n) (hn : n ≤ 2 ^ 15) :
    add a b % n = if a + b < n then a + b else a + b - n := by
  have h : add a b = a + b := Nat.mod_eq_of_lt (by omega)
  rw [h]
  split
  · exact Nat.mod_eq_of_lt (by omega)
  · rw [Nat.mod_eq_sub_mod (by omega), Nat.mod_eq_of_lt (by omega)]

theorem sub_mod (ha : a < n) (hb : b < n) (hn : n ≤ 2 ^ 15) :
    sub (add a n) b % n = if b ≤ a then a - b else a + n - b := by
  have h1 : add a n = a + n := Nat.mod_eq_of_lt (by omega)
  have h2 : sub (add a n) b = a + n - b := by
    rw [h1, sub, Nat.mod_eq_of_lt (show b < 2 ^ 16 by omega),
      show a + n + (2 ^ 16 - b) = (a + n - b) + 2 ^ 16 by omega, Nat.add_mod_right]
    exact Nat.mod_eq_of_lt (by omega)
  rw [h2]
  split
  · rw [show a + n - b = (a - b) + n by omega, Nat.add_mod_right]
    exact Nat.mod_eq_of_lt (by omega)
  · exact Nat.mod_eq_of_lt (by omega)

/-- A truncated sum of two ranks reduces to the same rank only if nothing was
cut off: `n` does not divide `2^16`. -/
theorem truncated_mod_iff (hn : n < 2 ^ 16) (ha : a < 2 * n) : a % 2 ^ 16 % n = a % n ↔ a < 2 ^ 16 := by
  constructor
  · intro h
    by_contra hw
    rw [Nat.mod_eq_sub_mod (show 2 ^ 16 ≤ a by omega), Nat.mod_eq_of_lt (show a - 2 ^ 16 < 2 ^ 16 by omega),
      Nat.mod_eq_of_lt (show a - 2 ^ 16 < n by omega), Nat.mod_eq_sub_mod (show n ≤ a by omega),
      Nat.mod_eq_of_lt (show a - n < n by omega)] at h
    omega
  · intro h
    rw [Nat.mod_eq_of_lt h]

end GaspiCxx.Rank
