import Mathlib

/-! Unsigned sizes of 64 bits. Sums and differences wrap; they are exact where they fit. -/

namespace Lib

def sizeAdd (a b : ℕ) : ℕ := (a + b) % 2 ^ 64

def sizeSub (a b : ℕ) : ℕ := if b ≤ a then a - b else 2 ^ 64 - (b - a)

theorem sizeAdd_eq {a b : ℕ} (h : a + b < 2 ^ 64) : sizeAdd a b = a + b := by
  rw [sizeAdd, Nat.mod_eq_of_lt h]

theorem sizeSub_eq {a b : ℕ} (h : b ≤ a) : sizeSub a b = a - b := if_pos h

end Lib
