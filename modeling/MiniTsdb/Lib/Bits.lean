import MiniTsdb.Lib.Bytes

/-! Bits of a number, from its low and from its high end, and the bits of a byte string. -/

namespace Lib

/-- The `n` low bits of `v`, the lowest first. -/
def lsbBits (n v : ℕ) : List Bool := (List.range n).map v.testBit

/-- The `n` low bits of `v`, the highest first. -/
def msbBits : ℕ → ℕ → List Bool
  | 0, _ => []
  | n + 1, v => v.testBit n :: msbBits n v

/-- Each byte from its low end. -/
def bitsOf (s : Bytes) : List Bool := s.flatMap fun b => lsbBits 8 b.val

@[simp] theorem lsbBits_zero (v : ℕ) : lsbBits 0 v = [] := rfl

@[simp] theorem bitsOf_nil : bitsOf [] = [] := rfl

@[simp] theorem bitsOf_append (s u : Bytes) : bitsOf (s ++ u) = bitsOf s ++ bitsOf u := by
  simp [bitsOf]

@[simp] theorem bitsOf_cons (b : Byte) (s : Bytes) :
    bitsOf (b :: s) = lsbBits 8 b.val ++ bitsOf s := by
  simp [bitsOf]

theorem lsbBits_succ (n v : ℕ) : lsbBits (n + 1) v = v.testBit 0 :: lsbBits n (v >>> 1) := by
  simp [lsbBits, List.range_succ_eq_map, Nat.testBit_shiftRight, Nat.add_comm]

theorem testBit_toNat_shiftLeft (b : Bool) (n i : ℕ) :
    (b.toNat <<< n).testBit i = (decide (i = n) && b) := by
  rw [Nat.testBit_shiftLeft]
  rcases lt_trichotomy i n with h | rfl | h
  · simp [Nat.not_le.mpr h, h.ne]
  · cases b <;> simp
  · obtain ⟨k, hk⟩ : ∃ k, i - n = k + 1 := ⟨i - n - 1, by omega⟩
    cases b <;> simp [hk, h.ne', Nat.testBit_succ]

theorem lsbBits_or_shiftLeft {n v : ℕ} (h : v < 2 ^ n) (b : Bool) :
    lsbBits (n + 1) (v ||| b.toNat <<< n) = lsbBits n v ++ [b] := by
  have hlow : (List.range n).map (v ||| b.toNat <<< n).testBit = (List.range n).map v.testBit := by
    refine List.map_congr_left fun i hi => ?_
    have hne : i ≠ n := (List.mem_range.mp hi).ne
    rw [Nat.testBit_or, testBit_toNat_shiftLeft]
    simp [hne]
  have htop : (v ||| b.toNat <<< n).testBit n = b := by
    rw [Nat.testBit_or, testBit_toNat_shiftLeft, Nat.testBit_lt_two_pow h]
    simp
  rw [lsbBits, List.range_succ, List.map_append, hlow, List.map_singleton, htop, lsbBits]

theorem or_shiftLeft_lt {n v : ℕ} (h : v < 2 ^ n) (b : Bool) :
    v ||| b.toNat <<< n < 2 ^ (n + 1) := by
  refine Nat.or_lt_two_pow (h.trans (Nat.pow_lt_pow_right (by norm_num) (by omega))) ?_
  rw [Nat.shiftLeft_eq, pow_succ, Nat.mul_comm (2 ^ n)]
  exact Nat.mul_lt_mul_of_pos_right (by cases b <;> simp) (by positivity)

/-- The bits above the last one that was written are zero. -/
theorem lsbBits_add {n k v : ℕ} (h : v < 2 ^ n) :
    lsbBits (n + k) v = lsbBits n v ++ List.replicate k false := by
  induction k with
  | zero => simp
  | succ k ih =>
    have hbit : v.testBit (n + k) = false :=
      Nat.testBit_lt_two_pow (h.trans_le (Nat.pow_le_pow_right (by norm_num) (by omega)))
    rw [← Nat.add_assoc, lsbBits, List.range_succ, List.map_append, ← lsbBits, ih,
      List.map_singleton, hbit, List.append_assoc, ← List.replicate_succ']

end Lib
