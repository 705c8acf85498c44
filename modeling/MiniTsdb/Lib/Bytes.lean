import Mathlib

/-! Byte strings and fixed-width little-endian integers. A value written in `w`
bytes reads back modulo `256 ^ w`, also in the middle of a longer string. -/

namespace Lib

abbrev Byte := Fin 256
abbrev Bytes := List Byte

instance neZero_byte : NeZero 256 := ⟨by decide⟩

/-- The `w` low bytes of `v`, least significant first. -/
def leBytes : ℕ → ℕ → Bytes
  | 0, _ => []
  | w + 1, v => Fin.ofNat 256 v :: leBytes w (v / 256)

def leValue : Bytes → ℕ
  | [] => 0
  | b :: bs => b.val + 256 * leValue bs

@[simp] theorem leBytes_length (w v : ℕ) : (leBytes w v).length = w := by
  induction w generalizing v with
  | zero => rfl
  | succ w ih => simp [leBytes, ih]

theorem leValue_leBytes (w v : ℕ) : leValue (leBytes w v) = v % 256 ^ w := by
  induction w generalizing v with
  | zero => simp [leBytes, leValue, Nat.mod_one]
  | succ w ih =>
    simp only [leBytes, leValue, ih, Fin.ofNat]
    rw [pow_succ, Nat.mul_comm (256 ^ w), Nat.mod_mul]

theorem leValue_leBytes_of_lt {w v : ℕ} (h : v < 256 ^ w) : leValue (leBytes w v) = v := by
  rw [leValue_leBytes, Nat.mod_eq_of_lt h]

theorem leValue_lt (bs : Bytes) : leValue bs < 256 ^ bs.length := by
  induction bs with
  | nil => simp [leValue]
  | cons b bs ih =>
    have hb := b.isLt
    simp only [leValue, List.length_cons, pow_succ]
    omega

/-- Bytes of one number of digits are their value. -/
theorem leValue_injective {xs ys : Bytes} (hlen : xs.length = ys.length)
    (h : leValue xs = leValue ys) : xs = ys := by
  induction xs generalizing ys with
  | nil => simpa using hlen.symm
  | cons x xs ih =>
    obtain _ | ⟨y, ys⟩ := ys
    · simp at hlen
    have hx := x.isLt
    have hy := y.isLt
    simp only [leValue] at h
    have hhead : x = y := by
      apply Fin.ext
      omega
    rw [hhead, ih (by simpa using hlen) (by omega)]

theorem leValue_append (as bs : Bytes) :
    leValue (as ++ bs) = leValue as + 256 ^ as.length * leValue bs := by
  induction as with
  | nil => simp [leValue]
  | cons a as ih => simp only [List.cons_append, leValue, ih, List.length_cons, pow_succ]; ring

/-- A single byte bounds the value from below. -/
theorem le_leValue (as : Bytes) (b : Byte) (bs : Bytes) :
    256 ^ as.length * b.val ≤ leValue (as ++ b :: bs) := by
  rw [leValue_append, leValue, Nat.mul_add]
  omega

def slice (s : Bytes) (pos n : ℕ) : Bytes := (s.drop pos).take n

theorem slice_length {s : Bytes} {pos n : ℕ} (h : pos + n ≤ s.length) :
    (slice s pos n).length = n := by
  simp [slice]; omega

theorem leValue_slice_lt (s : Bytes) (pos n : ℕ) : leValue (slice s pos n) < 256 ^ n := by
  have hlen : (slice s pos n).length ≤ n := List.length_take_le _ _
  calc leValue (slice s pos n) < 256 ^ (slice s pos n).length := leValue_lt _
    _ ≤ 256 ^ n := Nat.pow_le_pow_right (by norm_num) hlen

theorem slice_append_right (p s : Bytes) (pos n : ℕ) :
    slice (p ++ s) (p.length + pos) n = slice s pos n := by
  rw [slice, slice, ← List.drop_drop, List.drop_left]

@[simp] theorem slice_append (p m s : Bytes) : slice (p ++ (m ++ s)) p.length m.length = m := by
  simp [slice]

theorem slice_append_of_eq {p m s : Bytes} {pos n : ℕ} (hp : pos = p.length) (hn : n = m.length) :
    slice (p ++ (m ++ s)) pos n = m := by
  subst hp hn; exact slice_append p m s

theorem slice_append_left {m s : Bytes} {n : ℕ} (hn : n = m.length) : slice (m ++ s) 0 n = m := by
  subst hn; simp [slice]

theorem slice_append_of_le {s : Bytes} (rest : Bytes) {pos n : ℕ} (h : pos + n ≤ s.length) :
    slice (s ++ rest) pos n = slice s pos n := by
  rw [slice, slice, List.drop_append_of_le_length (by omega), List.take_append_of_le_length]
  rw [List.length_drop]
  omega

theorem slice_set_inside (s : Bytes) {pos n i : ℕ} (b : Byte) (h : pos ≤ i) :
    slice (s.set i b) pos n = (slice s pos n).set (i - pos) b := by
  rw [slice, slice, List.drop_set, if_neg (by omega), List.take_set]

theorem slice_set_behind (s : Bytes) {pos n i : ℕ} (b : Byte) (h : pos + n ≤ i) :
    slice (s.set i b) pos n = slice s pos n := by
  rw [slice_set_inside s b (by omega), List.set_eq_of_length_le]
  simp [slice]
  omega

theorem slice_set_before (s : Bytes) {pos n i : ℕ} (b : Byte) (h : i < pos) :
    slice (s.set i b) pos n = slice s pos n := by
  rw [slice, slice, List.drop_set, if_pos h]

theorem slice_getElem? (s : Bytes) {pos n i : ℕ} (hi : pos ≤ i) (hn : i < pos + n) :
    (slice s pos n)[i - pos]? = s[i]? := by
  rw [slice, List.getElem?_take, if_pos (by omega), List.getElem?_drop,
    show pos + (i - pos) = i by omega]

theorem getElem?_of_drop {s : Bytes} {pos : ℕ} {b : Byte} {rest : Bytes}
    (h : s.drop pos = b :: rest) : s[pos]? = some b := by
  rw [← List.head?_drop, h]
  rfl

theorem drop_add_of_drop {s c rest : Bytes} {pos : ℕ} (h : s.drop pos = c ++ rest) :
    s.drop (pos + c.length) = rest := by
  rw [← List.drop_drop, h, List.drop_left]

theorem slice_of_drop {s chunk rest : Bytes} {pos : ℕ} (h : s.drop pos = chunk ++ rest) :
    slice s pos chunk.length = chunk := by
  rw [slice, h, List.take_left]

theorem pos_add_le_of_drop {s chunk rest : Bytes} {pos : ℕ} (h : s.drop pos = chunk ++ rest)
    (hne : chunk ++ rest ≠ []) : pos + (chunk ++ rest).length = s.length := by
  have hlen := congrArg List.length h
  have hpos := List.length_pos_of_ne_nil hne
  rw [List.length_drop] at hlen
  omega

end Lib
