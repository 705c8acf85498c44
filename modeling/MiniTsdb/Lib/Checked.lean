import Mathlib

/-! Signed 64-bit arithmetic in which an overflow has no result. Where there is a result it
is the integer one, and the one of the arithmetic that wraps. -/

namespace Lib

/-- An integer that 64 bits hold. -/
def Fits64 (i : ℤ) : Prop := -2 ^ 63 ≤ i ∧ i < 2 ^ 63

instance (i : ℤ) : Decidable (Fits64 i) := inferInstanceAs (Decidable (_ ∧ _))

def checked (i : ℤ) : Option Int64 := if Fits64 i then some (Int64.ofInt i) else none

def addInt64 (a b : Int64) : Option Int64 := checked (a.toInt + b.toInt)
def subInt64 (a b : Int64) : Option Int64 := checked (a.toInt - b.toInt)
def mulInt64 (a b : Int64) : Option Int64 := checked (a.toInt * b.toInt)
def negInt64 (a : Int64) : Option Int64 := checked (-a.toInt)

theorem fits64_toInt (a : Int64) : Fits64 a.toInt := ⟨a.le_toInt, a.toInt_lt⟩

theorem toInt_ofInt_of_fits {i : ℤ} (h : Fits64 i) : (Int64.ofInt i).toInt = i :=
  Int64.toInt_ofInt_of_le h.1 h.2

theorem checked_eq_some_iff {i : ℤ} {a : Int64} : checked i = some a ↔ a.toInt = i := by
  unfold checked
  split_ifs with h
  · rw [Option.some.injEq, ← Int64.toInt_inj, toInt_ofInt_of_fits h, eq_comm]
  · refine iff_of_false (by simp) fun heq => h ?_
    rw [← heq]
    exact fits64_toInt a

theorem checked_eq_none_iff {i : ℤ} : checked i = none ↔ ¬ Fits64 i := by
  unfold checked
  split_ifs with h <;> simp [h]

theorem checked_of_fits {i : ℤ} (h : Fits64 i) : checked i = some (Int64.ofInt i) := if_pos h

theorem bmod_of_fits {i : ℤ} (h : Fits64 i) : i.bmod (2 ^ 64) = i := by
  obtain ⟨hlow, hhigh⟩ := h
  apply Int.bmod_eq_of_le
  · norm_num at *
    exact hlow
  · norm_num at *
    exact hhigh

theorem subInt64_eq_some {a b c : Int64} (h : subInt64 a b = some c) : a - b = c := by
  have hc := checked_eq_some_iff.mp h
  apply Int64.toInt_inj.mp
  rw [Int64.toInt_sub, ← hc, bmod_of_fits (fits64_toInt c)]

theorem mulInt64_eq_some {a b c : Int64} (h : mulInt64 a b = some c) : a * b = c := by
  have hc := checked_eq_some_iff.mp h
  apply Int64.toInt_inj.mp
  rw [Int64.toInt_mul, ← hc, bmod_of_fits (fits64_toInt c)]

theorem addInt64_of_fits {a b : Int64} (h : Fits64 (a.toInt + b.toInt)) :
    addInt64 a b = some (a + b) := by
  rw [addInt64, checked_eq_some_iff, Int64.toInt_add, bmod_of_fits h]

theorem subInt64_of_fits {a b : Int64} (h : Fits64 (a.toInt - b.toInt)) :
    subInt64 a b = some (a - b) := by
  rw [subInt64, checked_eq_some_iff, Int64.toInt_sub, bmod_of_fits h]

theorem negInt64_of_fits {a : Int64} (h : Fits64 (-a.toInt)) : negInt64 a = some (-a) := by
  rw [negInt64, checked_eq_some_iff, Int64.toInt_neg, bmod_of_fits h]

end Lib
