import MiniTsdb.Lib.Bytes

/-! Keys, entries and records (`utils.h`). Strings are byte strings and compare
as unsigned bytes, timestamps are `int64`. -/

namespace MiniTsdb
open Lib

inductive EntryType
  | kValue
  | kDeletion
  deriving DecidableEq, Repr

structure InternalEntry where
  value : Bytes
  type : EntryType
  deriving DecidableEq, Repr

def InternalEntry.isDeletion (e : InternalEntry) : Bool := e.type == .kDeletion

@[ext] structure TsKey where
  measurement : Bytes
  timestamp : Int64
  deriving DecidableEq, Repr

def TsKey.default : TsKey := ⟨[], 0⟩

structure Record where
  measurement : Bytes
  timestamp : Int64
  value : Bytes
  deleted : Bool
  deriving DecidableEq, Repr

def Record.key (r : Record) : TsKey := ⟨r.measurement, r.timestamp⟩

def toRecord (key : TsKey) (entry : InternalEntry) : Record :=
  ⟨key.measurement, key.timestamp, entry.value, entry.isDeletion⟩

def tsKeyComparator (a b : TsKey) : Ordering :=
  if a.measurement < b.measurement then .lt
  else if b.measurement < a.measurement then .gt
  else if a.timestamp < b.timestamp then .lt
  else if b.timestamp < a.timestamp then .gt
  else .eq

/-- Keys are ordered by measurement, then by timestamp. -/
instance : LinearOrder TsKey :=
  LinearOrder.lift' (fun k : TsKey => toLex (k.measurement, k.timestamp.toInt)) fun a b h => by
    have h' : (a.measurement, a.timestamp.toInt) = (b.measurement, b.timestamp.toInt) := h
    simp only [Prod.mk.injEq, Int64.toInt_inj] at h'
    exact TsKey.ext h'.1 h'.2

theorem TsKey.lt_iff {a b : TsKey} :
    a < b ↔ a.measurement < b.measurement ∨
      a.measurement = b.measurement ∧ a.timestamp < b.timestamp := by
  change toLex (a.measurement, a.timestamp.toInt) < toLex (b.measurement, b.timestamp.toInt) ↔ _
  rw [Prod.Lex.toLex_lt_toLex, Int64.lt_iff_toInt_lt]

theorem TsKey.le_iff {a b : TsKey} :
    a ≤ b ↔ a.measurement < b.measurement ∨
      a.measurement = b.measurement ∧ a.timestamp ≤ b.timestamp := by
  change toLex (a.measurement, a.timestamp.toInt) ≤ toLex (b.measurement, b.timestamp.toInt) ↔ _
  rw [Prod.Lex.toLex_le_toLex, Int64.le_iff_toInt_le]

theorem int64_lt_asymm {x y : Int64} (h : x < y) : ¬ y < x := by
  rw [Int64.lt_iff_toInt_lt] at *; omega

theorem tsKeyComparator_lt_iff {a b : TsKey} : tsKeyComparator a b = .lt ↔ a < b := by
  rw [TsKey.lt_iff, tsKeyComparator]
  rcases lt_trichotomy a.measurement b.measurement with h | h | h
  · simp [h]
  · simp only [h, lt_irrefl, false_or, true_and, if_false]
    split_ifs <;> simp_all
  · simp [h, h.ne', not_lt_of_gt h]

theorem tsKeyComparator_gt_iff {a b : TsKey} : tsKeyComparator a b = .gt ↔ b < a := by
  rw [TsKey.lt_iff, tsKeyComparator]
  rcases lt_trichotomy a.measurement b.measurement with h | h | h
  · simp [h, h.ne', not_lt_of_gt h]
  · simp only [h, lt_irrefl, false_or, true_and, if_false]
    split_ifs with h1 h2
    · simp [int64_lt_asymm h1]
    · simp [h2]
    · simp [h2]
  · simp [h, not_lt_of_gt h]

theorem tsKeyComparator_eq_iff {a b : TsKey} : tsKeyComparator a b = .eq ↔ a = b := by
  constructor
  · intro h
    refine le_antisymm (not_lt.mp fun hlt => ?_) (not_lt.mp fun hlt => ?_)
    · simp [tsKeyComparator_gt_iff.mpr hlt] at h
    · simp [tsKeyComparator_lt_iff.mpr hlt] at h
  · rintro rfl
    cases h : tsKeyComparator a a with
    | lt => exact absurd (tsKeyComparator_lt_iff.mp h) (lt_irrefl a)
    | gt => exact absurd (tsKeyComparator_gt_iff.mp h) (lt_irrefl a)
    | eq => rfl

end MiniTsdb
