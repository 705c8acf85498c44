import MiniTsdb.Lib.Ascending
import MiniTsdb.Spec.Wal

/-! The memtable (`skiplist.h`, `memtable.h`, `memtable.cpp`). A skip list is its bottom
level here. -/

namespace MiniTsdb
open Lib

/-- `SkipList::Insert`: the first node that is not less is overwritten or gets a new node
in front of it. -/
def insertEntry (key : TsKey) (value : InternalEntry) :
    List (TsKey × InternalEntry) → List (TsKey × InternalEntry)
  | [] => [(key, value)]
  | node :: nodes =>
    if tsKeyComparator node.1 key = .lt then node :: insertEntry key value nodes
    else if tsKeyComparator key node.1 = .eq then (node.1, value) :: nodes
    else (key, value) :: node :: nodes

theorem mem_insertEntry {key : TsKey} {value : InternalEntry} {nodes : List (TsKey × InternalEntry)}
    {e : TsKey × InternalEntry} (h : e ∈ insertEntry key value nodes) :
    e = (key, value) ∨ e ∈ nodes := by
  induction nodes with
  | nil => exact Or.inl (List.mem_singleton.mp h)
  | cons node nodes ih =>
    rw [insertEntry] at h
    split_ifs at h with hlt heq
    · rcases List.mem_cons.mp h with rfl | h
      · exact Or.inr List.mem_cons_self
      · exact (ih h).imp_right (List.mem_cons_of_mem node)
    · rcases List.mem_cons.mp h with rfl | h
      · left
        rw [tsKeyComparator_eq_iff.mp heq]
      · exact Or.inr (List.mem_cons_of_mem node h)
    · exact List.mem_cons.mp h

theorem ascending_insertEntry {nodes : List (TsKey × InternalEntry)} (h : Ascending Prod.fst nodes)
    (key : TsKey) (value : InternalEntry) : Ascending Prod.fst (insertEntry key value nodes) := by
  induction nodes with
  | nil => exact List.pairwise_singleton _ _
  | cons node nodes ih =>
    obtain ⟨hfirst, hrest⟩ := ascending_cons.mp h
    rw [insertEntry]
    split_ifs with hlt heq
    · refine ascending_cons.mpr ⟨fun e he => ?_, ih hrest⟩
      rcases mem_insertEntry he with rfl | he
      · exact tsKeyComparator_lt_iff.mp hlt
      · exact hfirst e he
    · exact ascending_cons.mpr ⟨hfirst, hrest⟩
    · have hkey : key < node.1 := by
        refine lt_of_le_of_ne (not_lt.mp fun hgt => hlt (tsKeyComparator_lt_iff.mpr hgt)) fun he => ?_
        exact heq (tsKeyComparator_eq_iff.mpr he)
      refine ascending_cons.mpr ⟨fun e he => ?_, h⟩
      rcases List.mem_cons.mp he with rfl | he
      · exact hkey
      · exact hkey.trans (hfirst e he)

structure MemTable where
  table : List (TsKey × InternalEntry)
  mem_usage : ℕ
  ascending : Ascending Prod.fst table
  deriving DecidableEq

def MemTable.new : MemTable := ⟨[], 0, ascending_nil⟩

def MemTable.put (m : MemTable) (measurement : Bytes) (timestamp : Int64) (value : Bytes) : MemTable :=
  ⟨insertEntry ⟨measurement, timestamp⟩ ⟨value, .kValue⟩ m.table,
    m.mem_usage + (measurement.length + value.length + 8 + 64), ascending_insertEntry m.ascending _ _⟩

def MemTable.delete (m : MemTable) (measurement : Bytes) (timestamp : Int64) : MemTable :=
  ⟨insertEntry ⟨measurement, timestamp⟩ ⟨[], .kDeletion⟩ m.table,
    m.mem_usage + (measurement.length + 8 + 64), ascending_insertEntry m.ascending _ _⟩

/-- The node that `FindGreaterOrEqual` returns and those behind it. -/
def MemTable.findGreaterOrEqual (m : MemTable) (key : TsKey) : List (TsKey × InternalEntry) :=
  m.table.dropWhile fun node => tsKeyComparator node.1 key == .lt

def MemTable.getEntry (m : MemTable) (key : TsKey) : Option InternalEntry :=
  match m.findGreaterOrEqual key with
  | [] => none
  | node :: _ => if tsKeyComparator key node.1 = .eq then some node.2 else none

/-- Keys below `TsKey{}` do not count. -/
def MemTable.isEmpty (m : MemTable) : Bool := (m.findGreaterOrEqual .default).isEmpty

def MemTable.iterateEntries (m : MemTable) : List (TsKey × InternalEntry) :=
  m.findGreaterOrEqual .default

def MemTable.count (m : MemTable) : ℕ := m.table.length

def MemTable.apply (m : MemTable) : Operation → MemTable
  | .put measurement timestamp value => m.put measurement timestamp value
  | .delete measurement timestamp => m.delete measurement timestamp

end MiniTsdb
