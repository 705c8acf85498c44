import MiniTsdb.Proofs.SkipList
import MiniTsdb.Spec.RangeQuery

/-! The memtable on its skip list (`memtable.cpp`): the functions of `MemTable` as calls of the
skip list and walks along its bottom level. -/

namespace MiniTsdb
open Lib

namespace SkipList
variable {κ ν : Type*}

def nextOf (sl : SkipList κ ν) (n : ℕ) : Option ℕ := (sl.nodes n).next_ 0

/-- A walk from a node on, as long as `go` holds of the keys; `none` if it takes more turns. -/
def walkLoop (sl : SkipList κ ν) (go : κ → Bool) : ℕ → Option ℕ → Option (List (κ × ν))
  | _, none => some []
  | 0, some _ => none
  | turns + 1, some n =>
    let key := (sl.nodes n).key
    if go key then (sl.walkLoop go turns (sl.nextOf n)).map ((key, (sl.nodes n).value) :: ·) else some []

def walk [LinearOrder κ] (cmp : Comparator κ) (sl : SkipList κ ν) (start : κ) (go : κ → Bool) :
    Option (List (κ × ν)) :=
  (sl.findGreaterOrEqual cmp start).bind fun found => sl.walkLoop go sl.size found.1

def countLoop (sl : SkipList κ ν) : ℕ → Option ℕ → ℕ → Option ℕ
  | _, none, count => some count
  | 0, some _, _ => none
  | turns + 1, some n, count => sl.countLoop turns ((sl.nodes n).next_ 0) (count + 1)

def count (sl : SkipList κ ν) : Option ℕ := sl.countLoop sl.size ((sl.nodes 0).next_ 0) 0

end SkipList

structure SkipTable where
  table_ : SkipList TsKey InternalEntry
  mem_usage_ : ℕ

namespace SkipTable

def new : SkipTable := ⟨SkipList.new, 0⟩

/-- `height` is what `RandomHeight` returns if it is called. -/
def put (m : SkipTable) (measurement : Bytes) (timestamp : Int64) (value : Bytes) (height : ℕ) :
    Option SkipTable :=
  (m.table_.insert SkipList.tsKey ⟨measurement, timestamp⟩ ⟨value, .kValue⟩ height).map fun table =>
    ⟨table, m.mem_usage_ + (measurement.length + value.length + 8 + 64)⟩

def delete (m : SkipTable) (measurement : Bytes) (timestamp : Int64) (height : ℕ) : Option SkipTable :=
  (m.table_.insert SkipList.tsKey ⟨measurement, timestamp⟩ ⟨[], .kDeletion⟩ height).map fun table =>
    ⟨table, m.mem_usage_ + (measurement.length + 8 + 64)⟩

def getEntry (m : SkipTable) (measurement : Bytes) (timestamp : Int64) : Option (Option InternalEntry) :=
  m.table_.get SkipList.tsKey ⟨measurement, timestamp⟩

def get (m : SkipTable) (measurement : Bytes) (timestamp : Int64) : Option (Option Bytes) :=
  (m.getEntry measurement timestamp).map fun found =>
    match found with
    | none => none
    | some entry => if entry.isDeletion then none else some entry.value

def rangeQueryEntries (m : SkipTable) (measurement : Bytes) (t_start t_end : Int64) :
    Option (List Record) :=
  if t_end < t_start then some []
  else
    (m.table_.walk SkipList.tsKey ⟨measurement, t_start⟩ fun nk =>
      tsKeyComparator nk ⟨measurement, t_end⟩ != .gt).map fun nodes =>
        nodes.map fun node => toRecord node.1 node.2

def rangeQuery (m : SkipTable) (measurement : Bytes) (t_start t_end : Int64) : Option (List Record) :=
  (m.rangeQueryEntries measurement t_start t_end).map fun entries =>
    entries.filter fun record => !record.deleted

def isEmpty (m : SkipTable) : Option Bool :=
  (m.table_.findGreaterOrEqual SkipList.tsKey .default).map fun found => found.1.isNone

def iterateEntries (m : SkipTable) : Option (List (TsKey × InternalEntry)) :=
  m.table_.walk SkipList.tsKey .default fun _ => true

def iterate (m : SkipTable) : Option (List (TsKey × Bytes)) :=
  (m.table_.walk SkipList.tsKey .default fun _ => true).map fun nodes =>
    nodes.filterMap fun node => if !node.2.isDeletion then some (node.1, node.2.value) else none

def count (m : SkipTable) : Option ℕ := m.table_.count

def apply (m : SkipTable) (height : ℕ) : Operation → Option SkipTable
  | .put measurement timestamp value => m.put measurement timestamp value height
  | .delete measurement timestamp => m.delete measurement timestamp height

def applyAll (m : SkipTable) (calls : List (Operation × ℕ)) : Option SkipTable :=
  calls.foldlM (fun m call => m.apply call.2 call.1) m

end SkipTable

end MiniTsdb
