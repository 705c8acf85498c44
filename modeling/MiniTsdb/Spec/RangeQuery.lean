import MiniTsdb.Spec.Engine

/-! `Get` and `RangeQuery` on a read view whose files are open SSTable readers
(`tsdb_engine.cpp`). No answer is undefined behaviour of the bloom filter. -/

namespace MiniTsdb
open Lib

def MemTable.rangeQueryEntries (m : MemTable) (measurement : Bytes) (t_start t_end : Int64) :
    List Record :=
  if t_end < t_start then []
  else
    ((m.findGreaterOrEqual ⟨measurement, t_start⟩).takeWhile fun node =>
      tsKeyComparator node.1 ⟨measurement, t_end⟩ != .gt).map fun node => toRecord node.1 node.2

/-- `ReaderRef`: a file of the version and its reader. -/
structure FileRef where
  file : FileMeta
  reader : SSTableReader
  deriving DecidableEq, Repr

structure FileView where
  mem : MemTable
  imm : Option MemTable
  levels : Fin kMaxLevel → List FileRef
  ttl_map : TtlMap

/-- The entry of one file, unless the bounds exclude the key. -/
def FileRef.getEntry (ref : FileRef) (key : TsKey) : Option (Option InternalEntry) :=
  if tsKeyComparator key ref.file.smallest = .lt ∨ tsKeyComparator key ref.file.largest = .gt then
    some none
  else ref.reader.getEntry key

/-- The files in the order in which both walk over them: level by level, the last file first. -/
def FileView.newestFirst (view : FileView) : List FileRef :=
  (List.finRange kMaxLevel).flatMap fun l => (view.levels l).reverse

def searchFiles (key : TsKey) : List FileRef → Option (Option InternalEntry)
  | [] => some none
  | ref :: refs =>
    match ref.getEntry key with
    | none => none
    | some (some entry) => some (some entry)
    | some none => searchFiles key refs

def FileView.getFromSSTables (view : FileView) (key : TsKey) : Option (Option InternalEntry) :=
  searchFiles key view.newestFirst

def FileView.get (view : FileView) (key : TsKey) : Option (Option Bytes) :=
  if isExpiredInMap view.ttl_map key.measurement key.timestamp then some none
  else match view.mem.getEntry key with
    | some entry => some entry.read
    | none => match view.imm.bind fun imm => imm.getEntry key with
      | some entry => some entry.read
      | none => (view.getFromSSTables key).map fun found => found.bind InternalEntry.read

def addSourceRecords (records : List Record) (rank : ℕ) : List (Record × ℕ) :=
  records.map fun record => (record, rank)

/-- The records of one level, each file with its rank, the last file first. -/
def levelRecords (files : List FileRef) (level : ℕ) (first last : TsKey) : List (Record × ℕ) :=
  files.reverse.zipIdx.flatMap fun f =>
    addSourceRecords (f.1.reader.rangeScanEntries first last) (2 + level * 100000 + f.2)

/-- `all` before it is sorted. -/
def FileView.sourceRecords (view : FileView) (measurement : Bytes) (t_start t_end : Int64) :
    List (Record × ℕ) :=
  addSourceRecords (view.mem.rangeQueryEntries measurement t_start t_end) 0 ++
    ((match view.imm with
      | none => []
      | some imm => addSourceRecords (imm.rangeQueryEntries measurement t_start t_end) 1) ++
    (List.finRange kMaxLevel).flatMap fun l =>
      levelRecords (view.levels l) l.val ⟨measurement, t_start⟩ ⟨measurement, t_end⟩)

/-- `RangeQuery` on the view. No two records of `all` have both key and rank in common, so
the sort leaves no choice; of each key the first record counts. -/
def FileView.rangeQuery (view : FileView) (measurement : Bytes) (t_start t_end : Int64) :
    List Record :=
  if t_end < t_start then []
  else
    let all := sortBy (byRank Record.key) (view.sourceRecords measurement t_start t_end)
    (firstOfEach Record.key none all).filter fun latest =>
      !latest.deleted && !isExpiredInMap view.ttl_map measurement latest.timestamp

end MiniTsdb
