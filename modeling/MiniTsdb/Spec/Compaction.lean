import MiniTsdb.Lib.Merge
import MiniTsdb.Spec.SSTable
import MiniTsdb.Spec.Startup

/-! TTL rules, and `Compaction::Run` (`compaction.h`, `compaction.cpp`) in two parts: what
happens before its output loop, and one turn of that loop. -/

namespace MiniTsdb
open Lib

structure TtlRule where
  ttl_seconds : Int64
  latest_timestamp : Int64
  deriving DecidableEq, Repr

def TtlRule.default : TtlRule := ⟨0, Int64.minValue⟩

abbrev TtlMap := Bytes → Option TtlRule

/-- The threshold wraps here where the source overflows. -/
def isExpiredByRule (rule : TtlRule) (timestamp : Int64) : Bool :=
  if rule.ttl_seconds ≤ 0 ∨ rule.latest_timestamp = Int64.minValue then false
  else
    let threshold := rule.latest_timestamp - rule.ttl_seconds * 1000000000
    timestamp < threshold

def isExpiredInMap (ttl_map : TtlMap) (measurement : Bytes) (timestamp : Int64) : Bool :=
  match ttl_map measurement with
  | none => false
  | some rule => isExpiredByRule rule timestamp

def keepRecordForCompaction (record : Record) (ttl_map : TtlMap) : Bool :=
  match ttl_map record.measurement with
  | none => true
  | some rule => !isExpiredByRule rule record.timestamp

structure CompactionInput where
  level : ℤ
  file : FileMeta
  deriving DecidableEq, Repr

structure CompactionJob where
  inputs : List CompactionInput
  output_level : ℤ
  deriving DecidableEq, Repr

structure CompactionResult where
  edit : VersionEdit
  new_readers : List TableReader
  new_files : List Bytes
  deriving DecidableEq, Repr

def CompactionResult.empty : CompactionResult := ⟨⟨[], []⟩, [], []⟩

def Record.pair (r : Record) : TsKey × InternalEntry :=
  (r.key, ⟨r.value, if r.deleted then .kDeletion else .kValue⟩)

def SSTable.records (t : SSTable) : List Record := t.entries.map fun e => toRecord e.1 e.2

def SSTable.rangeScanEntries (t : SSTable) (first last : TsKey) : List Record :=
  t.records.filter fun r => decide (first ≤ r.key ∧ r.key ≤ last)

/-- A builder with its default block size, filled and finished. -/
def finishTable (entries : List (TsKey × InternalEntry)) : Option SSTable :=
  (buildSSTable 4096 entries).map fun file => ⟨entries, file.length⟩

/-- The filtered records of all inputs, sorted by key with the later input first, and the
first one of each key. -/
def mergeRecords (filter : Record → Bool) (inputs : List (List Record)) : List Record :=
  mergeRanked Record.key (inputs.map fun records => records.filter filter)

/-- `Run` up to its output loop: the merged records, and the edit with its deletions. -/
def runInputs (job : CompactionJob) (reader : Bytes → List Record) (filter : Record → Bool) :
    Except Status (List Record × CompactionResult) :=
  if job.inputs.isEmpty then .ok ([], .empty)
  else if job.output_level ≥ kMaxLevel then .error (.invalidArgument "Too many levels")
  else
    let merged := mergeRecords filter (job.inputs.map fun input => reader input.file.file_name)
    let deleted := job.inputs.filter fun input => (levelIndex input.level).isSome
    .ok (merged, { CompactionResult.empty with
      edit := ⟨[], deleted.map fun input => (input.level, input.file.file_number)⟩ })

def takeChunk (target : ℕ) : ℕ → List Record → List Record × List Record
  | _, [] => ([], [])
  | approx_bytes, r :: rs =>
    let approx_bytes := approx_bytes + r.measurement.length + r.value.length + 32
    if approx_bytes ≥ target then ([r], rs)
    else
      let (chunk, rest) := takeChunk target approx_bytes rs
      (r :: chunk, rest)

/-- A target of zero stands for no limit. -/
def targetBytes (target_file_size : ℕ) : ℕ :=
  if target_file_size = 0 then 2 ^ 64 - 1 else target_file_size

def CompactionResult.addOutput (result : CompactionResult) (output_level : ℤ) (file : FileMeta)
    (t : SSTable) : CompactionResult :=
  { edit := { result.edit with added_files := result.edit.added_files ++ [(output_level, file)] }
    new_readers := result.new_readers ++ [⟨file.file_name, t⟩]
    new_files := result.new_files ++ [file.file_name] }

theorem takeChunk_snd_lt (target approx : ℕ) {records : List Record} (h : records ≠ []) :
    (takeChunk target approx records).2.length < records.length := by
  induction records generalizing approx with
  | nil => contradiction
  | cons r rs ih =>
    rw [takeChunk]
    dsimp only
    split_ifs
    · exact Nat.lt_succ_self _
    · cases rs with
      | nil => exact Nat.zero_lt_one
      | cons r' rs => exact (ih _ (List.cons_ne_nil r' rs)).trans (Nat.lt_succ_self _)

/-- The output loop of `Run`, with every file operation successful. -/
def runOutputs (target_file_size : ℕ) (output_level : ℤ) (vm : VersionManager)
    (result : CompactionResult) (records : List Record) : Option (VersionManager × CompactionResult) :=
  if _h : records = [] then some (vm, result)
  else
    let chunk := takeChunk (targetBytes target_file_size) 0 records
    match finishTable (chunk.1.map Record.pair) with
    | none => none
    | some t =>
      let (new_num, vm) := vm.newFileNumber
      runOutputs target_file_size output_level vm
        (result.addOutput output_level (t.fileMeta new_num (vm.newFileName new_num)) t) chunk.2
termination_by records.length
decreasing_by exact takeChunk_snd_lt _ _ _h

def compactionRun (vm : VersionManager) (target_file_size : ℕ) (job : CompactionJob)
    (reader : Bytes → List Record) (filter : Record → Bool) :
    Option (Except Status (VersionManager × CompactionResult)) :=
  match runInputs job reader filter with
  | .error s => some (.error s)
  | .ok (merged, result) =>
    (runOutputs target_file_size job.output_level vm result merged).map Except.ok

end MiniTsdb
