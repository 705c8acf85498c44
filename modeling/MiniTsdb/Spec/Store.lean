import MiniTsdb.Spec.Compaction

/-! The SSTable side of `TsdbEngine`: the version and its readers, the flush thread from
the built file on, and compactions from the pick to the commit. Every file operation
succeeds. Each action is a stretch that runs under one lock, or outside any. -/

namespace MiniTsdb
open Lib

def kL0CompactionTrigger : ℕ := 4
def kL0StopTrigger : ℕ := 12
def kLevelSizeBase : ℕ := 1024 * 1024

structure PendingDelete where
  file_name : Bytes
  reader : Option TableReader
  deriving DecidableEq, Repr

structure CompactionWork where
  job : CompactionJob
  ttl_snapshot : TtlMap

/-- A compaction between pick and commit. `rest` holds the merged records that are not
written yet, once the inputs are read. -/
structure CompactionRun where
  work : CompactionWork
  rest : Option (List Record)
  result : CompactionResult

/-- `built` is the file the flush thread has finished and not committed. `flushed` is
history: the committed flushes, newest first, which no operation reads. -/
structure Store where
  vmgr : VersionManager
  sst_readers : List TableReader
  target_file_size : ℕ
  compaction_in_progress : Bool
  compacting_files : List ℕ
  pending_delete : List PendingDelete
  files : Files
  dir : SstDir
  built : Option (ℕ × SSTable)
  compaction : Option CompactionRun
  flushed : List (List (TsKey × InternalEntry))

def writeTable (dir : SstDir) (name : Bytes) (t : SSTable) : SstDir :=
  (dir.filter fun e => e.1 != name) ++ [(name, some t)]

def removeTable (db_dir : Bytes) (dir : SstDir) (path : Bytes) : SstDir :=
  dir.filter fun e => joinPath db_dir e.1 != path

structure ReaderRef where
  file : FileMeta
  reader : TableReader
  deriving DecidableEq, Repr

def Store.captureLevels (s : Store) (l : Fin kMaxLevel) : List ReaderRef :=
  (s.vmgr.current.level_files l).filterMap fun f =>
    (findReader s.sst_readers f.file_name).map fun r => ⟨f, r⟩

/-- The entry of one file, unless the bounds exclude the key. -/
def ReaderRef.getEntry (ref : ReaderRef) (key : TsKey) : Option InternalEntry :=
  if tsKeyComparator key ref.file.smallest = .lt ∨ tsKeyComparator key ref.file.largest = .gt then
    none
  else ref.reader.table.getEntry key

def getFromSSTables (levels : Fin kMaxLevel → List ReaderRef) (key : TsKey) :
    Option InternalEntry :=
  (List.finRange kMaxLevel).findSome? fun l =>
    (levels l).reverse.findSome? fun ref => ref.getEntry key

/-- A whole level goes one level down when it is too large. -/
def Store.pickLevel (s : Store) (ttl_map : TtlMap) : Option CompactionWork :=
  ([1, 2, 3, 4, 5] : List (Fin kMaxLevel)).findSome? fun level =>
    let files := s.vmgr.current.level_files level
    let total_size := (files.map FileMeta.file_size).sum
    if total_size ≤ kLevelSizeBase * 2 ^ level.val then none
    else some ⟨⟨files.map fun f => ⟨level.val, f⟩, level.val + 1⟩, ttl_map⟩

def smallestKey (front : FileMeta) (files : List FileMeta) : TsKey :=
  files.foldl (fun k f => if tsKeyComparator f.smallest k = .lt then f.smallest else k) front.smallest

def largestKey (front : FileMeta) (files : List FileMeta) : TsKey :=
  files.foldl (fun k f => if tsKeyComparator f.largest k = .gt then f.largest else k) front.largest

def overlapping (files : List FileMeta) (smallest largest : TsKey) : List FileMeta :=
  files.filter fun f => !(tsKeyComparator f.largest smallest == .lt ||
    tsKeyComparator f.smallest largest == .gt)

def Store.pickCompactionWork (s : Store) (force : Bool) (ttl_map : TtlMap) : Option CompactionWork :=
  if s.compaction_in_progress then none
  else
    let l0_candidates := (s.vmgr.current.level_files 0).filter fun f =>
      !s.compacting_files.contains f.file_number
    match l0_candidates with
    | [] => s.pickLevel ttl_map
    | front :: _ =>
      if force ∨ l0_candidates.length ≥ kL0CompactionTrigger then
        let smallest := smallestKey front l0_candidates
        let largest := largestKey front l0_candidates
        let l1 := overlapping (s.vmgr.current.level_files 1) smallest largest
        some ⟨⟨(l1.map fun f => ⟨1, f⟩) ++ l0_candidates.map fun f => ⟨0, f⟩, 1⟩, ttl_map⟩
      else s.pickLevel ttl_map

def CompactionJob.numbers (job : CompactionJob) : List ℕ :=
  job.inputs.map fun input => input.file.file_number

/-- Pick, and `MarkCompactionJobStartedUnlocked`. -/
def Store.startCompaction (s : Store) (force : Bool) (ttl_map : TtlMap) : Option Store :=
  match s.pickCompactionWork force ttl_map with
  | none => none
  | some work => some { s with
      compaction := some ⟨work, none, .empty⟩
      compaction_in_progress := true
      compacting_files := s.compacting_files ++ work.job.numbers }

/-- `MarkCompactionJobFinishedUnlocked`. -/
def Store.finishCompaction (s : Store) (job : CompactionJob) : Store :=
  { s with
    compaction := none
    compaction_in_progress := false
    compacting_files := s.compacting_files.filter fun n => !job.numbers.contains n }

/-- The reading half of `Run`; a job it refuses ends here. -/
def Store.readInputs (s : Store) (run : CompactionRun) (reader : Bytes → List Record) : Option Store :=
  match run.rest with
  | some _ => none
  | none =>
    match runInputs run.work.job reader fun r => keepRecordForCompaction r run.work.ttl_snapshot with
    | .error _ => some (s.finishCompaction run.work.job)
    | .ok (merged, result) => some { s with compaction := some ⟨run.work, some merged, result⟩ }

def Store.writeOutput (s : Store) (run : CompactionRun) : Option Store :=
  match run.rest with
  | none => none
  | some [] => none
  | some records =>
    let (chunk, rest) := takeChunk (targetBytes s.target_file_size) 0 records
    match finishTable (chunk.map Record.pair) with
    | none => none
    | some t =>
      let (new_num, vmgr) := s.vmgr.newFileNumber
      let file := t.fileMeta new_num (vmgr.newFileName new_num)
      some { s with
        vmgr := vmgr
        dir := writeTable s.dir (sstName new_num) t
        compaction := some ⟨run.work, some rest,
          run.result.addOutput run.work.job.output_level file t⟩ }

def Store.isCompactionInputValid (s : Store) (job : CompactionJob) : Bool :=
  job.inputs.all fun input =>
    match levelIndex input.level with
    | none => false
    | some l => (s.vmgr.current.level_files l).any fun f => f.file_number == input.file.file_number

def Store.retireFile (s : Store) (fname : Bytes) : Store :=
  { s with
    pending_delete := s.pending_delete ++ [⟨fname, findReader s.sst_readers fname⟩]
    sst_readers := s.sst_readers.eraseP fun r => r.file_name == fname }

/-- `held` are the files whose readers someone else still holds. -/
def Store.tryDeletePendingFiles (s : Store) (held : List Bytes) : Store :=
  let keep := fun item : PendingDelete => item.reader.isSome && held.contains item.file_name
  { s with
    pending_delete := s.pending_delete.filter keep
    dir := (s.pending_delete.filter fun item => !keep item).foldl
      (fun dir item => removeTable s.vmgr.db_dir dir item.file_name) s.dir }

def Store.cleanupObsoleteFiles (s : Store) (held : List Bytes) : Store :=
  let (names, vmgr) := s.vmgr.consumeObsoleteFiles
  (names.foldl Store.retireFile { s with vmgr := vmgr }).tryDeletePendingFiles held

/-- `RunOneCompaction` where it finds nothing to compact. -/
def Store.skipCompaction (s : Store) (force : Bool) (ttl_map : TtlMap) (held : List Bytes) :
    Option Store :=
  if !s.compaction_in_progress && (s.pickCompactionWork force ttl_map).isNone then
    some (s.tryDeletePendingFiles held)
  else none

/-- The end of `Close`. -/
def Store.shutdown (s : Store) (held : List Bytes) : Store :=
  let s := s.cleanupObsoleteFiles held
  let (vmgr, files) := s.vmgr.writeSnapshotManifest s.files
  { s with vmgr := vmgr, files := files }

def Store.logAndApply (s : Store) (edit : VersionEdit) : Store :=
  let (vmgr, files) := s.vmgr.logAndApply s.files edit
  { s with vmgr := vmgr, files := files }

def Store.commitCompaction (s : Store) (run : CompactionRun) (cleanup_obsolete : Bool)
    (held : List Bytes) : Option Store :=
  match run.rest with
  | some [] =>
    if s.isCompactionInputValid run.work.job then
      let s := s.logAndApply run.result.edit
      let s := { s with sst_readers := s.sst_readers ++ run.result.new_readers }
      let s := if cleanup_obsolete then s.cleanupObsoleteFiles held else s
      some (s.finishCompaction run.work.job)
    else
      let s := s.finishCompaction run.work.job
      some { s with dir := run.result.new_files.foldl (removeTable s.vmgr.db_dir) s.dir }
  | _ => none

def Store.buildFlush (s : Store) (entries : List (TsKey × InternalEntry)) : Option Store :=
  match s.built with
  | some _ => none
  | none =>
    match finishTable entries with
    | none => none
    | some t =>
      let (file_num, vmgr) := s.vmgr.newFileNumber
      some { s with
        vmgr := vmgr
        dir := writeTable s.dir (sstName file_num) t
        built := some (file_num, t) }

def flushEdit (file : FileMeta) : VersionEdit := ⟨[(0, file)], []⟩

def Store.commitFlush (s : Store) : Option Store :=
  match s.built with
  | none => none
  | some (file_num, t) =>
    let file := t.fileMeta file_num (s.vmgr.newFileName file_num)
    let s := s.logAndApply (flushEdit file)
    some { s with
      sst_readers := s.sst_readers ++ [⟨file.file_name, t⟩]
      built := none
      flushed := t.entries :: s.flushed }

inductive StoreAction
  | build (entries : List (TsKey × InternalEntry))
  | commitFlush
  | pick (force : Bool) (ttl_map : TtlMap)
  | skip (force : Bool) (ttl_map : TtlMap) (held : List Bytes)
  | read (reader : Bytes → List Record)
  | output
  | commit (cleanup_obsolete : Bool) (held : List Bytes)
  | cleanup (held : List Bytes)
  | shutdown (held : List Bytes)

def Store.step (s : Store) : StoreAction → Option Store
  | .build entries => s.buildFlush entries
  | .commitFlush => s.commitFlush
  | .pick force ttl_map => s.startCompaction force ttl_map
  | .skip force ttl_map held => s.skipCompaction force ttl_map held
  | .read reader => s.compaction.bind fun run => s.readInputs run reader
  | .output => s.compaction.bind fun run => s.writeOutput run
  | .commit cleanup_obsolete held =>
    s.compaction.bind fun run => s.commitCompaction run cleanup_obsolete held
  | .cleanup held => some (s.cleanupObsoleteFiles held)
  | .shutdown held => some (s.shutdown held)

def Startup.store (st : Startup) (target_file_size : ℕ) : Store :=
  { vmgr := st.vm
    sst_readers := st.sst_readers
    target_file_size := target_file_size
    compaction_in_progress := false
    compacting_files := []
    pending_delete := []
    files := st.files
    dir := st.dir
    built := none
    compaction := none
    flushed := [] }

def Store.start (db_dir : Bytes) (target_file_size : ℕ) : Store :=
  (startup db_dir (fun _ => none) []).store target_file_size

end MiniTsdb
