import MiniTsdb.Spec.Engine

/-! File operations that fail: `LogAndApply` at each of its four points, the flush thread
after `Finish`, `Open` or `LogAndApply`, a compaction at an output file or at its commit. -/

namespace MiniTsdb
open Lib

/-- The point of failure. Of a text that is not written whole, the first `n` bytes reach
the file. -/
inductive LogFailure
  | manifestOpen
  | manifestWrite (n : ℕ)
  | currentOpen
  | currentWrite (n : ℕ)
  deriving DecidableEq, Repr

def pathText (path : Bytes) : String := String.ofList (path.map fun b => Char.ofNat b.val)

def VersionManager.logError (vm : VersionManager) : LogFailure → Status
  | .manifestOpen => .ioError ("Cannot open manifest: " ++ pathText vm.manifestPath)
  | .manifestWrite _ => .ioError "Failed to write manifest"
  | .currentOpen => .ioError "Cannot write CURRENT"
  | .currentWrite _ => .ioError "Failed to write CURRENT"

def LogFailure.files (failure : LogFailure) (vm : VersionManager) (files : Files) (text : Bytes) :
    Files :=
  let log := fun text => Function.update files vm.manifestPath
    (some ((files vm.manifestPath).getD [] ++ text))
  match failure with
  | .manifestOpen => files
  | .manifestWrite n => log (text.take n)
  | .currentOpen => log text
  | .currentWrite n => Function.update (log text) (joinPath vm.db_dir currentFile)
      (some ((baseName vm.manifestPath ++ [newline]).take n))

/-- `LogAndApply` where it fails: the edit is not applied. -/
def VersionManager.failLogAndApply (vm : VersionManager) (files : Files) (edit : VersionEdit)
    (failure : LogFailure) : VersionManager × Files × Status :=
  ({ vm with manifest_name := vm.manifestPath },
    failure.files vm files (editText edit vm.next_file_number), vm.logError failure)

def Store.failLogAndApply (s : Store) (edit : VersionEdit) (failure : LogFailure) : Store :=
  let (vmgr, files, _) := s.vmgr.failLogAndApply s.files edit failure
  { s with vmgr := vmgr, files := files }

def Store.failFinish (s : Store) : Option Store :=
  match s.built with
  | some _ => none
  | none => some { s with vmgr := s.vmgr.newFileNumber.2 }

/-- `Open` fails on the finished file, which stays in the directory, readable or not. -/
def Store.failOpen (s : Store) (readable : Bool) : Option Store :=
  match s.built with
  | none => none
  | some (file_num, t) =>
    let left := if readable then some t else none
    some { s with
      dir := (s.dir.filter fun e => e.1 != sstName file_num) ++ [(sstName file_num, left)]
      built := none }

/-- The thread does not look at the status of `LogAndApply`. -/
def Store.failCommitFlush (s : Store) (failure : LogFailure) : Option Store :=
  match s.built with
  | none => none
  | some (file_num, t) =>
    let file := t.fileMeta file_num (s.vmgr.newFileName file_num)
    let s := s.failLogAndApply (flushEdit file) failure
    some { s with
      sst_readers := s.sst_readers ++ [⟨file.file_name, t⟩]
      built := none }

/-- What `RunCompactionWork` does without a commit. -/
def Store.abortCompaction (s : Store) (run : CompactionRun) : Store :=
  let s := s.finishCompaction run.work.job
  { s with dir := run.result.new_files.foldl (removeTable s.vmgr.db_dir) s.dir }

def Store.failRun (s : Store) (run : CompactionRun) : Option Store :=
  match run.rest with
  | some (_ :: _) => some (Store.abortCompaction { s with vmgr := s.vmgr.newFileNumber.2 } run)
  | _ => none

def Store.failCommit (s : Store) (run : CompactionRun) (failure : LogFailure) : Option Store :=
  match run.rest with
  | some [] =>
    if s.isCompactionInputValid run.work.job then
      some ((s.failLogAndApply run.result.edit failure).abortCompaction run)
    else none
  | _ => none

inductive FaultAction
  | engine (a : EngineAction)
  | finishError
  | openError (readable : Bool)
  | logFlushError (failure : LogFailure)
  | runError
  | commitError (failure : LogFailure)

/-- The end of a flush attempt with an error. -/
def Engine.failFlush (e : Engine) (store : Option Store) (wal : WAL) : Option Engine :=
  store.map fun store => { e with store := store, wal := wal, flush := .idle }

def Engine.fail (e : Engine) : FaultAction → Option Engine
  | .engine a => e.step a
  | .finishError =>
    match e.flush with
    | .taken _ => e.failFlush e.store.failFinish e.wal
    | _ => none
  | .openError readable =>
    match e.flush with
    | .built _ => e.failFlush (e.store.failOpen readable) e.wal
    | _ => none
  | .logFlushError failure =>
    match e.flush with
    | .built _ => e.failFlush (e.store.failCommitFlush failure) e.wal.rotate
    | _ => none
  | .runError =>
    (e.store.compaction.bind fun run => e.store.failRun run).map fun store =>
      { e with store := store }
  | .commitError failure =>
    (e.store.compaction.bind fun run => e.store.failCommit run failure).map fun store =>
      { e with store := store }

def FaultAction.unlocked : FaultAction → Bool
  | engine a => a.unlocked
  | _ => false

def FaultAction.isCrash : FaultAction → Bool
  | engine a => a.isCrash
  | _ => false

def Engine.faultStep (e : Engine) (a : FaultAction) : Option Engine :=
  if e.flush.locks && !a.unlocked then none
  else if e.closing = .done && !a.isCrash then none
  else e.fail a

end MiniTsdb
