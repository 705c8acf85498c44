import MiniTsdb.Spec.Faults

/-! `Write` where the log reports an error: the call returns its status before any operation
goes to the memtable. -/

namespace MiniTsdb
open Lib

/-- Where the log of a batch fails: it is not open, the `fwrite` of record `j` of operation `i`
takes only `n` bytes, or `Sync` fails in `fflush` with `n` bytes of the batch in the file, or
in `fsync`. -/
inductive WriteFailure
  | notOpen
  | append (i j n : ℕ)
  | flush (n : ℕ)
  | sync
  deriving DecidableEq, Repr

def walFile : Bytes := ascii "wal.log"

def WriteFailure.status (failure : WriteFailure) (db_dir : Bytes) : Status :=
  match failure with
  | .notOpen => .ioError ("WAL file not open: " ++ pathText (joinPath db_dir walFile))
  | .append _ _ _ => .ioError "WAL write failed"
  | .flush _ => .ioError "WAL fflush failed"
  | .sync => .ioError "WAL fsync failed"

def WAL.appendPrefix (wal : WAL) (batch : List Operation) (n : ℕ) : WAL :=
  ⟨(wal.appendAll batch).file.take (wal.file.length + n)⟩

def WriteFailure.log (failure : WriteFailure) (wal : WAL) (batch : List Operation) : WAL :=
  match failure with
  | .notOpen => wal
  | .append i j n =>
    match batch[i]? with
    | some op => op.appendShort (wal.appendAll (batch.take i)) j n
    | none => wal.appendAll batch
  | .flush n => wal.appendPrefix batch n
  | .sync => wal.appendAll batch

/-- What follows the first `MakeRoomForWriteUnlocked`, in place of `logAndApplyOps`. -/
def Engine.failLog (e : Engine) (batch : List Operation) (failure : WriteFailure) :
    Engine × Status :=
  ({ e with wal := failure.log e.wal batch }, failure.status e.store.vmgr.db_dir)

/-- A `Write` that finds room at once. -/
def Engine.writeError (e : Engine) (batch : List Operation) (failure : WriteFailure) :
    Option (Engine × Status) :=
  if batch.isEmpty then none
  else
    let e := { e with next_call := e.next_call + 1 }
    e.makeRoomForWrite.map fun e => e.failLog batch failure

/-- A `Write` that has waited for it. -/
def Engine.resumeError (e : Engine) (id : ℕ) (failure : WriteFailure) : Option (Engine × Status) :=
  match e.calls.find? fun c => c.id == id with
  | some ⟨_, false, batch⟩ => e.wakeUp.map fun e =>
    let e := { e with calls := e.calls.filter fun c => c.id != id }
    e.failLog batch failure
  | _ => none

end MiniTsdb
