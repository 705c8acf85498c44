import MiniTsdb.Spec.Engine

/-! The engine beside the buffer of its log. What `fwrite` takes reaches the file at a `Sync`,
or any time before; a process that dies loses the rest. -/

namespace MiniTsdb
open Lib

def Engine.appends (e : Engine) : EngineAction → List Operation
  | .put measurement timestamp value =>
    if e.makeRoomForWrite.isSome then [.put measurement timestamp value] else []
  | .delete measurement timestamp =>
    if e.makeRoomForWrite.isSome then [.delete measurement timestamp] else []
  | .write batch => if e.makeRoomForWrite.isSome then batch else []
  | .resume id =>
    match e.calls.find? fun c => c.id == id with
    | some c => if c.logged then [] else c.ops
    | none => []
  | _ => []

def WAL.tornBytes (wal : WAL) : ℕ := wal.file.length - (replayLoop wal.file .init).valid_offset

/-- The first `written` bytes of the log are in its file, the others in the buffer of `file_`;
`batches` has the numbers of the calls of `Write`. -/
structure Journaled where
  engine : Engine
  written : ℕ
  batches : List ℕ

def Journaled.start (db_dir : Bytes) (memtable_limit : Int64) (target_file_size : ℕ) : Journaled :=
  ⟨.start db_dir memtable_limit target_file_size, 0, []⟩

/-- Whether a step that appends calls `Sync` behind it: `Put` and `Delete` where `sync_on_write_`
says so, `Write` once for its batch. -/
def Journaled.syncs (sync_on_write : Bool) (j : Journaled) : EngineAction → Bool
  | .write _ => true
  | .resume id => sync_on_write || j.batches.contains id
  | _ => sync_on_write

/-- `Rotate` starts an empty file, `Close` writes out the buffer. -/
def Journaled.writtenAfter (sync_on_write : Bool) (j : Journaled) (a : EngineAction) (wal : WAL) : ℕ :=
  match a with
  | .finishFlush => 0
  | .shutdown _ => wal.file.length
  | a =>
    if !(j.engine.appends a).isEmpty && j.syncs sync_on_write a then wal.file.length else j.written

def Journaled.batchesAfter (j : Journaled) : EngineAction → List ℕ
  | .write batch => if batch.isEmpty then j.batches else j.engine.next_call :: j.batches
  | _ => j.batches

/-- The log that a process leaves which dies while it appends `ops`. -/
def Journaled.leaves (j : Journaled) (ops : List Operation) (kept : ℕ) : WAL :=
  ⟨(j.engine.wal.appendAll ops).file.take kept⟩

inductive JournalAction
  | engine (a : EngineAction)
  | die (during : EngineAction) (kept : ℕ)

/-- The process dies while `during` is at the log, or between two steps where that appends
nothing, and the directory is opened again. -/
def Journaled.die (j : Journaled) (during : EngineAction) (kept : ℕ) : Journaled :=
  let e := { j.engine with wal := j.leaves (j.engine.appends during) kept }.crash
  ⟨e, e.wal.file.length, j.batches⟩

def Journaled.step (sync_on_write : Bool) (j : Journaled) : JournalAction → Option Journaled
  | .engine a =>
    if a.isCrash then none
    else (j.engine.step a).map fun e => ⟨e, j.writtenAfter sync_on_write a e.wal, j.batchesAfter a⟩
  | .die during kept =>
    if (j.engine.step during).isSome && decide (j.written ≤ kept) then some (j.die during kept)
    else none

end MiniTsdb
