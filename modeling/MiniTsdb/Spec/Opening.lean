import MiniTsdb.Spec.Engine

/-! The constructor cut short: what is on disk when the process dies in it. The snapshot of the
manifest behind a directory scan is there whole, or not yet begun. -/

namespace MiniTsdb
open Lib

/-- What a process leaves to the next one. -/
structure Disk where
  db_dir : Bytes
  files : Files
  dir : SstDir
  wal : WAL

def Engine.disk (e : Engine) : Disk := ⟨e.store.vmgr.db_dir, e.store.files, e.store.dir, e.wal⟩

def Disk.open (d : Disk) (memtable_limit : Int64) (target_file_size : ℕ) : Engine :=
  Engine.open (startup d.db_dir d.files d.dir) d.wal memtable_limit target_file_size

/-- How far the constructor came: among the removals of `GarbageCollectSSTablesOnStartupUnlocked`,
with the files in `passed` behind it, past `LoadExistingSSTables`, past `ReplayEntries`. -/
inductive OpeningStage
  | collecting (passed : List Bytes)
  | loaded
  | replayed
  deriving DecidableEq, Repr

def Startup.collectPassed (s : Startup) (passed : List Bytes) : SstDir :=
  s.dir.filter fun e =>
    !(passed.contains e.1 && (isSst e.1 && !(s.vm.current.liveFiles.contains e.1)))

def Disk.interrupted (d : Disk) (stage : OpeningStage) : Disk :=
  let s : Startup := ⟨(VersionManager.init d.db_dir d.files).1, [], d.files, d.dir⟩
  let loaded := s.loadExistingSSTables
  match stage with
  | .collecting passed =>
    if s.vm.numFiles > 0 then
      { d with dir := s.openReadersForCurrentVersion.collectPassed passed }
    else d
  | .loaded => { d with files := loaded.files, dir := loaded.dir }
  | .replayed => { d with files := loaded.files, dir := loaded.dir, wal := d.wal.replayEntries.2 }

end MiniTsdb
