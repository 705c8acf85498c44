import MiniTsdb.Spec.Version

/-! Opening a directory: the SSTables of the recovered version are opened and all
other `.sst` files removed, or, without any version, every table goes to L0. A table
is the list of its entries here. -/

namespace MiniTsdb
open Lib

/-- A finished SSTable and the size of its file. -/
structure SSTable where
  entries : List (TsKey × InternalEntry)
  file_size : ℕ
  deriving DecidableEq, Repr

def SSTable.minKey (t : SSTable) : TsKey := (t.entries.head?.map Prod.fst).getD .default
def SSTable.maxKey (t : SSTable) : TsKey := (t.entries.getLast?.map Prod.fst).getD .default

def SSTable.getEntry (t : SSTable) (key : TsKey) : Option InternalEntry :=
  t.entries.lookup key

structure TableReader where
  file_name : Bytes
  table : SSTable
  deriving DecidableEq, Repr

/-- The regular files of the directory; a file that does not open as a table has none. -/
abbrev SstDir := List (Bytes × Option SSTable)

def isSst (name : Bytes) : Bool := (ascii ".sst").isSuffixOf name && 4 < name.length

def stem (name : Bytes) : Bytes := name.take (name.length - 4)

def openTable (db_dir : Bytes) (dir : SstDir) (path : Bytes) : Option SSTable :=
  (dir.find? fun e => joinPath db_dir e.1 == path).bind Prod.snd

def SSTable.fileMeta (t : SSTable) (number : ℕ) (path : Bytes) : FileMeta :=
  ⟨number, path, t.file_size, t.minKey, t.maxKey⟩

/-- The version manager, the open readers and the directory while the engine starts. -/
structure Startup where
  vm : VersionManager
  sst_readers : List TableReader
  files : Files
  dir : SstDir

def findReader (readers : List TableReader) (path : Bytes) : Option TableReader :=
  readers.find? fun r => r.file_name == path

def Startup.openReader (s : Startup) (file : FileMeta) : Startup :=
  if (findReader s.sst_readers file.file_name).isSome then s
  else match openTable s.vm.db_dir s.dir file.file_name with
    | none => s
    | some t => { s with
        sst_readers := s.sst_readers ++ [⟨file.file_name, t⟩]
        vm := s.vm.markFileNumberUsed file.file_number }

def Startup.openReadersForCurrentVersion (s : Startup) : Startup :=
  (s.vm.current.allFiles.map Prod.snd).foldl Startup.openReader s

def Version.liveFiles (v : Version) : List Bytes :=
  v.allFiles.map fun a => baseName a.2.file_name

def Startup.garbageCollectSSTables (s : Startup) : Startup :=
  { s with dir := s.dir.filter fun e => !(isSst e.1 && !(s.vm.current.liveFiles.contains e.1)) }

/-- One file of the directory scan. `std::stoull` takes the digits at the front. -/
def Startup.addScanned (s : Startup) (e : Bytes × Option SSTable) : Startup :=
  match e.2 with
  | none => s
  | some t =>
    let path := joinPath s.vm.db_dir e.1
    let (number, vm) := match readUnsigned 64 (stem e.1) with
      | some (n, _) => (n, s.vm)
      | none => s.vm.newFileNumber
    { s with
      vm := vm.applyUnlocked ⟨[(0, t.fileMeta number path)], []⟩
      sst_readers := s.sst_readers ++ [⟨path, t⟩] }

def Startup.scanDirectory (s : Startup) : Startup :=
  let s := (sortBy Prod.fst (s.dir.filter fun e => isSst e.1)).foldl Startup.addScanned s
  if s.vm.numFiles > 0 then
    let (vm, files) := s.vm.writeSnapshotManifest s.files
    { s with vm := vm, files := files }
  else s

def Startup.loadExistingSSTables (s : Startup) : Startup :=
  if s.vm.numFiles > 0 then s.openReadersForCurrentVersion.garbageCollectSSTables
  else s.scanDirectory

def startup (db_dir : Bytes) (files : Files) (dir : SstDir) : Startup :=
  Startup.loadExistingSSTables ⟨(VersionManager.init db_dir files).1, [], files, dir⟩

end MiniTsdb
