import MiniTsdb.Lib.Ascending
import MiniTsdb.Lib.Text
import MiniTsdb.Spec.Utils
import MiniTsdb.Spec.Status

/-! The version set (`version.h`, `version.cpp`): seven levels of files in memory,
and the text manifest that records every edit. `file_number`, `file_size` and the
counter are unbounded here; the text reader keeps its 64-bit limits. -/

namespace MiniTsdb
open Lib

structure FileMeta where
  file_number : ℕ
  file_name : Bytes
  file_size : ℕ
  smallest : TsKey
  largest : TsKey
  deriving DecidableEq, Repr

abbrev kMaxLevel : ℕ := 7

instance neZero_kMaxLevel : NeZero kMaxLevel := ⟨by decide⟩

structure Version where
  level_files : Fin kMaxLevel → List FileMeta

def Version.empty : Version := ⟨fun _ => []⟩

structure VersionEdit where
  added_files : List (ℤ × FileMeta)
  deleted_files : List (ℤ × ℕ)
  deriving DecidableEq, Repr

structure VersionManager where
  db_dir : Bytes
  manifest_name : Bytes
  current : Version
  next_file_number : ℕ
  obsolete_files : List Bytes

/-- The text files of the directory, by path. -/
abbrev Files := Bytes → Option Bytes

def slash : Byte := 47

def joinPath (dir name : Bytes) : Bytes := dir ++ slash :: name

def baseName (path : Bytes) : Bytes := (path.reverse.takeWhile fun b => b != slash).reverse

def manifestFile : Bytes := ascii "MANIFEST-000001"
def currentFile : Bytes := ascii "CURRENT"

def sstName (number : ℕ) : Bytes :=
  List.replicate (6 - (decimal number).length) 48 ++ (decimal number ++ ascii ".sst")

def VersionManager.new (db_dir : Bytes) : VersionManager := ⟨db_dir, [], .empty, 1, []⟩

def VersionManager.newFileName (vm : VersionManager) (number : ℕ) : Bytes :=
  joinPath vm.db_dir (sstName number)

/-- The index of a level that `ApplyUnlocked` does not skip. -/
def levelIndex (level : ℤ) : Option (Fin kMaxLevel) :=
  if h : 0 ≤ level ∧ level < kMaxLevel then some ⟨level.toNat, by omega⟩ else none

def Version.set (v : Version) (l : Fin kMaxLevel) (files : List FileMeta) : Version :=
  ⟨Function.update v.level_files l files⟩

def VersionManager.applyDelete (vm : VersionManager) (item : ℤ × ℕ) : VersionManager :=
  match levelIndex item.1 with
  | none => vm
  | some l =>
    let files := vm.current.level_files l
    let dropped := files.find? fun f => f.file_number == item.2
    { vm with
      obsolete_files := vm.obsolete_files ++ (dropped.map FileMeta.file_name).toList
      current := vm.current.set l (files.filter fun f => f.file_number != item.2) }

def VersionManager.applyAdd (vm : VersionManager) (item : ℤ × FileMeta) : VersionManager :=
  match levelIndex item.1 with
  | none => vm
  | some l => { vm with current := vm.current.set l (vm.current.level_files l ++ [item.2]) }

def sortFiles (files : List FileMeta) : List FileMeta := sortBy FileMeta.file_number files

def Version.sortLevels (v : Version) : Version := ⟨fun l => sortFiles (v.level_files l)⟩

/-- The counter after an edit; only the last added file is looked at. -/
def bumpLast (next : ℕ) (added : List (ℤ × FileMeta)) : ℕ :=
  match added.getLast? with
  | none => next
  | some last => if last.2.file_number ≥ next then last.2.file_number + 1 else next

def VersionManager.applyUnlocked (vm : VersionManager) (edit : VersionEdit) : VersionManager :=
  let vm := edit.deleted_files.foldl VersionManager.applyDelete vm
  let vm := edit.added_files.foldl VersionManager.applyAdd vm
  { vm with
    current := vm.current.sortLevels
    next_file_number := bumpLast vm.next_file_number edit.added_files }

def VersionManager.newFileNumber (vm : VersionManager) : ℕ × VersionManager :=
  (vm.next_file_number, { vm with next_file_number := vm.next_file_number + 1 })

def VersionManager.markFileNumberUsed (vm : VersionManager) (number : ℕ) : VersionManager :=
  if number ≥ vm.next_file_number then { vm with next_file_number := number + 1 } else vm

def VersionManager.consumeObsoleteFiles (vm : VersionManager) : List Bytes × VersionManager :=
  (vm.obsolete_files, { vm with obsolete_files := [] })

def VersionManager.numFiles (vm : VersionManager) : ℕ :=
  ((List.finRange kMaxLevel).map fun l => (vm.current.level_files l).length).sum

def delLine (item : ℤ × ℕ) : Bytes :=
  ascii "del " ++ (decimalInt item.1 ++ blank :: (decimal item.2 ++ [newline]))

def addLine (item : ℤ × FileMeta) : Bytes :=
  ascii "add " ++ (decimalInt item.1 ++ blank :: (decimal item.2.file_number ++
    blank :: (baseName item.2.file_name ++ blank :: (decimal item.2.file_size ++
    blank :: (item.2.smallest.measurement ++
    blank :: (decimalInt item.2.smallest.timestamp.toInt ++
    blank :: (item.2.largest.measurement ++
    blank :: (decimalInt item.2.largest.timestamp.toInt ++ [newline]))))))))

def nextFileLine (next : ℕ) : Bytes := ascii "next_file " ++ (decimal next ++ [newline])

def editText (edit : VersionEdit) (next : ℕ) : Bytes :=
  (edit.deleted_files.map delLine).flatten ++
    ((edit.added_files.map addLine).flatten ++ nextFileLine next)

def VersionManager.manifestPath (vm : VersionManager) : Bytes :=
  if vm.manifest_name.isEmpty then joinPath vm.db_dir manifestFile else vm.manifest_name

/-- `LogAndApply` with every file operation succeeding. -/
def VersionManager.logAndApply (vm : VersionManager) (files : Files) (edit : VersionEdit) :
    VersionManager × Files :=
  let vm := { vm with manifest_name := vm.manifestPath }
  let text := (files vm.manifest_name).getD [] ++ editText edit vm.next_file_number
  let files := Function.update files vm.manifest_name (some text)
  let files := Function.update files (joinPath vm.db_dir currentFile)
    (some (baseName vm.manifest_name ++ [newline]))
  (vm.applyUnlocked edit, files)

def Version.allFiles (v : Version) : List (ℤ × FileMeta) :=
  (List.finRange kMaxLevel).flatMap fun l => (v.level_files l).map fun f => ((l.val : ℤ), f)

def VersionManager.writeSnapshotManifest (vm : VersionManager) (files : Files) :
    VersionManager × Files :=
  let vm := { vm with manifest_name := vm.manifestPath }
  let text := (vm.current.allFiles.map addLine).flatten ++ nextFileLine vm.next_file_number
  (vm, Function.update files vm.manifest_name (some text))

/-- One manifest line, as recovery understands it. -/
inductive ManifestLine
  | nextFile (n : ℕ)
  | add (level : ℤ) (file : FileMeta)
  | del (level : ℤ) (number : ℕ)
  | bad (message : String)
  | ignored
  deriving DecidableEq, Repr

/-- `iss >> level >> number >> fname >> size >> measurement >> ...`. -/
def parseAdd (db_dir s : Bytes) : Option (ℤ × FileMeta) := do
  let (level, s) ← readSigned 32 s
  let (number, s) ← readUnsigned 64 s
  let (fname, s) ← readToken s
  let (size, s) ← readUnsigned 64 s
  let (smallest, s) ← readToken s
  let (smallest_ts, s) ← readSigned 64 s
  let (largest, s) ← readToken s
  let (largest_ts, _) ← readSigned 64 s
  some (level, ⟨number, joinPath db_dir fname, size, ⟨smallest, Int64.ofInt smallest_ts⟩,
    ⟨largest, Int64.ofInt largest_ts⟩⟩)

def parseDel (s : Bytes) : Option (ℤ × ℕ) := do
  let (level, s) ← readSigned 32 s
  let (number, _) ← readUnsigned 64 s
  some (level, number)

def parseLine (db_dir line : Bytes) : ManifestLine :=
  match readToken line with
  | none => .ignored
  | some (tag, s) =>
    if tag = ascii "next_file" then
      match readUnsigned 64 s with
      | some (n, _) => .nextFile n
      | none => .ignored
    else if tag = ascii "add" then
      match parseAdd db_dir s with
      | some (level, file) => .add level file
      | none => .bad "Bad manifest add record"
    else if tag = ascii "del" then
      match parseDel s with
      | some (level, number) => .del level number
      | none => .bad "Bad manifest del record"
    else .ignored

/-- The effect of a line, or the message recovery stops with. -/
def VersionManager.replayLine (vm : VersionManager) : ManifestLine → Except String VersionManager
  | .nextFile n => .ok (if n > vm.next_file_number then { vm with next_file_number := n } else vm)
  | .add level file => .ok (vm.applyUnlocked ⟨[(level, file)], []⟩)
  | .del level number => .ok (vm.applyUnlocked ⟨[], [(level, number)]⟩)
  | .bad message => .error message
  | .ignored => .ok vm

/-- The `getline` loop: the state it reached and how it stopped. -/
def VersionManager.replayLines (vm : VersionManager) : List ManifestLine → VersionManager × Status
  | [] => ({ vm with obsolete_files := [] }, .ok)
  | line :: lines =>
    match vm.replayLine line with
    | .ok vm' => vm'.replayLines lines
    | .error message => (vm, .corruption message)

def parseManifest (db_dir text : Bytes) : List ManifestLine :=
  ((getLines text).filter fun l => !l.isEmpty).map (parseLine db_dir)

def VersionManager.recoveryPath (vm : VersionManager) (files : Files) : Bytes :=
  let name := ((files (joinPath vm.db_dir currentFile)).map fun c => (getLines c).headD []).getD []
  if name.isEmpty then vm.manifestPath else joinPath vm.db_dir name

def VersionManager.recoverFromManifest (vm : VersionManager) (files : Files) :
    VersionManager × Status :=
  let vm := { vm with manifest_name := vm.recoveryPath files }
  match files vm.manifest_name with
  | none => (vm, .notFound "manifest not found")
  | some text =>
    { vm with current := .empty, obsolete_files := [], next_file_number := 1 }.replayLines
      (parseManifest vm.db_dir text)

def VersionManager.init (db_dir : Bytes) (files : Files) : VersionManager × Status :=
  { VersionManager.new db_dir with manifest_name := joinPath db_dir manifestFile }.recoverFromManifest
    files

end MiniTsdb
