import MiniTsdb.Lib.SizeT
import MiniTsdb.Spec.Version

/-! The file counter in the 64 bits of `next_file_number_`: after `2 ^ 64 - 1` comes 0.
A history is a list of calls on one database directory. The calls that change the counter
or the levels hold `mu_`, and recovery runs before any other thread, so interleaved threads
are a list too. A snapshot written after `mu_` was released is a `disk` step. -/

namespace MiniTsdb
open Lib

abbrev kMaxFileNumber : ℕ := 2 ^ 64 - 1

def bumpLast64 (next : ℕ) (added : List (ℤ × FileMeta)) : ℕ :=
  match added.getLast? with
  | none => next
  | some last => if last.2.file_number ≥ next then sizeAdd last.2.file_number 1 else next

namespace VersionManager

def newFileNumber64 (vm : VersionManager) : ℕ × VersionManager :=
  (vm.next_file_number, { vm with next_file_number := sizeAdd vm.next_file_number 1 })

def markFileNumberUsed64 (vm : VersionManager) (number : ℕ) : VersionManager :=
  if number ≥ vm.next_file_number then { vm with next_file_number := sizeAdd number 1 } else vm

def applyUnlocked64 (vm : VersionManager) (edit : VersionEdit) : VersionManager :=
  { vm.applyUnlocked edit with
    next_file_number := bumpLast64 vm.next_file_number edit.added_files }

def logAndApply64 (vm : VersionManager) (files : Files) (edit : VersionEdit) :
    VersionManager × Files :=
  -- the lines carry the counter from before the edit
  let (_, files) := vm.logAndApply files edit
  ({ vm with manifest_name := vm.manifestPath }.applyUnlocked64 edit, files)

def replayLine64 (vm : VersionManager) : ManifestLine → Except String VersionManager
  | .nextFile n => .ok (if n > vm.next_file_number then { vm with next_file_number := n } else vm)
  | .add level file => .ok (vm.applyUnlocked64 ⟨[(level, file)], []⟩)
  | .del level number => .ok (vm.applyUnlocked64 ⟨[], [(level, number)]⟩)
  | .bad message => .error message
  | .ignored => .ok vm

def replayLines64 (vm : VersionManager) : List ManifestLine → VersionManager × Status
  | [] => ({ vm with obsolete_files := [] }, .ok)
  | line :: lines =>
    match vm.replayLine64 line with
    | .ok vm' => vm'.replayLines64 lines
    | .error message => (vm, .corruption message)

def recoverFromManifest64 (vm : VersionManager) (files : Files) : VersionManager × Status :=
  let vm := { vm with manifest_name := vm.recoveryPath files }
  match files vm.manifest_name with
  | none => (vm, .notFound "manifest not found")
  | some text =>
    { vm with current := .empty, obsolete_files := [], next_file_number := 1 }.replayLines64
      (parseManifest vm.db_dir text)

def opening (db_dir : Bytes) : VersionManager :=
  { new db_dir with manifest_name := joinPath db_dir manifestFile }

def init64 (db_dir : Bytes) (files : Files) : VersionManager × Status :=
  (opening db_dir).recoverFromManifest64 files

end VersionManager

structure NumberState where
  vm : VersionManager
  files : Files

/-- `restart` is a new manager and its `Init`. `disk` is what else befalls the files: a
call that failed half way, a torn write, another writer. -/
inductive NumberCall
  | newFileNumber
  | markFileNumberUsed (number : ℕ)
  | apply (edit : VersionEdit)
  | logAndApply (edit : VersionEdit)
  | writeSnapshotManifest
  | recoverFromManifest
  | restart
  | disk (files : Files)

def NumberState.call (s : NumberState) : NumberCall → NumberState
  | .newFileNumber => { s with vm := s.vm.newFileNumber64.2 }
  | .markFileNumberUsed number => { s with vm := s.vm.markFileNumberUsed64 number }
  | .apply edit => { s with vm := s.vm.applyUnlocked64 edit }
  | .logAndApply edit =>
    let (vm, files) := s.vm.logAndApply64 s.files edit
    ⟨vm, files⟩
  | .writeSnapshotManifest =>
    let (vm, files) := s.vm.writeSnapshotManifest s.files
    ⟨vm, files⟩
  | .recoverFromManifest => { s with vm := (s.vm.recoverFromManifest64 s.files).1 }
  | .restart => { s with vm := (VersionManager.init64 s.vm.db_dir s.files).1 }
  | .disk files => { s with files := files }

def NumberState.step (s : NumberState) (c : NumberCall) : Option NumberState := some (s.call c)

/-- The added files come in ascending order, below the largest number. They need not come
from `newFileNumber`. -/
structure VersionEdit.Numbered (e : VersionEdit) : Prop where
  ascending : e.added_files.Pairwise fun a b => a.2.file_number ≤ b.2.file_number
  below : ∀ a ∈ e.added_files, a.2.file_number < kMaxFileNumber

instance (e : VersionEdit) : Decidable e.Numbered :=
  decidable_of_iff
    (e.added_files.Pairwise (fun a b => a.2.file_number ≤ b.2.file_number) ∧
      ∀ a ∈ e.added_files, a.2.file_number < kMaxFileNumber)
    ⟨fun h => ⟨h.1, h.2⟩, fun h => ⟨h.ascending, h.below⟩⟩

/-- The numbers that recovery takes in before a line stops it. -/
def recoveredNumbers : List ManifestLine → List ℕ
  | [] => []
  | .bad _ :: _ => []
  | .add _ file :: lines => file.file_number :: recoveredNumbers lines
  | .nextFile _ :: lines => recoveredNumbers lines
  | .del _ _ :: lines => recoveredNumbers lines
  | .ignored :: lines => recoveredNumbers lines

/-- The manifest that recovery would read adds no file with the largest number. -/
def VersionManager.RecoversNumbered (vm : VersionManager) (files : Files) : Prop :=
  ∀ text ∈ files (vm.recoveryPath files),
    ∀ n ∈ recoveredNumbers (parseManifest vm.db_dir text), n < kMaxFileNumber

instance (vm : VersionManager) (files : Files) : Decidable (vm.RecoversNumbered files) := by
  unfold VersionManager.RecoversNumbered
  infer_instance

def NumberState.Stays (s : NumberState) : NumberCall → Prop
  | .newFileNumber => s.vm.next_file_number < kMaxFileNumber
  | .markFileNumberUsed number => number < kMaxFileNumber
  | .apply edit => edit.Numbered
  | .logAndApply edit => edit.Numbered
  | .writeSnapshotManifest => True
  | .recoverFromManifest => s.vm.RecoversNumbered s.files
  | .restart => (VersionManager.opening s.vm.db_dir).RecoversNumbered s.files
  | .disk _ => True

instance (s : NumberState) (c : NumberCall) : Decidable (s.Stays c) := by
  cases c <;> unfold NumberState.Stays <;> infer_instance

end MiniTsdb
