import MiniTsdb.Proofs.CrashAtomic
import MiniTsdb.Proofs.Tables
import MiniTsdb.Spec.Faults

/-! A commit that ends with an error. `LogAndApply` does not apply the edit then, but what it
wrote to the manifest before stays there. -/

namespace MiniTsdb
open Lib

/-- A commit through the manager of a directory that has no file under a proper prefix of the
manifest's name. -/
structure Failing (db_dir : Bytes) (files : Files) (dir : SstDir) (vm : VersionManager)
    (e : VersionEdit) : Prop extends Committing db_dir files dir vm e where
  writable : e.Writable
  db_dir_eq : vm.db_dir = db_dir
  manifest_path : vm.manifestPath = joinPath db_dir manifestFile
  alone : ∀ n, 0 < n → n < manifestFile.length →
    files (joinPath db_dir (manifestFile.take n)) = none

/-- The files that `LogAndApply` leaves where it fails. -/
def filesAfter (files : Files) (vm : VersionManager) (e : VersionEdit) (failure : LogFailure) : Files :=
  (vm.failLogAndApply files e failure).2.1

/-- The directory without the files that the edit adds. -/
def withoutAdded (db_dir : Bytes) (dir : SstDir) (e : VersionEdit) : SstDir :=
  (e.added_files.map fun a => a.2.file_name).foldl (removeTable db_dir) dir

/-- The version in memory and the one that recovery rebuilds are those before the edit. Where
the edit replaces files, and the new ones are deleted, a restart refers to none of them and
has the old ones. -/
structure FailureHarmless (db_dir : Bytes) (files : Files) (dir : SstDir) (vm : VersionManager)
    (e : VersionEdit) (failure : LogFailure) : Prop where
  memory : (vm.failLogAndApply files e failure).1.current = vm.current
  recovered : (VersionManager.init db_dir (filesAfter files vm e failure)).1.current = vm.current
  unreferred : e.deleted_files ≠ [] → ∀ l,
    ∀ f ∈ (startup db_dir (filesAfter files vm e failure) (withoutAdded db_dir dir e)).vm.current.level_files l,
      ∀ a ∈ e.added_files, f.file_name ≠ a.2.file_name
  inputs : ∀ d ∈ e.deleted_files, ∃ l, levelIndex d.1 = some l ∧
    ∃ f ∈ (startup db_dir (filesAfter files vm e failure)
        (withoutAdded db_dir dir e)).vm.current.level_files l, f.file_number = d.2 ∧
      ∃ t, (baseName f.file_name, some t) ∈
        (startup db_dir (filesAfter files vm e failure) (withoutAdded db_dir dir e)).dir

/-- The failures that leave nothing of the edit behind. -/
def LogFailure.Harmless (v : Version) (e : VersionEdit) : LogFailure → Prop
  | .manifestOpen => True
  | .manifestWrite n => (shown e.items n).1 = [] ∧
      NoEffect v ((shown e.items n).2.bind fun c => c.1.cutRead c.2)
  | .currentOpen => e.items = []
  | .currentWrite n => if 0 < n ∧ n < manifestFile.length then v.IsEmpty else e.items = []

theorem failCommit_eq {s s' : Store} {run : CompactionRun} {failure : LogFailure}
    (hnew : run.result.new_files = run.result.edit.added_files.map fun a => a.2.file_name)
    (hs : s.failCommit run failure = some s') :
    s'.vmgr.current = s.vmgr.current ∧ s'.files = filesAfter s.files s.vmgr run.result.edit failure ∧
      s'.dir = withoutAdded s.vmgr.db_dir s.dir run.result.edit := by
  unfold Store.failCommit at hs
  split at hs
  · split_ifs at hs
    obtain rfl := Option.some.inj hs
    refine ⟨rfl, rfl, ?_⟩
    rw [withoutAdded, ← hnew]
    rfl
  · contradiction

theorem shown_all {items : List EditItem} {n : ℕ} (h : (items.map EditItem.line).flatten.length ≤ n) :
    shown items n = (items, none) := by
  induction items generalizing n with
  | nil => rfl
  | cons item items ih =>
    rw [List.map_cons, List.flatten_cons, List.length_append] at h
    have hrest := ih (n := n - item.line.length) (by omega)
    rw [shown, if_neg (by omega), hrest]

theorem init_of_path {db_dir : Bytes} {files : Files} {path : Bytes}
    (h : VersionManager.recoveryPath { VersionManager.new db_dir with
      manifest_name := joinPath db_dir manifestFile } files = path) :
    (VersionManager.init db_dir files).1.current =
      match files path with
      | none => .empty
      | some text => ({ recoveryStart db_dir with manifest_name := path }.replayLines
          (parseManifest db_dir text)).1.current := by
  unfold VersionManager.init VersionManager.recoverFromManifest
  simp only [h]
  cases files path with
  | none => rfl
  | some text => rfl

theorem getLines_take_manifest : ∀ n ≤ (manifestFile ++ [newline]).length,
    (getLines ((manifestFile ++ [newline]).take n)).headD [] = manifestFile.take n := by
  decide +kernel

theorem manifest_take_ne_current : ∀ n < manifestFile.length, manifestFile.take n ≠ currentFile := by
  decide +kernel

section
variable {db_dir : Bytes} {files : Files} {dir : SstDir} {vm : VersionManager} {e : VersionEdit}
  (h : Failing db_dir files dir vm e)
include h

theorem Failing.cut_iff (n : ℕ) :
    (VersionManager.init db_dir (cutFiles db_dir files (editText e vm.next_file_number) n)).1.current =
        vm.current ↔
      (shown e.items n).1 = [] ∧
        NoEffect vm.current ((shown e.items n).2.bind fun c => c.1.cutRead c.2) := by
  have hcommitting := h.toCommitting
  obtain ⟨hcurrent, -⟩ := recover_cut (m := vm.next_file_number) h.logged h.ordered
    (readable_items hcommitting h.writable) (delsFirst_shown e n) (newIn_shown h.edit)
  rw [hcurrent, shown_same_iff hcommitting]

theorem Failing.logged_iff :
    (VersionManager.init db_dir (cutFiles db_dir files (editText e vm.next_file_number)
        (editText e vm.next_file_number).length)).1.current = vm.current ↔ e.items = [] := by
  have hall : shown e.items (editText e vm.next_file_number).length = (e.items, none) := by
    refine shown_all ?_
    rw [editText_eq, List.length_append]
    omega
  rw [h.cut_iff, hall]
  exact and_iff_left fun item hitem => by contradiction

omit h in
theorem recoveryPath_current {c : Bytes} (hc : files (joinPath db_dir currentFile) = some c) :
    VersionManager.recoveryPath { VersionManager.new db_dir with
        manifest_name := joinPath db_dir manifestFile } files =
      joinPath db_dir (if (getLines c).headD [] = [] then manifestFile else (getLines c).headD []) := by
  have hname : (((files (joinPath (VersionManager.new db_dir).db_dir currentFile)).map fun c =>
      (getLines c).headD []).getD []) = (getLines c).headD [] := by
    rw [show (VersionManager.new db_dir).db_dir = db_dir from rfl, hc]
    rfl
  unfold VersionManager.recoveryPath
  dsimp only
  rw [hname]
  by_cases hempty : (getLines c).headD [] = []
  · rw [if_pos hempty, if_pos (by rw [hempty]; rfl)]
    exact manifestPath_eq rfl
  · rw [if_neg hempty, if_neg (by simpa using hempty)]
    rfl

theorem Failing.recoveryPath_cut (n : ℕ) (others : Files) :
    VersionManager.recoveryPath { VersionManager.new db_dir with
        manifest_name := joinPath db_dir manifestFile }
      (Function.update others (joinPath vm.db_dir currentFile)
        (some ((baseName vm.manifestPath ++ [newline]).take n))) =
      joinPath db_dir (if 0 < n ∧ n < manifestFile.length then manifestFile.take n else manifestFile) := by
  have hname : (getLines ((manifestFile ++ [newline]).take n)).headD [] = manifestFile.take n := by
    rcases Nat.le_total n (manifestFile ++ [newline]).length with hn | hn
    · exact getLines_take_manifest n hn
    · have hwhole := getLines_take_manifest _ le_rfl
      have hlen : manifestFile.length ≤ n := le_trans (by simp) hn
      rw [List.take_length, List.take_of_length_le (by simp)] at hwhole
      rw [List.take_of_length_le hn, hwhole, List.take_of_length_le hlen]
  rw [recoveryPath_current (by rw [h.db_dir_eq]; exact Function.update_self ..), h.manifest_path,
    baseName_manifest, hname]
  have h15 : manifestFile.length = 15 := by decide
  rcases Nat.eq_zero_or_pos n with rfl | hpos
  · simp
  · have hne : manifestFile.take n ≠ [] := fun he => by
      have hlen := congrArg List.length he
      rw [List.length_take, List.length_nil] at hlen
      omega
    rw [if_neg hne]
    split_ifs with hcut
    · rfl
    · rw [List.take_of_length_le (by omega)]

theorem Failing.recovered_iff (failure : LogFailure) :
    (VersionManager.init db_dir (filesAfter files vm e failure)).1.current = vm.current ↔
      failure.Harmless vm.current e := by
  set text := editText e vm.next_file_number with htext
  have hlog : Function.update files vm.manifestPath
      (some ((files vm.manifestPath).getD [] ++ text)) = cutFiles db_dir files text text.length := by
    rw [h.manifest_path, cutFiles, List.take_length]
  cases failure with
  | manifestOpen => exact iff_of_true (recover_logged h.logged).1.current trivial
  | manifestWrite n =>
    have hfiles : filesAfter files vm e (.manifestWrite n) = cutFiles db_dir files text n := by
      change Function.update files vm.manifestPath _ = _
      rw [h.manifest_path, cutFiles]
    rw [hfiles]
    exact h.cut_iff n
  | currentOpen =>
    have hfiles : filesAfter files vm e .currentOpen = cutFiles db_dir files text text.length := hlog
    rw [hfiles]
    exact h.logged_iff
  | currentWrite n =>
    have hfiles : filesAfter files vm e (.currentWrite n) =
        Function.update (cutFiles db_dir files text text.length) (joinPath vm.db_dir currentFile)
          (some ((baseName vm.manifestPath ++ [newline]).take n)) := by
      rw [← hlog]
      rfl
    have hpath := h.recoveryPath_cut n (cutFiles db_dir files text text.length)
    rw [← hfiles] at hpath
    rw [LogFailure.Harmless]
    split_ifs at hpath ⊢ with hcut
    · -- `CURRENT` names a file that is not there
      have hnone : filesAfter files vm e (.currentWrite n) (joinPath db_dir (manifestFile.take n)) = none := by
        have hother : joinPath db_dir (manifestFile.take n) ≠ joinPath db_dir manifestFile := fun he => by
          have hlen := congrArg List.length (joinPath_inj he)
          rw [List.length_take] at hlen
          omega
        have hcurrent : joinPath db_dir (manifestFile.take n) ≠ joinPath db_dir currentFile :=
          fun he => manifest_take_ne_current n hcut.2 (joinPath_inj he)
        rw [hfiles, h.db_dir_eq, Function.update_of_ne hcurrent, cutFiles, Function.update_of_ne hother]
        exact h.alone n hcut.1 hcut.2
      rw [init_of_path hpath, hnone]
      constructor
      · exact fun hsame l => by rw [← hsame]; rfl
      · exact fun hempty => Version.ordered_empty.ext h.ordered fun l f => by
          rw [hempty l]
          rfl
    · rw [← h.logged_iff, ← htext, init_of_path hpath]
      have hpath' : VersionManager.recoveryPath { VersionManager.new db_dir with
          manifest_name := joinPath db_dir manifestFile } (cutFiles db_dir files text text.length) =
          joinPath db_dir manifestFile :=
        recoveryPath_eq (namesManifest_update h.logged.current_file _) rfl rfl
      rw [init_of_path hpath', hfiles, h.db_dir_eq, Function.update_of_ne (manifest_ne_current db_dir)]

omit h in
theorem mem_withoutAdded {x : Bytes × Option SSTable} (hx : x ∈ dir)
    (hnot : ∀ a ∈ e.added_files, a.2.file_name ≠ joinPath db_dir x.1) :
    x ∈ withoutAdded db_dir dir e := by
  refine mem_foldl_removeTable hx fun hmem => ?_
  obtain ⟨a, ha, heq⟩ := List.mem_map.mp hmem
  exact hnot a ha heq

/-- A file of the version has another name than an added one. -/
theorem Failing.name_ne {l : Fin kMaxLevel} {f : FileMeta} (hf : f ∈ vm.current.level_files l)
    {a : ℤ × FileMeta} (ha : a ∈ e.added_files) : a.2.file_name ≠ f.file_name := by
  intro hname
  have hfile := h.live l f hf
  have hadd := h.added a ha
  rw [hfile.name, hadd.name] at hname
  have hnumber := sstName_inj hadd.number hfile.number (joinPath_inj hname)
  exact h.edit.added_fresh a.2.file_number (List.mem_map.mpr ⟨a, ha, rfl⟩) l f hf hnumber.symm

/-- With the version recovered and the new files deleted, a restart has the old ones. -/
theorem Failing.restart {failure : LogFailure}
    (hsame : (VersionManager.init db_dir (filesAfter files vm e failure)).1.current = vm.current)
    (hdel : e.deleted_files ≠ []) :
    (startup db_dir (filesAfter files vm e failure) (withoutAdded db_dir dir e)).vm.current = vm.current ∧
      ∀ l, ∀ f ∈ vm.current.level_files l, ∃ t, (baseName f.file_name, some t) ∈
        (startup db_dir (filesAfter files vm e failure) (withoutAdded db_dir dir e)).dir := by
  set st : Startup := ⟨(VersionManager.init db_dir (filesAfter files vm e failure)).1, [],
    filesAfter files vm e failure, withoutAdded db_dir dir e⟩ with hst
  have hcurrent : st.vm.current = vm.current := hsame
  have hne : ¬ st.vm.current.IsEmpty := by
    obtain ⟨d, hd⟩ := List.exists_mem_of_ne_nil _ hdel
    obtain ⟨l, -, f, hf, -⟩ := h.edit.deleted_live d hd
    intro hempty
    rw [← hcurrent, hempty l] at hf
    contradiction
  obtain ⟨hkeep, hlive⟩ := load_of_files hne
  refine ⟨hkeep.trans hcurrent, fun l f hf => ?_⟩
  have hfile := h.live l f hf
  obtain ⟨t, ht, -⟩ := hfile.table
  have hbase : baseName f.file_name = sstName f.file_number := by
    rw [hfile.name, baseName_newFileName]
  refine ⟨t, hlive l f (hcurrent ▸ hf) _ ?_⟩
  rw [hbase]
  refine mem_withoutAdded ht fun a ha hname => h.name_ne hf ha ?_
  rw [hname, hfile.name]

end

theorem failing_compactTwo : Failing (ascii "db") flushed.2 threeTables flushed.1 compactTwo := by
  refine ⟨committing_compactTwo, ?_, by decide +kernel, by decide +kernel, ?_⟩
  · intro a ha
    obtain rfl : a = (1, oneEntryFile 3 6) := List.mem_singleton.mp ha
    decide +kernel
  · have hnone : ∀ n < manifestFile.length, 0 < n →
        flushed.2 (joinPath (ascii "db") (manifestFile.take n)) = none := by decide +kernel
    exact fun n hpos hn => hnone n hn hpos

end MiniTsdb
