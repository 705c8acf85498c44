import MiniTsdb.Proofs.Reopen

/-! The file counter on disk: what a restart counts on from. -/

namespace MiniTsdb
open Lib

variable {scanned : TsKey → Bool}

/-- The counter that recovery finds in the files. -/
def Store.savedNext (s : Store) : ℕ := (VersionManager.init s.vmgr.db_dir s.files).1.next_file_number

/-- A manifest that reads back and ends in a `next_file` line saves that number. -/
theorem saved_of_last {db_dir : Bytes} {v : Version} {files : Files} (h : Logged db_dir v files)
    {text : Bytes} (hfile : files (joinPath db_dir manifestFile) = some text)
    (lines : List ManifestLine) {n : ℕ}
    (hlines : parseManifest db_dir text = lines ++ [.nextFile n]) :
    n ≤ (VersionManager.init db_dir files).1.next_file_number := by
  have hm := h.manifest
  rw [hfile] at hm
  obtain ⟨-, r, hr, -⟩ := hm
  rw [init_eq h.current_file, hfile]
  dsimp only
  rw [replayLines_of_foldlM hr]
  rw [hlines, List.foldlM_append] at hr
  cases hr₁ : lines.foldlM VersionManager.replayLine (recoveryStart db_dir) with
  | error m =>
    rw [hr₁] at hr
    contradiction
  | ok r₁ =>
    rw [hr₁] at hr
    have hlast : (if n > r₁.next_file_number then { r₁ with next_file_number := n } else r₁) = r :=
      Except.ok.inj hr
    rw [← hlast]
    dsimp only
    split_ifs with hn
    · exact le_rfl
    · exact not_lt.mp hn

theorem saved_logAndApply {db_dir : Bytes} {vm : VersionManager} {files : Files}
    (hdir : vm.db_dir = db_dir) (hname : vm.manifest_name = joinPath db_dir manifestFile)
    (hord : vm.current.Ordered) (h : Logged db_dir vm.current files) {e : VersionEdit}
    (hnew : e.NewIn vm.current) (hread : EditReadsBack db_dir e vm.next_file_number) :
    vm.next_file_number ≤
      (VersionManager.init db_dir (vm.logAndApply files e).2).1.next_file_number := by
  have hself : { vm with manifest_name := vm.manifestPath } = vm := by
    rw [manifestPath_eq hname, ← hname]
  have hfile : (vm.logAndApply files e).2 (joinPath db_dir manifestFile) =
      some ((files (joinPath db_dir manifestFile)).getD [] ++ editText e vm.next_file_number) := by
    rw [VersionManager.logAndApply, hself, hdir, hname]
    dsimp only
    rw [Function.update_of_ne (manifest_ne_current db_dir)]
    exact Function.update_self ..
  have hterm : Terminated ((files (joinPath db_dir manifestFile)).getD []) := by
    have hm := h.manifest
    cases hf : files (joinPath db_dir manifestFile) with
    | none => exact Or.inl rfl
    | some text =>
      rw [hf] at hm
      exact hm.1
  refine saved_of_last (logged_logAndApply hdir hname hord h hnew hread).1 hfile
    (parseManifest db_dir ((files (joinPath db_dir manifestFile)).getD []) ++
      e.items.map EditItem.parsed) ?_
  rw [parseManifest_append db_dir hterm, parseManifest_editText hread, editLines, List.append_assoc]

theorem saved_writeSnapshotManifest {db_dir : Bytes} {vm : VersionManager} {files : Files}
    (hname : vm.manifest_name = joinPath db_dir manifestFile) (hord : vm.current.Ordered)
    (h : NamesManifest db_dir files)
    (hread : EditReadsBack db_dir ⟨vm.current.allFiles, []⟩ vm.next_file_number) :
    vm.next_file_number ≤
      (VersionManager.init db_dir (vm.writeSnapshotManifest files).2).1.next_file_number := by
  have hfile : (vm.writeSnapshotManifest files).2 (joinPath db_dir manifestFile) =
      some (editText ⟨vm.current.allFiles, []⟩ vm.next_file_number) := by
    rw [VersionManager.writeSnapshotManifest, manifestPath_eq hname]
    exact Function.update_self ..
  refine saved_of_last (logged_writeSnapshotManifest hname hord h hread).1 hfile
    ((VersionEdit.items ⟨vm.current.allFiles, []⟩).map EditItem.parsed) ?_
  rw [parseManifest_editText hread, editLines]

/-- A number that was given out and saved stays so. -/
theorem saved_step {s s' : Store} {a : StoreAction} (hinv : StoreInv scanned s)
    (hlog : Logged s.vmgr.db_dir s.vmgr.current s.files) (hok : StoreScans scanned s a)
    (hback : s.LogsBack a) (hs : s.step a = some s') {n : ℕ} (hnext : n < s.vmgr.next_file_number)
    (hsaved : n < s.savedNext) : n < s'.vmgr.next_file_number ∧ n < s'.savedNext := by
  cases disk_step hinv hok hs with
  | keep hdir hfiles hvm =>
    rw [Store.savedNext, hfiles, hvm]
    exact ⟨hnext, hsaved⟩
  | write t hasc hsource hvm hdir hfiles =>
    rw [Store.savedNext, hfiles, hvm]
    exact ⟨Nat.lt_succ_of_lt hnext, hsaved⟩
  | commit edit hedit hnew hdir hfiles hcurrent hnext' hdb =>
    have hle := saved_logAndApply rfl hinv.name_eq hinv.ordered hlog hnew (hback edit hedit)
    rw [Store.savedNext, hfiles, hdb, hnext']
    exact ⟨hnext, lt_of_lt_of_le hnext hle⟩
  | snapshot hedit hdir hfiles hvm =>
    have hsame : s'.vmgr.current = s.vmgr.current ∧ s'.vmgr.db_dir = s.vmgr.db_dir ∧
        s'.vmgr.next_file_number = s.vmgr.next_file_number ∧
        s'.vmgr.manifest_name = s.vmgr.manifest_name := by
      rw [hvm]
      exact ⟨rfl, rfl, rfl, rfl⟩
    obtain ⟨hcurrent, hdb, hcounter, hname⟩ := hsame
    have hle := saved_writeSnapshotManifest (hname.trans hinv.name_eq) (hcurrent ▸ hinv.ordered)
      hlog.current_file (by rw [hcurrent, hcounter]; exact hback _ hedit)
    rw [hcounter] at hle
    rw [Store.savedNext, hfiles, hdb, hcounter]
    exact ⟨hnext, lt_of_lt_of_le hnext hle⟩

theorem saved_commitFlush {s s' : Store} (hinv : StoreInv scanned s)
    (hlog : Logged s.vmgr.db_dir s.vmgr.current s.files) (hback : s.LogsBack .commitFlush)
    (hs : s.step .commitFlush = some s') :
    s'.vmgr.next_file_number = s.vmgr.next_file_number ∧ s.vmgr.next_file_number ≤ s'.savedNext := by
  obtain ⟨n, t, hb, rfl⟩ := commitFlush_eq hinv hs
  have hnew : (flushEdit (s.flushFile n t)).NewIn s.vmgr.current := by
    apply newIn_pending hinv
    rw [afterFlush_unpublished hb]
    exact (List.nil_sublist _).cons_cons n
  have hedit : s.pendingEdit .commitFlush = some (flushEdit (s.flushFile n t)) := by
    rw [Store.pendingEdit, hb]
    rfl
  refine ⟨afterFlush_next hinv hb, ?_⟩
  rw [Store.savedNext, afterFlush_db_dir]
  exact saved_logAndApply rfl hinv.name_eq hinv.ordered hlog hnew (hback _ hedit)

theorem openReader_next (s : Startup) (f : FileMeta) :
    s.vm.next_file_number ≤ (s.openReader f).vm.next_file_number := by
  unfold Startup.openReader
  split_ifs
  · exact le_rfl
  · split
    · exact le_rfl
    · dsimp only
      unfold VersionManager.markFileNumberUsed
      split_ifs with hn
      · exact Nat.le_succ_of_le hn
      · exact le_rfl

theorem addScanned_next (s : Startup) (e : Bytes × Option SSTable) :
    s.vm.next_file_number ≤ (s.addScanned e).vm.next_file_number := by
  unfold Startup.addScanned
  split
  · exact le_rfl
  · dsimp only
    rw [applyUnlocked_next]
    refine le_trans ?_ (le_bumpLast _ _)
    split
    · exact le_rfl
    · exact Nat.le_succ _

theorem foldl_next {α : Type} {f : Startup → α → Startup}
    (hf : ∀ s a, s.vm.next_file_number ≤ (f s a).vm.next_file_number) (as : List α) (s : Startup) :
    s.vm.next_file_number ≤ (as.foldl f s).vm.next_file_number := by
  induction as generalizing s with
  | nil => exact le_rfl
  | cons a as ih => exact (hf s a).trans (ih (f s a))

theorem startup_next (db_dir : Bytes) (files : Files) (dir : SstDir) :
    (VersionManager.init db_dir files).1.next_file_number ≤
      (startup db_dir files dir).vm.next_file_number := by
  set st : Startup := ⟨(VersionManager.init db_dir files).1, [], files, dir⟩ with hst
  have hscan := foldl_next addScanned_next (sortBy Prod.fst (st.dir.filter fun e => isSst e.1)) st
  change st.vm.next_file_number ≤ st.loadExistingSSTables.vm.next_file_number
  unfold Startup.loadExistingSSTables
  split_ifs
  · exact foldl_next openReader_next (st.vm.current.allFiles.map Prod.snd) st
  · unfold Startup.scanDirectory
    dsimp only
    split_ifs
    · exact hscan
    · exact hscan

end MiniTsdb
