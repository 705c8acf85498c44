import MiniTsdb.Lib.Runs
import MiniTsdb.Proofs.ManifestReplay

/-! Memory, manifest log and manifest snapshot through any history of commits: the
version that recovery rebuilds is the one the running manager holds. -/

namespace MiniTsdb
open Lib

/-- The version manager, its files, and the numbers it gave out that no edit has used. -/
structure LogState where
  vm : VersionManager
  files : Files
  fresh : List ℕ

inductive LogAction
  | newFileNumber
  | logAndApply (edit : VersionEdit)
  | writeSnapshotManifest
  | restart

def VersionEdit.addedNumbers (e : VersionEdit) : List ℕ :=
  e.added_files.map fun a => a.2.file_number

/-- Every file operation succeeds; the files an edit adds carry numbers that
`NewFileNumber` gave out since the start and that no other file has. -/
def LogState.step (s : LogState) : LogAction → Option LogState
  | .newFileNumber =>
    let (n, vm) := s.vm.newFileNumber
    some { s with vm := vm, fresh := n :: s.fresh }
  | .logAndApply edit =>
    if edit.addedNumbers.Nodup ∧ ∀ n ∈ edit.addedNumbers, n ∈ s.fresh then
      let (vm, files) := s.vm.logAndApply s.files edit
      some ⟨vm, files, s.fresh.filter fun n => n ∉ edit.addedNumbers⟩
    else none
  | .writeSnapshotManifest =>
    let (vm, files) := s.vm.writeSnapshotManifest s.files
    some { s with vm := vm, files := files }
  | .restart => some ⟨(VersionManager.init s.vm.db_dir s.files).1, s.files, []⟩

def LogState.start (db_dir : Bytes) : LogState :=
  ⟨(VersionManager.init db_dir fun _ => none).1, fun _ => none, []⟩

/-- What an action writes to the manifest parses back to what was written. -/
def LogState.ReadsBack (s : LogState) : LogAction → Prop
  | .logAndApply edit => EditReadsBack s.vm.db_dir edit s.vm.next_file_number
  | .writeSnapshotManifest =>
    EditReadsBack s.vm.db_dir ⟨s.vm.current.allFiles, []⟩ s.vm.next_file_number
  | _ => True

instance (s : LogState) : (a : LogAction) → Decidable (s.ReadsBack a)
  | .newFileNumber => .isTrue trivial
  | .logAndApply edit =>
    inferInstanceAs (Decidable (EditReadsBack s.vm.db_dir edit s.vm.next_file_number))
  | .writeSnapshotManifest =>
    inferInstanceAs (Decidable
      (EditReadsBack s.vm.db_dir ⟨s.vm.current.allFiles, []⟩ s.vm.next_file_number))
  | .restart => .isTrue trivial

/-- The manager recovery starts from. -/
def recoveryStart (db_dir : Bytes) : VersionManager :=
  ⟨db_dir, joinPath db_dir manifestFile, .empty, 1, []⟩

/-- The manifest stands for version `v`. -/
def ManifestHolds (db_dir : Bytes) (v : Version) (text : Bytes) : Prop :=
  Terminated text ∧ ∃ r,
    (parseManifest db_dir text).foldlM VersionManager.replayLine (recoveryStart db_dir) = .ok r ∧
      r.current = v

/-- `CURRENT` names the manifest, or is not there. -/
def NamesManifest (db_dir : Bytes) (files : Files) : Prop :=
  files (joinPath db_dir currentFile) = none ∨
    files (joinPath db_dir currentFile) = some (manifestFile ++ [newline])

/-- The files of a manager that logs to the manifest of `db_dir`. -/
structure Logged (db_dir : Bytes) (v : Version) (files : Files) : Prop where
  current_file : NamesManifest db_dir files
  manifest : match files (joinPath db_dir manifestFile) with
    | none => v = .empty
    | some text => ManifestHolds db_dir v text

theorem baseName_joinPath (dir : Bytes) {name : Bytes} (h : slash ∉ name) :
    baseName (joinPath dir name) = name := by
  have hstop := takeWhile_append_stop (p := fun b => b != slash) (s := name.reverse)
    (t := slash :: dir.reverse) (fun b hb => by
      have hne : b ≠ slash := fun he => h (he ▸ List.mem_reverse.mp hb)
      simpa using hne) (by simp)
  have hrev : (joinPath dir name).reverse = name.reverse ++ slash :: dir.reverse := by
    simp [joinPath]
  rw [baseName, hrev, hstop.1, List.reverse_reverse]

theorem baseName_manifest (db_dir : Bytes) :
    baseName (joinPath db_dir manifestFile) = manifestFile :=
  baseName_joinPath db_dir (by decide +kernel)

theorem manifest_ne_current (db_dir : Bytes) :
    joinPath db_dir manifestFile ≠ joinPath db_dir currentFile := fun h => by
  have := joinPath_inj h
  revert this; decide +kernel

theorem joinPath_isEmpty (dir name : Bytes) : (joinPath dir name).isEmpty = false := by
  simp [joinPath]

theorem getLines_current : (getLines (manifestFile ++ [newline])).headD [] = manifestFile := by
  decide +kernel

theorem namesManifest_update {db_dir : Bytes} {files : Files} (h : NamesManifest db_dir files)
    (text : Option Bytes) :
    NamesManifest db_dir (Function.update files (joinPath db_dir manifestFile) text) := by
  unfold NamesManifest
  rw [Function.update_of_ne (manifest_ne_current db_dir).symm]
  exact h

theorem recoveryPath_eq {db_dir : Bytes} {files : Files} (h : NamesManifest db_dir files)
    {vm : VersionManager} (hdir : vm.db_dir = db_dir)
    (hname : vm.manifest_name = joinPath db_dir manifestFile) :
    vm.recoveryPath files = joinPath db_dir manifestFile := by
  unfold VersionManager.recoveryPath VersionManager.manifestPath
  rw [hdir, hname]
  rcases h with hc | hc
  · simp [hc, joinPath_isEmpty]
  · have hne : manifestFile.isEmpty = false := by decide +kernel
    simp only [hc, Option.map_some, Option.getD_some, getLines_current, hne, Bool.false_eq_true,
      if_false]

theorem init_eq {db_dir : Bytes} {files : Files} (h : NamesManifest db_dir files) :
    VersionManager.init db_dir files =
      match files (joinPath db_dir manifestFile) with
      | none => (recoveryStart db_dir, .notFound "manifest not found")
      | some text => (recoveryStart db_dir).replayLines (parseManifest db_dir text) := by
  have hpath : VersionManager.recoveryPath { VersionManager.new db_dir with
      manifest_name := joinPath db_dir manifestFile } files = joinPath db_dir manifestFile :=
    recoveryPath_eq h rfl rfl
  unfold VersionManager.init VersionManager.recoverFromManifest
  simp only [hpath]
  rfl

theorem below_recoveryStart (db_dir : Bytes) : (recoveryStart db_dir).Below :=
  fun _ _ hf => absurd hf List.not_mem_nil

theorem init_named {db_dir : Bytes} {files : Files} (h : NamesManifest db_dir files) :
    (VersionManager.init db_dir files).1.Below ∧ (VersionManager.init db_dir files).1.db_dir = db_dir ∧
      (VersionManager.init db_dir files).1.manifest_name = joinPath db_dir manifestFile := by
  rw [init_eq h]
  cases files (joinPath db_dir manifestFile) with
  | none => exact ⟨below_recoveryStart db_dir, rfl, rfl⟩
  | some text =>
    refine replayLines_invariant (P := fun vm => vm.Below ∧ vm.db_dir = db_dir ∧
      vm.manifest_name = joinPath db_dir manifestFile) ?_ (fun _ hp => hp)
      ⟨below_recoveryStart db_dir, rfl, rfl⟩
    rintro line - vm vm' ⟨hbelow, hdir, hname⟩ hline
    obtain ⟨hdir', hname'⟩ := paths_replayLine hline
    exact ⟨below_replayLine hbelow hline, hdir'.trans hdir, hname'.trans hname⟩

/-- What a restart finds on logged files. -/
structure Recovered (db_dir : Bytes) (v : Version) (vm : VersionManager) : Prop where
  current : vm.current = v
  below : vm.Below
  dir_eq : vm.db_dir = db_dir
  name_eq : vm.manifest_name = joinPath db_dir manifestFile
  no_obsolete : vm.obsolete_files = []

/-- Recovery on logged files: the version comes back, below the counter. -/
theorem recover_logged {db_dir : Bytes} {v : Version} {files : Files} (h : Logged db_dir v files) :
    Recovered db_dir v (VersionManager.init db_dir files).1 ∧
      ((VersionManager.init db_dir files).2 = .ok ∨
        files (joinPath db_dir manifestFile) = none ∧ v = .empty) := by
  have hm := h.manifest
  rw [init_eq h.current_file]
  cases hf : files (joinPath db_dir manifestFile) with
  | none =>
    rw [hf] at hm
    exact ⟨⟨hm.symm, below_recoveryStart db_dir, rfl, rfl, rfl⟩, Or.inr ⟨rfl, hm⟩⟩
  | some text =>
    rw [hf] at hm
    obtain ⟨-, r, hr, hv⟩ := hm
    obtain ⟨hdir, hname⟩ := paths_foldlM hr
    have hbelow : r.Below := below_foldlM (below_recoveryStart db_dir) hr
    simp only [replayLines_of_foldlM hr]
    exact ⟨⟨hv, hbelow, hdir, hname, rfl⟩, by simp⟩

theorem manifestPath_eq {vm : VersionManager} {db_dir : Bytes}
    (h : vm.manifest_name = joinPath db_dir manifestFile) :
    vm.manifestPath = joinPath db_dir manifestFile := by
  unfold VersionManager.manifestPath
  rw [h, if_neg (by simp [joinPath])]

theorem manifestHolds_edit {db_dir : Bytes} {vm : VersionManager} {text : Bytes}
    (h : ManifestHolds db_dir vm.current text) (hord : vm.current.Ordered) {e : VersionEdit}
    (hnew : e.NewIn vm.current) {next : ℕ} (hread : EditReadsBack db_dir e next) :
    ManifestHolds db_dir (vm.applyUnlocked e).current (text ++ editText e next) := by
  obtain ⟨hterm, r, hr, hv⟩ := h
  obtain ⟨r', hr', hv'⟩ := replay_edit hv hord hnew next
  refine ⟨terminated_append hterm (terminated_editText e next), r', ?_, hv'⟩
  rw [parseManifest_append db_dir hterm, parseManifest_editText hread, List.foldlM_append, hr]
  exact hr'

theorem manifestHolds_nil (db_dir : Bytes) : ManifestHolds db_dir .empty [] :=
  ⟨Or.inl rfl, recoveryStart db_dir, rfl, rfl⟩

/-- With the manifest named, a commit changes the manager as `ApplyUnlocked` does. -/
theorem logAndApply_vm {db_dir : Bytes} {vm : VersionManager}
    (hname : vm.manifest_name = joinPath db_dir manifestFile) (files : Files) (e : VersionEdit) :
    (vm.logAndApply files e).1 = vm.applyUnlocked e := by
  have hself : { vm with manifest_name := vm.manifestPath } = vm := by
    rw [manifestPath_eq hname, ← hname]
  rw [VersionManager.logAndApply, hself]

theorem logged_logAndApply {db_dir : Bytes} {vm : VersionManager} {files : Files}
    (hdir : vm.db_dir = db_dir) (hname : vm.manifest_name = joinPath db_dir manifestFile)
    (hord : vm.current.Ordered) (h : Logged db_dir vm.current files) {e : VersionEdit}
    (hnew : e.NewIn vm.current) (hread : EditReadsBack db_dir e vm.next_file_number) :
    Logged db_dir (vm.logAndApply files e).1.current (vm.logAndApply files e).2 ∧
      (vm.logAndApply files e).1 = vm.applyUnlocked e := by
  have hpath := manifestPath_eq hname
  have hself : { vm with manifest_name := vm.manifestPath } = vm := by rw [hpath, ← hname]
  have hne := manifest_ne_current db_dir
  have happly := logAndApply_vm hname files e
  refine ⟨⟨Or.inr ?_, ?_⟩, happly⟩
  · rw [VersionManager.logAndApply, hself, hdir, hname, baseName_manifest]
    exact Function.update_self ..
  · have hfile : (vm.logAndApply files e).2 (joinPath db_dir manifestFile) =
        some ((files (joinPath db_dir manifestFile)).getD [] ++ editText e vm.next_file_number) := by
      rw [VersionManager.logAndApply, hself, hdir, hname]
      dsimp only
      rw [Function.update_of_ne hne]
      exact Function.update_self ..
    rw [hfile, happly]
    refine manifestHolds_edit ?_ hord hnew hread
    have hm := h.manifest
    cases hf : files (joinPath db_dir manifestFile) with
    | none =>
      rw [hf] at hm
      rw [hm]
      exact manifestHolds_nil db_dir
    | some text =>
      rw [hf] at hm
      exact hm

theorem flatMap_ite_eq {α β : Type} [DecidableEq α] {a : α} {as : List α} (hn : as.Nodup)
    (ha : a ∈ as) (xs : List β) : (as.flatMap fun b => if b = a then xs else []) = xs := by
  induction as with
  | nil => contradiction
  | cons b as ih =>
    obtain ⟨hb, hn⟩ := List.nodup_cons.mp hn
    rw [List.flatMap_cons]
    by_cases hba : b = a
    · subst hba
      have hrest : (as.flatMap fun c => if c = b then xs else []) = [] := by
        refine List.flatMap_eq_nil_iff.mpr fun c hc => if_neg ?_
        rintro rfl
        exact hb hc
      rw [if_pos rfl, hrest, List.append_nil]
    · rw [if_neg hba, List.nil_append]
      exact ih hn ((List.mem_cons.mp ha).resolve_left (Ne.symm hba))

theorem addedAt_allFiles (v : Version) (l : Fin kMaxLevel) :
    VersionEdit.addedAt ⟨v.allFiles, []⟩ l = v.level_files l := by
  have hone : ∀ b : Fin kMaxLevel, (((v.level_files b).map fun f => ((b.val : ℤ), f)).filter
      fun a => levelIndex a.1 == some l).map Prod.snd =
      if b = l then v.level_files l else [] := by
    intro b
    rw [List.filter_map, List.map_map]
    by_cases hb : b = l
    · subst hb
      simp [Function.comp_def, levelIndex_val]
    · simp [Function.comp_def, levelIndex_val, hb]
  rw [VersionEdit.addedAt, Version.allFiles, List.filter_flatMap, List.map_flatMap]
  simp only [hone]
  exact flatMap_ite_eq (List.nodup_finRange _) (List.mem_finRange l) _

theorem newIn_allFiles {v : Version} (h : v.Ordered) :
    VersionEdit.NewIn ⟨v.allFiles, []⟩ .empty := by
  intro l
  rw [addedAt_allFiles]
  exact ⟨(h l).nodup_map, fun f hf => absurd hf List.not_mem_nil⟩

theorem applyUnlocked_allFiles {v : Version} (h : v.Ordered) (db_dir : Bytes) :
    ((recoveryStart db_dir).applyUnlocked ⟨v.allFiles, []⟩).current = v := by
  refine (ordered_applyUnlocked Version.ordered_empty (newIn_allFiles h)).ext h fun l f => ?_
  rw [mem_applyUnlocked, addedAt_allFiles]
  exact or_iff_right fun hf => absurd hf.1 List.not_mem_nil

theorem writeSnapshotManifest_vm {db_dir : Bytes} {vm : VersionManager}
    (hname : vm.manifest_name = joinPath db_dir manifestFile) (files : Files) :
    (vm.writeSnapshotManifest files).1 = vm := by
  have hself : { vm with manifest_name := vm.manifestPath } = vm := by
    rw [manifestPath_eq hname, ← hname]
  rw [VersionManager.writeSnapshotManifest, hself]

theorem logged_writeSnapshotManifest {db_dir : Bytes} {vm : VersionManager} {files : Files}
    (hname : vm.manifest_name = joinPath db_dir manifestFile) (hord : vm.current.Ordered)
    (h : NamesManifest db_dir files)
    (hread : EditReadsBack db_dir ⟨vm.current.allFiles, []⟩ vm.next_file_number) :
    Logged db_dir vm.current (vm.writeSnapshotManifest files).2 ∧
      (vm.writeSnapshotManifest files).1 = vm := by
  have hpath := manifestPath_eq hname
  have hself : { vm with manifest_name := vm.manifestPath } = vm := by rw [hpath, ← hname]
  refine ⟨⟨?_, ?_⟩, writeSnapshotManifest_vm hname files⟩
  · rw [VersionManager.writeSnapshotManifest, hself, hname]
    exact namesManifest_update h _
  · have hfile : (vm.writeSnapshotManifest files).2 (joinPath db_dir manifestFile) =
        some (editText ⟨vm.current.allFiles, []⟩ vm.next_file_number) := by
      rw [VersionManager.writeSnapshotManifest, hself, hname]
      exact Function.update_self ..
    have hedit := manifestHolds_edit
      (show ManifestHolds db_dir (recoveryStart db_dir).current [] from manifestHolds_nil db_dir)
      Version.ordered_empty (newIn_allFiles hord) hread
    rw [applyUnlocked_allFiles hord] at hedit
    rw [hfile]
    exact hedit

/-- What every state of the log satisfies. -/
structure LogInv (db_dir : Bytes) (s : LogState) : Prop where
  dir_eq : s.vm.db_dir = db_dir
  name_eq : s.vm.manifest_name = joinPath db_dir manifestFile
  ordered : s.vm.current.Ordered
  below : s.vm.Below
  fresh_lt : ∀ n ∈ s.fresh, n < s.vm.next_file_number
  fresh_unused : ∀ n ∈ s.fresh, ∀ l, ∀ f ∈ s.vm.current.level_files l, f.file_number ≠ n
  logged : Logged db_dir s.vm.current s.files

theorem logged_start (db_dir : Bytes) : Logged db_dir .empty fun _ => none := ⟨Or.inl rfl, rfl⟩

theorem logInv_start (db_dir : Bytes) : LogInv db_dir (LogState.start db_dir) := by
  obtain ⟨⟨hv, hbelow, hdir, hname, -⟩, -⟩ := recover_logged (logged_start db_dir)
  have hcur : (LogState.start db_dir).vm.current = .empty := hv
  exact ⟨hdir, hname, hcur ▸ Version.ordered_empty, hbelow, fun n hn => absurd hn List.not_mem_nil,
    fun n hn => absurd hn List.not_mem_nil, hcur ▸ logged_start db_dir⟩

theorem mem_addedNumbers {e : VersionEdit} {l : Fin kMaxLevel} {f : FileMeta}
    (h : f ∈ e.addedAt l) : f.file_number ∈ e.addedNumbers := by
  obtain ⟨level, -, hmem⟩ := VersionEdit.mem_addedAt.mp h
  exact List.mem_map.mpr ⟨_, hmem, rfl⟩

theorem addedAt_numbers_nodup {e : VersionEdit} (h : e.addedNumbers.Nodup) (l : Fin kMaxLevel) :
    ((e.addedAt l).map FileMeta.file_number).Nodup := by
  rw [VersionEdit.addedAt, List.map_map]
  exact h.sublist (List.filter_sublist.map _)

theorem newIn_of_fresh {e : VersionEdit} {v : Version} (hnodup : e.addedNumbers.Nodup)
    (hfresh : ∀ n ∈ e.addedNumbers, ∀ l, ∀ f ∈ v.level_files l, f.file_number ≠ n) : e.NewIn v := by
  refine fun l => ⟨addedAt_numbers_nodup hnodup l, fun f hf _ hm => ?_⟩
  obtain ⟨g, hg, hfg⟩ := List.mem_map.mp hm
  exact hfresh _ (mem_addedNumbers hg) l f hf hfg.symm

theorem logInv_step {db_dir : Bytes} {s s' : LogState} {a : LogAction} (h : LogInv db_dir s)
    (hread : s.ReadsBack a) (hstep : s.step a = some s') : LogInv db_dir s' := by
  cases a with
  | newFileNumber =>
    obtain rfl := Option.some.inj hstep
    refine ⟨h.dir_eq, h.name_eq, h.ordered, fun l f hf => ?_, ?_, ?_, h.logged⟩
    · exact Nat.lt_succ_of_lt (h.below l f hf)
    · intro n hn
      rcases List.mem_cons.mp hn with rfl | hn
      · exact Nat.lt_succ_self _
      · exact Nat.lt_succ_of_lt (h.fresh_lt n hn)
    · intro n hn l f hf
      rcases List.mem_cons.mp hn with rfl | hn
      · exact (h.below l f hf).ne
      · exact h.fresh_unused n hn l f hf
  | logAndApply e =>
    simp only [LogState.step] at hstep
    split_ifs at hstep with hfresh
    obtain rfl := Option.some.inj hstep
    obtain ⟨hnodup, hsub⟩ := hfresh
    have hnew : e.NewIn s.vm.current :=
      newIn_of_fresh hnodup fun n hn => h.fresh_unused n (hsub n hn)
    obtain ⟨hlogged, happly⟩ := logged_logAndApply h.dir_eq h.name_eq h.ordered h.logged hnew
      (h.dir_eq ▸ hread)
    rw [happly] at hlogged ⊢
    refine ⟨?_, ?_, ordered_applyUnlocked h.ordered hnew, ?_, ?_, ?_, hlogged⟩
    · exact (applyUnlocked_db_dir _ _).trans h.dir_eq
    · exact (applyUnlocked_manifest_name _ _).trans h.name_eq
    · refine below_applyUnlocked h.below fun l f hf => ?_
      exact lt_of_lt_of_le (h.fresh_lt _ (hsub _ (mem_addedNumbers hf))) (le_bumpLast _ _)
    · intro n hn
      rw [applyUnlocked_next]
      exact lt_of_lt_of_le (h.fresh_lt n (List.mem_of_mem_filter hn)) (le_bumpLast _ _)
    · intro n hn l f hf
      obtain ⟨hn, hnot⟩ := List.mem_filter.mp hn
      rcases mem_applyUnlocked.mp hf with ⟨hold, -⟩ | hadd
      · exact h.fresh_unused n hn l f hold
      · rintro rfl
        exact absurd (mem_addedNumbers hadd) (by simpa using hnot)
  | writeSnapshotManifest =>
    obtain rfl := Option.some.inj hstep
    obtain ⟨hlogged, hvm⟩ := logged_writeSnapshotManifest h.name_eq h.ordered
      h.logged.current_file
      (h.dir_eq ▸ hread)
    change LogInv db_dir ⟨(s.vm.writeSnapshotManifest s.files).1, _, s.fresh⟩
    rw [hvm]
    exact ⟨h.dir_eq, h.name_eq, h.ordered, h.below, h.fresh_lt, h.fresh_unused, hlogged⟩
  | restart =>
    obtain rfl := Option.some.inj hstep
    rw [h.dir_eq]
    obtain ⟨⟨hv, hbelow, hdir, hname, -⟩, -⟩ := recover_logged h.logged
    exact ⟨hdir, hname, hv ▸ h.ordered, hbelow, fun n hn => absurd hn List.not_mem_nil,
      fun n hn => absurd hn List.not_mem_nil, hv ▸ h.logged⟩

theorem logInv_reach {db_dir : Bytes} {s : LogState}
    (h : Reach LogState.step LogState.ReadsBack (LogState.start db_dir) s) : LogInv db_dir s :=
  h.invariant (logInv_start db_dir) fun _ _ _ hi hr hs => logInv_step hi hr hs

/-- After any history, recovery rebuilds every level as the running manager holds it,
and its counter is above every number. -/
theorem recovery_rebuilds_current (db_dir : Bytes) {s : LogState}
    (h : Reach LogState.step LogState.ReadsBack (LogState.start db_dir) s) :
    let r := VersionManager.init db_dir s.files
    (∀ l, r.1.current.level_files l = s.vm.current.level_files l) ∧
      (∀ l, ∀ f ∈ r.1.current.level_files l, f.file_number < r.1.next_file_number) ∧
      (r.2 = .ok ∨ s.files (joinPath db_dir manifestFile) = none ∧ s.vm.current = .empty) := by
  obtain ⟨hrec, hstatus⟩ := recover_logged (logInv_reach h).logged
  exact ⟨fun l => by rw [hrec.current], hrec.below, hstatus⟩

theorem recovery_rebuilds_current_run :
    ∃ s, [LogAction.newFileNumber, .newFileNumber,
        .logAndApply ⟨[(0, ⟨2, ascii "db/000002.sst", 90, ⟨ascii "cpu", 1⟩, ⟨ascii "mem", 4⟩⟩)], []⟩,
        .writeSnapshotManifest, .restart].foldlM
          (guarded LogState.step LogState.ReadsBack) (LogState.start (ascii "db")) = some s ∧
      let r := VersionManager.init (ascii "db") s.files
      (∀ l, r.1.current.level_files l = s.vm.current.level_files l) ∧
        (∀ l, ∀ f ∈ r.1.current.level_files l, f.file_number < r.1.next_file_number) ∧
        (r.2 = .ok ∨ s.files (joinPath (ascii "db") manifestFile) = none ∧
          s.vm.current = .empty) := by
  obtain ⟨s, hs⟩ := Option.isSome_iff_exists.mp (show Option.isSome
    ([LogAction.newFileNumber, .newFileNumber,
        .logAndApply ⟨[(0, ⟨2, ascii "db/000002.sst", 90, ⟨ascii "cpu", 1⟩, ⟨ascii "mem", 4⟩⟩)], []⟩,
        .writeSnapshotManifest, .restart].foldlM
          (guarded LogState.step LogState.ReadsBack) (LogState.start (ascii "db"))) = true by
    decide +kernel)
  exact ⟨s, hs, recovery_rebuilds_current (ascii "db") (reach_of_foldlM hs)⟩

end MiniTsdb
