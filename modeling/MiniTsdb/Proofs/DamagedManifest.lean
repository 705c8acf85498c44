import MiniTsdb.Proofs.ManifestReplay
import MiniTsdb.Proofs.StartupScan
import MiniTsdb.Spec.Engine

/-! Opening a directory whose manifest recovery stops early: which version is left, and which
tables the engine then removes. -/

namespace MiniTsdb
open Lib

def ManifestLine.isBad : ManifestLine → Bool
  | bad _ => true
  | _ => false

/-- The lines before the first malformed one. -/
def accepted (lines : List ManifestLine) : List ManifestLine := lines.takeWhile fun line => !line.isBad

/-- A line adds the file, and no later one deletes it. -/
def Lists (lines : List ManifestLine) (l : Fin kMaxLevel) (f : FileMeta) : Prop :=
  ∃ pre post, lines = pre ++ .add l.val f :: post ∧ .del l.val f.file_number ∉ post

theorem lists_cons {line : ManifestLine} {lines : List ManifestLine} {l : Fin kMaxLevel} {f : FileMeta} :
    Lists (line :: lines) l f ↔
      line = .add l.val f ∧ .del l.val f.file_number ∉ lines ∨ Lists lines l f := by
  constructor
  · rintro ⟨pre, post, heq, hnot⟩
    cases pre with
    | nil =>
      obtain ⟨rfl, rfl⟩ := List.cons.inj heq
      exact Or.inl ⟨rfl, hnot⟩
    | cons first pre =>
      obtain ⟨rfl, rfl⟩ := List.cons.inj heq
      exact Or.inr ⟨pre, post, rfl, hnot⟩
  · rintro (⟨rfl, hnot⟩ | ⟨pre, post, rfl, hnot⟩)
    · exact ⟨[], lines, rfl, hnot⟩
    · exact ⟨line :: pre, post, rfl, hnot⟩

theorem mem_replayLine {vm vm' : VersionManager} {line : ManifestLine}
    (h : vm.replayLine line = .ok vm') (l : Fin kMaxLevel) (f : FileMeta) :
    f ∈ vm'.current.level_files l ↔
      line = .add l.val f ∨ f ∈ vm.current.level_files l ∧ line ≠ .del l.val f.file_number := by
  cases line with
  | nextFile n =>
    obtain rfl := Except.ok.inj h
    split_ifs <;> simp
  | add level file =>
    obtain rfl := Except.ok.inj h
    rw [mem_applyUnlocked, VersionEdit.mem_addedAt]
    simp only [VersionEdit.deletes, List.any_nil, levelIndex_eq_iff, List.mem_singleton, Prod.mk.injEq,
      ManifestLine.add.injEq]
    constructor
    · rintro (⟨hf, -⟩ | ⟨level, rfl, hsame, rfl⟩)
      · exact Or.inr ⟨hf, by simp⟩
      · exact Or.inl ⟨hsame.symm, rfl⟩
    · rintro (⟨rfl, rfl⟩ | ⟨hf, -⟩)
      · exact Or.inr ⟨_, rfl, rfl, rfl⟩
      · exact Or.inl ⟨hf, trivial⟩
  | del level number =>
    obtain rfl := Except.ok.inj h
    rw [mem_applyUnlocked, VersionEdit.mem_addedAt]
    simp [VersionEdit.deletes, levelIndex_eq_iff]
  | bad message => contradiction
  | ignored =>
    obtain rfl := Except.ok.inj h
    simp

theorem mem_replayLines (lines : List ManifestLine) (vm : VersionManager) (l : Fin kMaxLevel)
    (f : FileMeta) : f ∈ (vm.replayLines lines).1.current.level_files l ↔
      f ∈ vm.current.level_files l ∧ .del l.val f.file_number ∉ accepted lines ∨
        Lists (accepted lines) l f := by
  induction lines generalizing vm with
  | nil => simp [VersionManager.replayLines, accepted, Lists]
  | cons line lines ih =>
    rw [VersionManager.replayLines]
    cases hl : vm.replayLine line with
    | error message =>
      have hbad : accepted (line :: lines) = [] := by
        cases line <;> first | contradiction | rfl
      rw [hbad]
      simp [Lists]
    | ok vm' =>
      have hgood : accepted (line :: lines) = line :: accepted lines := by
        cases line <;> first | contradiction | rfl
      rw [hgood, lists_cons, ih vm', mem_replayLine hl, List.mem_cons]
      constructor
      · rintro (⟨hline | ⟨hf, hline⟩, hnot⟩ | hlater)
        · exact Or.inr (Or.inl ⟨hline, hnot⟩)
        · exact Or.inl ⟨hf, not_or.mpr ⟨fun he => hline he.symm, hnot⟩⟩
        · exact Or.inr (Or.inr hlater)
      · rintro (⟨hf, hnot⟩ | ⟨hline, hnot⟩ | hlater)
        · obtain ⟨hline, hnot⟩ := not_or.mp hnot
          exact Or.inl ⟨Or.inr ⟨hf, fun he => hline he.symm⟩, hnot⟩
        · exact Or.inl ⟨Or.inl hline, hnot⟩
        · exact Or.inr hlater

/-- The lines of the manifest that opening a directory reads. -/
def manifestLines (db_dir : Bytes) (files : Files) : List ManifestLine :=
  ((files ({ VersionManager.new db_dir with
    manifest_name := joinPath db_dir manifestFile }.recoveryPath files)).map
      (parseManifest db_dir)).getD []

/-- Recovery leaves the files that the lines before the first malformed one list. -/
theorem mem_recovered (db_dir : Bytes) (files : Files) (l : Fin kMaxLevel) (f : FileMeta) :
    f ∈ (VersionManager.init db_dir files).1.current.level_files l ↔
      Lists (accepted (manifestLines db_dir files)) l f := by
  unfold manifestLines VersionManager.init VersionManager.recoverFromManifest
  dsimp only
  split
  · rename_i hnone
    rw [hnone]
    simp [VersionManager.new, Version.empty, accepted, Lists]
  · rename_i text htext
    rw [htext, mem_replayLines]
    simp [Version.empty, VersionManager.new]

theorem mem_startup_dir {db_dir : Bytes} {files : Files} {dir : SstDir} {e : Bytes × Option SSTable} :
    e ∈ (startup db_dir files dir).dir ↔ e ∈ dir ∧
      ((VersionManager.init db_dir files).1.current.IsEmpty ∨ isSst e.1 = false ∨
        e.1 ∈ (VersionManager.init db_dir files).1.current.liveFiles) := by
  set st : Startup := ⟨(VersionManager.init db_dir files).1, [], files, dir⟩ with hst
  change e ∈ st.loadExistingSSTables.dir ↔ _
  by_cases hempty : st.vm.current.IsEmpty
  · rw [load_of_empty hempty, (scanDirectory_frame st).2, foldl_addScanned_dir]
    exact ⟨fun he => ⟨he, Or.inl hempty⟩, fun he => he.1⟩
  · obtain ⟨hcurrent, hdir, -⟩ := openReaders_frame (st.vm.current.allFiles.map Prod.snd) st
    have hopened : st.openReadersForCurrentVersion.vm.current = st.vm.current := hcurrent
    have hsame : st.openReadersForCurrentVersion.dir = dir := hdir
    rw [Startup.loadExistingSSTables, if_pos ((numFiles_pos_iff _).mpr hempty),
      Startup.garbageCollectSSTables, List.mem_filter, hopened, hsame]
    refine and_congr_right fun _ => ⟨fun hkept => Or.inr ?_, fun hcase => ?_⟩
    · cases hsst : isSst e.1 with
      | false => exact Or.inl rfl
      | true => exact Or.inr (by simpa [hsst] using hkept)
    · rcases hcase.resolve_left hempty with hsst | hlive
      · simp [hsst]
      · have hin : e.1 ∈ st.vm.current.liveFiles := hlive
        simp [hin]

theorem mem_liveFiles_iff {v : Version} {name : Bytes} :
    name ∈ v.liveFiles ↔ ∃ l, ∃ f ∈ v.level_files l, baseName f.file_name = name := by
  have hall : name ∈ v.liveFiles ↔ ∃ f, (∃ l, f ∈ v.level_files l) ∧ baseName f.file_name = name := by
    simp [Version.liveFiles, Version.allFiles]
  rw [hall]
  constructor
  · rintro ⟨f, ⟨l, hf⟩, hname⟩
    exact ⟨l, f, hf, hname⟩
  · rintro ⟨l, f, hf, hname⟩
    exact ⟨f, ⟨l, hf⟩, hname⟩

/-- Opening the engine, whatever the status of its recovery, removes no `.sst` file exactly if
the lines before the first malformed one list no file at all, or list every `.sst` file. -/
theorem opening_keeps_tables_iff (db_dir : Bytes) (files : Files) (dir : SstDir) (wal : WAL)
    (limit : Int64) (target : ℕ) :
    (∀ e ∈ dir, isSst e.1 = true →
      e ∈ (Engine.open (startup db_dir files dir) wal limit target).store.dir) ↔
    (∀ l f, ¬ Lists (accepted (manifestLines db_dir files)) l f) ∨
      ∀ e ∈ dir, isSst e.1 = true →
        ∃ l f, Lists (accepted (manifestLines db_dir files)) l f ∧ baseName f.file_name = e.1 := by
  have hempty : (VersionManager.init db_dir files).1.current.IsEmpty ↔
      ∀ l f, ¬ Lists (accepted (manifestLines db_dir files)) l f := by
    simp only [← mem_recovered]
    exact forall_congr' fun l => List.eq_nil_iff_forall_not_mem
  have hlive : ∀ name, name ∈ (VersionManager.init db_dir files).1.current.liveFiles ↔
      ∃ l f, Lists (accepted (manifestLines db_dir files)) l f ∧ baseName f.file_name = name := by
    intro name
    simp only [mem_liveFiles_iff, mem_recovered]
  change (∀ e ∈ dir, isSst e.1 = true → e ∈ (startup db_dir files dir).dir) ↔ _
  rw [← hempty]
  simp only [← hlive]
  constructor
  · intro hkeep
    by_cases hnone : (VersionManager.init db_dir files).1.current.IsEmpty
    · exact Or.inl hnone
    · refine Or.inr fun e he hsst => ?_
      have hcase := (mem_startup_dir.mp (hkeep e he hsst)).2.resolve_left hnone
      exact hcase.resolve_left (by simp [hsst])
  · rintro (hnone | hall) e he hsst
    · exact mem_startup_dir.mpr ⟨he, Or.inl hnone⟩
    · exact mem_startup_dir.mpr ⟨he, Or.inr (Or.inr (hall e he hsst))⟩

/-- The second `add` line breaks off: its table is removed. -/
theorem damaged_manifest_removes_table :
    ∃ files, (VersionManager.init (ascii "db") files).2 = .corruption "Bad manifest add record" ∧
      ∃ e ∈ ([(sstName 1, some ⟨[(⟨ascii "a", 1⟩, ⟨ascii "v", .kValue⟩)], 10⟩),
        (sstName 2, some ⟨[(⟨ascii "b", 1⟩, ⟨ascii "w", .kValue⟩)], 10⟩)] : SstDir),
        isSst e.1 = true ∧ e ∉ (Engine.open (startup (ascii "db") files
          [(sstName 1, some ⟨[(⟨ascii "a", 1⟩, ⟨ascii "v", .kValue⟩)], 10⟩),
            (sstName 2, some ⟨[(⟨ascii "b", 1⟩, ⟨ascii "w", .kValue⟩)], 10⟩)]) ⟨[]⟩ 1000 0).store.dir := by
  refine ⟨Function.update (fun _ => none) (joinPath (ascii "db") manifestFile)
    (some (ascii "add 0 1 000001.sst 10 a 1 a 1\nadd 0 2 000002.sst\n")), by decide +kernel, ?_⟩
  exact ⟨_, List.mem_cons_of_mem _ (List.mem_singleton_self _), by decide +kernel, by decide +kernel⟩

end MiniTsdb
