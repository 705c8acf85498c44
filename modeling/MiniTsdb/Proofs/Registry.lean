import MiniTsdb.Proofs.StoreRuns

/-! The five collections behind the SSTables: the version, the readers, the obsolete list,
the files waiting to be deleted and the directory. What every step of the store, failed or
not, keeps between them. -/

namespace MiniTsdb
open Lib

/-- Each file name stands for one file of one level; every live and every obsolete name is
`readable`, and no live name is obsolete or `waiting` to be deleted. -/
structure Books (waiting : List Bytes) (readable : Bytes → Prop) (vm : VersionManager) : Prop where
  one_place : ∀ l, ∀ f ∈ vm.current.level_files l, ∀ l', ∀ f' ∈ vm.current.level_files l',
    f.file_name = f'.file_name → l = l' ∧ f.file_number = f'.file_number
  live : ∀ l, ∀ f ∈ vm.current.level_files l, readable f.file_name
  obsolete : ∀ name ∈ vm.obsolete_files, readable name
  nodup : vm.obsolete_files.Nodup
  gone : ∀ l, ∀ f ∈ vm.current.level_files l, f.file_name ∉ vm.obsolete_files ++ waiting

section
variable {waiting : List Bytes} {readable : Bytes → Prop} {vm : VersionManager}

/-- A deleted file goes from the version to the obsolete list. -/
theorem Books.applyDelete (h : Books waiting readable vm) (d : ℤ × ℕ) :
    Books waiting readable (vm.applyDelete d) := by
  have hmem : ∀ l f, f ∈ (vm.applyDelete d).current.level_files l →
      f ∈ vm.current.level_files l ∧ ¬ (levelIndex d.1 = some l ∧ d.2 = f.file_number) := by
    intro l f hf
    rw [applyDelete_level, List.mem_filter] at hf
    refine ⟨hf.1, fun hd => ?_⟩
    simp [hd.1, hd.2] at hf
  have hkeep : ∀ names : List Bytes, (vm.applyDelete d).obsolete_files = vm.obsolete_files ++ names →
      (∀ name ∈ names, readable name) → (vm.obsolete_files ++ names).Nodup →
      (∀ l, ∀ f ∈ (vm.applyDelete d).current.level_files l, f.file_name ∉ names) →
      Books waiting readable (vm.applyDelete d) := by
    intro names hnames hreadable hnodup hgone
    refine ⟨?_, fun l f hf => h.live l f (hmem l f hf).1, fun name hname => ?_, hnames ▸ hnodup,
      fun l f hf => ?_⟩
    · exact fun l f hf l' f' hf' => h.one_place l f (hmem l f hf).1 l' f' (hmem l' f' hf').1
    · rw [hnames] at hname
      rcases List.mem_append.mp hname with hname | hname
      · exact h.obsolete name hname
      · exact hreadable name hname
    · have hold := h.gone l f (hmem l f hf).1
      rw [hnames]
      simp only [List.mem_append, not_or] at hold ⊢
      exact ⟨⟨hold.1, hgone l f hf⟩, hold.2⟩
  have hnone : (vm.applyDelete d).obsolete_files = vm.obsolete_files →
      Books waiting readable (vm.applyDelete d) := fun hsame =>
    hkeep [] (by rw [hsame, List.append_nil]) (fun _ hm => by contradiction)
      (by rw [List.append_nil]; exact h.nodup) (fun _ _ _ hm => by contradiction)
  cases hl : levelIndex d.1 with
  | none =>
    refine hnone ?_
    unfold VersionManager.applyDelete
    rw [hl]
  | some l₀ =>
    cases hg : (vm.current.level_files l₀).find? fun f => f.file_number == d.2 with
    | none =>
      refine hnone ?_
      unfold VersionManager.applyDelete
      rw [hl]
      dsimp only
      rw [hg]
      exact List.append_nil _
    | some g =>
      have hlive := List.mem_of_find?_eq_some hg
      have hnumber : g.file_number = d.2 := by simpa using List.find?_some hg
      have hnew : g.file_name ∉ vm.obsolete_files := fun hm =>
        h.gone l₀ g hlive (List.mem_append_left _ hm)
      refine hkeep [g.file_name] ?_ (fun name hname => ?_) ?_ (fun l f hf hname => ?_)
      · unfold VersionManager.applyDelete
        rw [hl]
        dsimp only
        rw [hg]
        rfl
      · rw [List.mem_singleton.mp hname]
        exact h.live l₀ g hlive
      · exact List.nodup_append.mpr ⟨h.nodup, List.nodup_singleton _, fun a ha b hb hab =>
          hnew (List.mem_singleton.mp hb ▸ hab ▸ ha)⟩
      · obtain ⟨hf, hnot⟩ := hmem l f hf
        obtain ⟨rfl, heq⟩ := h.one_place l f hf l₀ g hlive (List.mem_singleton.mp hname)
        exact hnot ⟨hl, hnumber.symm.trans heq.symm⟩

theorem Books.foldl_applyDelete (h : Books waiting readable vm) (ds : List (ℤ × ℕ)) :
    Books waiting readable (ds.foldl VersionManager.applyDelete vm) := by
  induction ds generalizing vm with
  | nil => exact h
  | cons d ds ih => exact ih (h.applyDelete d)

theorem foldl_applyAdd_obsolete (as : List (ℤ × FileMeta)) (vm : VersionManager) :
    (as.foldl VersionManager.applyAdd vm).obsolete_files = vm.obsolete_files := by
  induction as generalizing vm with
  | nil => rfl
  | cons a as ih =>
    rw [List.foldl_cons, ih]
    unfold VersionManager.applyAdd
    split <;> rfl

theorem Books.applyUnlocked {readable' : Bytes → Prop} {edit : VersionEdit}
    (h : Books waiting readable vm) (hmore : ∀ name, readable name → readable' name)
    (hadd : ∀ a ∈ edit.added_files, readable' a.2.file_name ∧
      a.2.file_name ∉ vm.obsolete_files ++ waiting ∧
      ∀ l, ∀ f ∈ vm.current.level_files l, f.file_name ≠ a.2.file_name)
    (hone : ∀ a ∈ edit.added_files, ∀ b ∈ edit.added_files, a.2.file_name = b.2.file_name → a = b) :
    Books waiting readable' (vm.applyUnlocked edit) := by
  have hdel := h.foldl_applyDelete edit.deleted_files
  have hobsolete : (vm.applyUnlocked edit).obsolete_files =
      (edit.deleted_files.foldl VersionManager.applyDelete vm).obsolete_files :=
    foldl_applyAdd_obsolete edit.added_files _
  have hfrom : ∀ name ∈ (vm.applyUnlocked edit).obsolete_files,
      name ∈ vm.obsolete_files ∨ ∃ l, ∃ f ∈ vm.current.level_files l, f.file_name = name := by
    intro name hname
    refine (mem_applyUnlocked_obsolete hname).imp_right ?_
    rintro ⟨l, f, hf, -, heq⟩
    exact ⟨l, f, hf, heq⟩
  have hold : ∀ l f, f ∈ vm.current.level_files l ∧ edit.deletes l f.file_number = false →
      f ∈ (edit.deleted_files.foldl VersionManager.applyDelete vm).current.level_files l := by
    rintro l f ⟨hf, hkept⟩
    rw [(MiniTsdb.foldl_applyDelete edit.deleted_files vm).2 l, List.mem_filter]
    exact ⟨hf, by rw [Bool.not_eq_true']; exact hkept⟩
  refine ⟨fun l f hf l' f' hf' heq => ?_, fun l f hf => ?_, fun name hname => ?_,
    hobsolete ▸ hdel.nodup, fun l f hf hm => ?_⟩
  · rcases mem_applyUnlocked.mp hf with hf | hf
    · rcases mem_applyUnlocked.mp hf' with hf' | hf'
      · exact h.one_place l f hf.1 l' f' hf'.1 heq
      · obtain ⟨level, -, ha⟩ := VersionEdit.mem_addedAt.mp hf'
        exact absurd heq ((hadd _ ha).2.2 l f hf.1)
    · obtain ⟨level, hl, ha⟩ := VersionEdit.mem_addedAt.mp hf
      rcases mem_applyUnlocked.mp hf' with hf' | hf'
      · exact absurd heq.symm ((hadd _ ha).2.2 l' f' hf'.1)
      · obtain ⟨level', hl', ha'⟩ := VersionEdit.mem_addedAt.mp hf'
        obtain ⟨rfl, rfl⟩ := Prod.mk.inj (hone _ ha _ ha' heq)
        exact ⟨Option.some.inj (hl.symm.trans hl'), rfl⟩
  · rcases mem_applyUnlocked.mp hf with hf | hf
    · exact hmore _ (h.live l f hf.1)
    · obtain ⟨level, -, ha⟩ := VersionEdit.mem_addedAt.mp hf
      exact (hadd _ ha).1
  · rw [hobsolete] at hname
    exact hmore _ (hdel.obsolete name hname)
  · rcases mem_applyUnlocked.mp hf with hf | hf
    · rw [hobsolete] at hm
      exact hdel.gone l f (hold l f hf) hm
    · obtain ⟨level, -, ha⟩ := VersionEdit.mem_addedAt.mp hf
      rcases List.mem_append.mp hm with hm | hm
      · rcases hfrom _ hm with hm | ⟨l', f', hf', heq⟩
        · exact (hadd _ ha).2.1 (List.mem_append_left _ hm)
        · exact (hadd _ ha).2.2 l' f' hf' heq
      · exact (hadd _ ha).2.1 (List.mem_append_right _ hm)

end

def InDir (db_dir : Bytes) (dir : SstDir) (path : Bytes) : Prop :=
  ∃ e ∈ dir, joinPath db_dir e.1 = path

theorem inDir_replace {db_dir : Bytes} {dir : SstDir} {path : Bytes} (name : Bytes)
    (content : Option SSTable) (h : InDir db_dir dir path) :
    InDir db_dir ((dir.filter fun e => e.1 != name) ++ [(name, content)]) path := by
  obtain ⟨e, he, rfl⟩ := h
  by_cases hname : e.1 = name
  · exact ⟨(name, content), List.mem_append_right _ (List.mem_singleton_self _), by rw [hname]⟩
  · exact ⟨e, List.mem_append_left _ (List.mem_filter.mpr ⟨he, by simpa using hname⟩), rfl⟩

theorem inDir_writeTable_self (db_dir : Bytes) (dir : SstDir) (name : Bytes) (t : SSTable) :
    InDir db_dir (writeTable dir name t) (joinPath db_dir name) :=
  ⟨(name, some t), List.mem_append_right _ (List.mem_singleton_self _), rfl⟩

theorem inDir_foldl_removeTable {db_dir : Bytes} {paths : List Bytes} {dir : SstDir} {path : Bytes}
    (hpath : path ∉ paths) (h : InDir db_dir dir path) :
    InDir db_dir (paths.foldl (removeTable db_dir) dir) path := by
  obtain ⟨e, he, rfl⟩ := h
  exact ⟨e, mem_foldl_removeTable he hpath, rfl⟩

/-- No file still to be committed or created has this name. -/
def Store.Past (s : Store) (path : Bytes) : Prop :=
  ∀ n, n ∈ s.unpublished ∨ s.vmgr.next_file_number ≤ n → path ≠ s.vmgr.newFileName n

/-- The files a run has written are in the directory, with a reader each. -/
structure RunFiles (s : Store) (run : CompactionRun) : Prop where
  new_files : run.result.new_files = run.result.edit.added_files.map fun a => a.2.file_name
  path : ∀ a ∈ run.result.edit.added_files, a.2.file_name = s.vmgr.newFileName a.2.file_number
  disk : ∀ a ∈ run.result.edit.added_files, InDir s.vmgr.db_dir s.dir a.2.file_name
  readers : ∀ a ∈ run.result.edit.added_files,
    ∃ r ∈ run.result.new_readers, r.file_name = a.2.file_name

/-- `held` are the files of the readers in use. -/
structure Registry (held : List Bytes) (s : Store) : Prop where
  books : Books (s.pending_delete.map PendingDelete.file_name)
    (fun name => (findReader s.sst_readers name).isSome) s.vmgr
  live : ∀ l, ∀ f ∈ s.vmgr.current.level_files l,
    InDir s.vmgr.db_dir s.dir f.file_name ∧ s.Past f.file_name
  retired : ∀ name ∈ s.vmgr.obsolete_files ++ s.pending_delete.map PendingDelete.file_name, s.Past name
  pending : ∀ p ∈ s.pending_delete, p.reader.isSome
  held : ∀ name ∈ held, InDir s.vmgr.db_dir s.dir name ∧ s.Past name
  unpublished_lt : ∀ n ∈ s.unpublished, n < s.vmgr.next_file_number
  unpublished_nodup : s.unpublished.Nodup
  built : ∀ n t, s.built = some (n, t) → InDir s.vmgr.db_dir s.dir (s.vmgr.newFileName n)
  run : ∀ run, s.compaction = some run → RunFiles s run

/-- The version, the obsolete list and the waiting files stay, every reader stays, and so
does every file that is past. -/
structure Undisturbed (s s' : Store) : Prop where
  db_dir : s'.vmgr.db_dir = s.vmgr.db_dir
  current : s'.vmgr.current = s.vmgr.current
  obsolete : s'.vmgr.obsolete_files = s.vmgr.obsolete_files
  next : s.vmgr.next_file_number ≤ s'.vmgr.next_file_number
  pending : s'.pending_delete = s.pending_delete
  readers : ∀ path, (findReader s.sst_readers path).isSome → (findReader s'.sst_readers path).isSome
  disk : ∀ path, s.Past path → InDir s.vmgr.db_dir s.dir path → InDir s.vmgr.db_dir s'.dir path
  unpublished : ∀ n ∈ s'.unpublished, n ∈ s.unpublished ∨ s.vmgr.next_file_number ≤ n

section
variable {held : List Bytes} {s s' : Store}

theorem Registry.issued (h : Registry held s) : Issued s.vmgr.next_file_number s.unpublished :=
  ⟨h.unpublished_lt, h.unpublished_nodup⟩

theorem Undisturbed.path (h : Undisturbed s s') (n : ℕ) :
    s'.vmgr.newFileName n = s.vmgr.newFileName n := by
  rw [VersionManager.newFileName, VersionManager.newFileName, h.db_dir]

theorem Undisturbed.past (h : Undisturbed s s') {path : Bytes} (hp : s.Past path) : s'.Past path := by
  intro n hn
  rw [h.path]
  refine hp n ?_
  rcases hn with hn | hn
  · exact h.unpublished n hn
  · exact Or.inr (h.next.trans hn)

theorem Registry.undisturbed (hr : Registry held s) (h : Undisturbed s s')
    (hlt : ∀ n ∈ s'.unpublished, n < s'.vmgr.next_file_number) (hnodup : s'.unpublished.Nodup)
    (hbuilt : ∀ n t, s'.built = some (n, t) → InDir s.vmgr.db_dir s'.dir (s.vmgr.newFileName n))
    (hrun : ∀ run, s'.compaction = some run → RunFiles s' run) : Registry held s' := by
  have hkeep : ∀ path, InDir s.vmgr.db_dir s.dir path ∧ s.Past path →
      InDir s'.vmgr.db_dir s'.dir path ∧ s'.Past path := by
    rintro path ⟨hin, hpast⟩
    rw [h.db_dir]
    exact ⟨h.disk path hpast hin, h.past hpast⟩
  have hbooks := hr.books
  refine ⟨⟨?_, ?_, ?_, ?_, ?_⟩, ?_, ?_, ?_, ?_, hlt, hnodup, ?_, hrun⟩
  · rw [h.current]
    exact hbooks.one_place
  · rw [h.current]
    exact fun l f hf => h.readers _ (hbooks.live l f hf)
  · rw [h.obsolete]
    exact fun name hname => h.readers _ (hbooks.obsolete name hname)
  · rw [h.obsolete]
    exact hbooks.nodup
  · rw [h.current, h.obsolete, h.pending]
    exact hbooks.gone
  · rw [h.current]
    exact fun l f hf => hkeep _ (hr.live l f hf)
  · rw [h.obsolete, h.pending]
    exact fun name hname => h.past (hr.retired name hname)
  · rw [h.pending]
    exact hr.pending
  · exact fun name hname => hkeep _ (hr.held name hname)
  · intro n t hb
    rw [h.path, h.db_dir]
    exact hbuilt n t hb

theorem RunFiles.congr {run : CompactionRun} (h : RunFiles s run)
    (hdb : s'.vmgr.db_dir = s.vmgr.db_dir)
    (hdisk : ∀ path, InDir s.vmgr.db_dir s.dir path → InDir s.vmgr.db_dir s'.dir path) :
    RunFiles s' run := by
  refine ⟨h.new_files, fun a ha => ?_, fun a ha => ?_, h.readers⟩
  · rw [VersionManager.newFileName, hdb]
    exact h.path a ha
  · rw [hdb]
    exact hdisk _ (h.disk a ha)

theorem RunFiles.addOutput {run : CompactionRun} (h : RunFiles s run) (rest : Option (List Record))
    (level : ℤ) {file : FileMeta} (t : SSTable) (hpath : file.file_name = s.vmgr.newFileName file.file_number)
    (hin : InDir s.vmgr.db_dir s.dir file.file_name) :
    RunFiles s ⟨run.work, rest, run.result.addOutput level file t⟩ := by
  have hadded : ∀ a ∈ (run.result.addOutput level file t).edit.added_files,
      a ∈ run.result.edit.added_files ∨ a = (level, file) := by
    intro a ha
    rcases List.mem_append.mp ha with ha | ha
    · exact Or.inl ha
    · exact Or.inr (List.mem_singleton.mp ha)
  refine ⟨?_, fun a ha => ?_, fun a ha => ?_, fun a ha => ?_⟩
  · change run.result.new_files ++ [file.file_name] = (run.result.edit.added_files ++ [(level, file)]).map _
    rw [h.new_files, List.map_append]
    rfl
  · rcases hadded a ha with ha | rfl
    · exact h.path a ha
    · exact hpath
  · rcases hadded a ha with ha | rfl
    · exact h.disk a ha
    · exact hin
  · rcases hadded a ha with ha | rfl
    · obtain ⟨r, hr, heq⟩ := h.readers a ha
      exact ⟨r, List.mem_append_left _ hr, heq⟩
    · exact ⟨⟨file.file_name, t⟩, List.mem_append_right _ (List.mem_singleton_self _), rfl⟩

end

section
variable {held : List Bytes} {s : Store} (h : Registry held s)
include h

theorem Registry.manifest (name : Bytes) (files : Files) :
    Registry held { s with vmgr := { s.vmgr with manifest_name := name }, files := files } :=
  h.undisturbed ⟨rfl, rfl, rfl, le_rfl, rfl, fun _ hp => hp, fun _ _ hp => hp,
      fun _ hn => Or.inl hn⟩ h.unpublished_lt h.unpublished_nodup h.built fun run hrun =>
    (h.run run hrun).congr rfl fun _ hp => hp

theorem Registry.counter : Registry held { s with vmgr := s.vmgr.newFileNumber.2 } :=
  h.undisturbed ⟨rfl, rfl, rfl, Nat.le_succ s.vmgr.next_file_number, rfl, fun _ hp => hp,
      fun _ _ hp => hp, fun _ hn => Or.inl hn⟩ (fun n hn => Nat.lt_succ_of_lt (h.unpublished_lt n hn))
    h.unpublished_nodup h.built fun run hrun => (h.run run hrun).congr rfl fun _ hp => hp

theorem Registry.withRun {run : Option CompactionRun} (progress : Bool) (files : List ℕ)
    (hrun : ∀ r, run = some r → r.Unwritten) : Registry held (s.withRun run progress files) := by
  have hsub := unpublished_withRun s progress files hrun
  refine h.undisturbed ⟨rfl, rfl, rfl, le_rfl, rfl, fun _ hp => hp, fun _ _ hp => hp,
    fun n hn => Or.inl (hsub.subset hn)⟩ (fun n hn => h.unpublished_lt n (hsub.subset hn))
    (h.unpublished_nodup.sublist hsub) h.built fun r hr => ?_
  obtain ⟨hadded, hnew⟩ := hrun r hr
  refine ⟨?_, fun a ha => ?_, fun a ha => ?_, fun a ha => ?_⟩
  · rw [hadded, hnew]
    rfl
  all_goals
    rw [hadded] at ha
    contradiction

/-- The built file goes out of sight; the directory may get another file under its name. -/
theorem Registry.dropBuilt (readers : List TableReader) (dir : SstDir)
    (hdir : ∀ path, InDir s.vmgr.db_dir s.dir path → InDir s.vmgr.db_dir dir path) :
    Registry held { s with built := none, sst_readers := s.sst_readers ++ readers, dir := dir } := by
  have hsub : (Store.unpublished { s with
      built := none, sst_readers := s.sst_readers ++ readers, dir := dir }).Sublist s.unpublished :=
    List.sublist_append_right _ _
  refine h.undisturbed ⟨rfl, rfl, rfl, le_rfl, rfl, fun path hp => ?_, fun path _ => hdir path,
    fun n hn => Or.inl (hsub.subset hn)⟩ (fun n hn => h.unpublished_lt n (hsub.subset hn))
    (h.unpublished_nodup.sublist hsub) (fun n t hb => by contradiction) fun run hrun =>
      (h.run run hrun).congr rfl hdir
  obtain ⟨r, hr⟩ := Option.isSome_iff_exists.mp hp
  rw [findReader_append_of_some hr]
  rfl

theorem Registry.abort {run : CompactionRun} (hrun : s.compaction = some run) :
    Registry held (s.abortCompaction run) := by
  have hfiles := h.run run hrun
  have hmem : ∀ path ∈ run.result.new_files, ∃ n ∈ run.result.edit.addedNumbers,
      path = s.vmgr.newFileName n := by
    intro path hpath
    rw [hfiles.new_files] at hpath
    obtain ⟨a, ha, rfl⟩ := List.mem_map.mp hpath
    exact ⟨a.2.file_number, List.mem_map.mpr ⟨a, ha, rfl⟩, hfiles.path a ha⟩
  have hold : s.unpublished = (s.built.map Prod.fst).toList ++ run.result.edit.addedNumbers := by
    rw [Store.unpublished, hrun]
    rfl
  have hnew : (s.abortCompaction run).unpublished = (s.built.map Prod.fst).toList :=
    List.append_nil _
  have hsub : (s.abortCompaction run).unpublished.Sublist s.unpublished := by
    rw [hold, hnew]
    exact List.sublist_append_left _ _
  have hdisjoint := h.unpublished_nodup
  rw [hold, List.nodup_append] at hdisjoint
  refine h.undisturbed ⟨rfl, rfl, rfl, le_rfl, rfl, fun _ hp => hp, fun path hpast hin => ?_,
    fun n hn => Or.inl (hsub.subset hn)⟩ (fun n hn => h.unpublished_lt n (hsub.subset hn))
    (h.unpublished_nodup.sublist hsub) (fun n t hb => ?_) fun r hr => by contradiction
  · refine inDir_foldl_removeTable (fun hm => ?_) hin
    obtain ⟨n, hn, heq⟩ := hmem path hm
    refine hpast n (Or.inl ?_) heq
    rw [hold]
    exact List.mem_append_right _ hn
  · have hb' : s.built = some (n, t) := hb
    refine inDir_foldl_removeTable (fun hm => ?_) (h.built n t hb')
    obtain ⟨m, hm, heq⟩ := hmem _ hm
    refine hdisjoint.2.2 n ?_ m hm (newFileName_injective _ heq)
    rw [hb']
    exact List.mem_singleton_self n

theorem Registry.write {s' : Store} {t : SSTable} (hvm : s'.vmgr = s.vmgr.newFileNumber.2)
    (hdir : s'.dir = writeTable s.dir (sstName s.vmgr.next_file_number) t)
    (hreaders : s'.sst_readers = s.sst_readers) (hpending : s'.pending_delete = s.pending_delete)
    (hunp : s'.unpublished.Perm (s.vmgr.next_file_number :: s.unpublished))
    (hbuilt : ∀ n t, s'.built = some (n, t) → s.built = some (n, t) ∨ n = s.vmgr.next_file_number)
    (hrun : ∀ run, s'.compaction = some run → RunFiles s' run) : Registry held s' := by
  have hnext : s'.vmgr.next_file_number = s.vmgr.next_file_number + 1 := by
    rw [hvm]
    rfl
  have hissued : Issued s'.vmgr.next_file_number s'.unpublished := by
    rw [hnext]
    exact h.issued.issue hunp
  refine h.undisturbed ⟨by rw [hvm]; rfl, by rw [hvm]; rfl, by rw [hvm]; rfl, ?_, hpending, ?_, ?_,
    fun n hn => ?_⟩ hissued.lt hissued.nodup (fun n u hb => ?_) hrun
  · rw [hnext]
    exact Nat.le_succ _
  · rw [hreaders]
    exact fun _ hp => hp
  · rw [hdir]
    exact fun path _ hin => inDir_replace _ _ hin
  · rcases List.mem_cons.mp (hunp.subset hn) with rfl | hn
    · exact Or.inr le_rfl
    · exact Or.inl hn
  · rw [hdir]
    rcases hbuilt n u hb with hb | rfl
    · exact inDir_replace _ _ (h.built n u hb)
    · exact inDir_writeTable_self _ _ _ t

theorem Registry.buildFlush {s' : Store} {entries : List (TsKey × InternalEntry)}
    (hs : s.buildFlush entries = some s') : Registry held s' := by
  obtain ⟨hnone, t, ht, rfl⟩ := buildFlush_eq hs
  refine h.write (t := t) rfl rfl rfl rfl (List.Perm.of_eq (afterBuild_unpublished hnone t))
    (fun n u hb => Or.inr ?_) fun run hrun => ?_
  · exact (Prod.mk.inj (Option.some.inj hb)).1.symm
  · exact (h.run run hrun).congr rfl fun path hin => inDir_replace _ _ hin

theorem Registry.writeOutput {s' : Store} {run : CompactionRun} (hrun : s.compaction = some run)
    (hs : s.writeOutput run = some s') : Registry held s' := by
  have hfiles := h.run run hrun
  obtain ⟨records, t, hrest, hne, ht, rfl⟩ := writeOutput_eq hs
  refine h.write (t := t) rfl rfl rfl rfl (afterOutput_unpublished hrun records t)
    (fun n u hb => Or.inl hb) fun run' hrun' => ?_
  obtain rfl := Option.some.inj hrun'
  refine RunFiles.addOutput (hfiles.congr ?_ fun path hin => ?_) _ _ t ?_ ?_
  · rfl
  · exact inDir_replace _ _ hin
  · rfl
  · exact inDir_writeTable_self _ _ _ t

/-- The numbers of an edit are handed in: the counter stays, and the others wait on. -/
structure HandsIn (s s' : Store) (edit : VersionEdit) : Prop where
  next : s'.vmgr.next_file_number = s.vmgr.next_file_number
  issued : Issued s'.vmgr.next_file_number s'.unpublished
  waiting : ∀ n ∈ s'.unpublished, n ∈ s.unpublished
  added : ∀ a ∈ edit.added_files,
    a.2.file_number ∈ s.unpublished ∧ a.2.file_number ∉ s'.unpublished

omit h in
theorem handsIn {s' : Store} (h : Issued s.vmgr.next_file_number s.unpublished) {edit : VersionEdit}
    (hvm : s'.vmgr = s.vmgr.applyUnlocked edit)
    (hunp : s.unpublished.Perm (edit.addedNumbers ++ s'.unpublished)) : HandsIn s s' edit := by
  obtain ⟨hissued, hwaiting, hdone⟩ := h.handIn hunp
  have hadded : ∀ a ∈ edit.added_files,
      a.2.file_number ∈ s.unpublished ∧ a.2.file_number ∉ s'.unpublished := by
    intro a ha
    exact hdone _ (List.mem_map.mpr ⟨a, ha, rfl⟩)
  have hnext : s'.vmgr.next_file_number = s.vmgr.next_file_number := by
    rw [hvm, applyUnlocked_next]
    apply bumpLast_of_lt
    intro a ha
    exact h.lt _ (hadded a ha).1
  exact ⟨hnext, hnext ▸ hissued, hwaiting, hadded⟩

omit h in
/-- What is live behind an edit was live, or the edit added it. -/
theorem live_of_applyUnlocked {vm : VersionManager} {edit : VersionEdit} {l : Fin kMaxLevel}
    {f : FileMeta} (hf : f ∈ (vm.applyUnlocked edit).current.level_files l) :
    f ∈ vm.current.level_files l ∨ ∃ a ∈ edit.added_files, a.2 = f := by
  rcases mem_applyUnlocked.mp hf with hf | hf
  · exact Or.inl hf.1
  · obtain ⟨level, -, ha⟩ := VersionEdit.mem_addedAt.mp hf
    exact Or.inr ⟨(level, f), ha, rfl⟩

/-- Files that were not committed yet go to the version with their readers. -/
theorem Registry.publish {s' : Store} (edit : VersionEdit) (new_readers : List TableReader)
    (hvm : s'.vmgr = s.vmgr.applyUnlocked edit) (hdir : s'.dir = s.dir)
    (hreaders : s'.sst_readers = s.sst_readers ++ new_readers)
    (hpending : s'.pending_delete = s.pending_delete)
    (hunp : s.unpublished.Perm (edit.addedNumbers ++ s'.unpublished))
    (hadd : ∀ a ∈ edit.added_files, a.2.file_name = s.vmgr.newFileName a.2.file_number ∧
      InDir s.vmgr.db_dir s.dir a.2.file_name ∧ ∃ r ∈ new_readers, r.file_name = a.2.file_name)
    (hbuilt : ∀ n t, s'.built = some (n, t) → s.built = some (n, t))
    (hrun : ∀ run, s'.compaction = some run → s.compaction = some run) : Registry held s' := by
  have hdb : s'.vmgr.db_dir = s.vmgr.db_dir := by rw [hvm, applyUnlocked_db_dir]
  have hpath : ∀ n, s'.vmgr.newFileName n = s.vmgr.newFileName n := by
    intro n
    rw [VersionManager.newFileName, hdb]
    rfl
  obtain ⟨hnext, hissued, hsub, hfrom⟩ := handsIn h.issued hvm hunp
  have hnodup : edit.addedNumbers.Nodup :=
    (List.nodup_append.mp (hunp.nodup_iff.mp h.unpublished_nodup)).1
  have hpast : ∀ path, s.Past path → s'.Past path := by
    intro path hp n hn
    rw [hpath]
    rw [hnext] at hn
    exact hp n (hn.imp_left (hsub n))
  have hadded : ∀ a ∈ edit.added_files, s'.Past a.2.file_name := by
    intro a ha n hn heq
    rw [hpath, (hadd a ha).1] at heq
    obtain rfl := newFileName_injective _ heq
    rcases hn with hn | hn
    · exact (hfrom a ha).2 hn
    · rw [hnext] at hn
      exact absurd (h.unpublished_lt _ (hfrom a ha).1) (not_lt.mpr hn)
  have hlive : ∀ l, ∀ f ∈ s'.vmgr.current.level_files l, f ∈ s.vmgr.current.level_files l ∨
      ∃ a ∈ edit.added_files, a.2 = f := by
    intro l f hf
    rw [hvm] at hf
    exact live_of_applyUnlocked hf
  have hmore : ∀ path, (findReader s.sst_readers path).isSome →
      (findReader s'.sst_readers path).isSome := by
    intro path hp
    obtain ⟨r, hr⟩ := Option.isSome_iff_exists.mp hp
    rw [hreaders, findReader_append_of_some hr]
    rfl
  refine ⟨?_, fun l f hf => ?_, fun name hname => ?_, ?_, fun name hname => ?_, hissued.lt,
    hissued.nodup, fun n t hb => ?_, fun run hr => ?_⟩
  · rw [hvm, hpending]
    refine h.books.applyUnlocked hmore (fun a ha => ⟨?_, fun hm => ?_, fun l f hf heq => ?_⟩)
      fun a ha b hb heq => ?_
    · obtain ⟨r, hr, heq⟩ := (hadd a ha).2.2
      rw [hreaders]
      exact List.find?_isSome.mpr ⟨r, List.mem_append_right _ hr, by simpa using heq⟩
    · exact h.retired _ hm _ (Or.inl (hfrom a ha).1) (hadd a ha).1
    · exact (h.live l f hf).2 _ (Or.inl (hfrom a ha).1) (heq.trans (hadd a ha).1)
    · rw [(hadd a ha).1, (hadd b hb).1] at heq
      exact List.inj_on_of_nodup_map hnodup ha hb (newFileName_injective _ heq)
  · rw [hdir, hdb]
    rcases hlive l f hf with hf | ⟨a, ha, rfl⟩
    · exact ⟨(h.live l f hf).1, hpast _ (h.live l f hf).2⟩
    · exact ⟨(hadd a ha).2.1, hadded a ha⟩
  · rw [hpending] at hname
    rcases List.mem_append.mp hname with hname | hname
    · rw [hvm] at hname
      rcases mem_applyUnlocked_obsolete hname with hname | ⟨l, f, hf, -, rfl⟩
      · exact hpast _ (h.retired _ (List.mem_append_left _ hname))
      · exact hpast _ (h.live l f hf).2
    · exact hpast _ (h.retired _ (List.mem_append_right _ hname))
  · rw [hpending]
    exact h.pending
  · rw [hdir, hdb]
    exact ⟨(h.held name hname).1, hpast _ (h.held name hname).2⟩
  · rw [hdir, hdb, hpath]
    exact h.built n t (hbuilt n t hb)
  · refine (h.run run (hrun run hr)).congr hdb fun path hin => ?_
    rw [hdir]
    exact hin

theorem Registry.commitFlush {s' : Store} (hs : s.commitFlush = some s') : Registry held s' := by
  unfold Store.commitFlush at hs
  split at hs
  · contradiction
  · rename_i n t hb
    obtain rfl := Option.some.inj hs
    have hm := h.manifest s.vmgr.manifestPath
      (s.vmgr.logAndApply s.files (flushEdit (s.flushFile n t))).2
    refine hm.publish (flushEdit (s.flushFile n t))
      [⟨(s.flushFile n t).file_name, t⟩] rfl rfl rfl rfl ?_ (fun a ha => ?_)
      (fun n t hb => by contradiction) fun run hrun => hrun
    · refine List.Perm.of_eq ?_
      rw [Store.unpublished, hb]
      rfl
    · rw [List.mem_singleton.mp ha]
      exact ⟨rfl, h.built n t hb, _, List.mem_singleton_self _, rfl⟩

/-- Waiting files that nobody uses are deleted; `inUse` are all that somebody does. -/
theorem Registry.tryDelete {inUse : List Bytes} (hsub : held ⊆ inUse) :
    Registry held (s.tryDeletePendingFiles inUse) := by
  set keep := fun p : PendingDelete => p.reader.isSome && inUse.contains p.file_name with hkeep
  set removed := (s.pending_delete.filter fun p => !keep p).map PendingDelete.file_name with hremoved
  have hdir : (s.tryDeletePendingFiles inUse).dir = removed.foldl (removeTable s.vmgr.db_dir) s.dir := by
    rw [hremoved, List.foldl_map]
    rfl
  have hpending : ∀ p ∈ (s.tryDeletePendingFiles inUse).pending_delete, p ∈ s.pending_delete :=
    fun p hp => List.mem_of_mem_filter hp
  have hwaiting : ∀ name ∈ (s.tryDeletePendingFiles inUse).pending_delete.map PendingDelete.file_name,
      name ∈ s.pending_delete.map PendingDelete.file_name :=
    fun name hname => (List.filter_sublist.map _).subset hname
  have hgone : ∀ path ∈ removed, path ∈ s.pending_delete.map PendingDelete.file_name :=
    fun path hpath => (List.filter_sublist.map _).subset hpath
  have hnew : ∀ n ∈ s.unpublished, s.vmgr.newFileName n ∉ removed := fun n hn hm =>
    h.retired _ (List.mem_append_right _ (hgone _ hm)) n (Or.inl hn) rfl
  have hunused : ∀ name ∈ inUse, name ∉ removed := by
    intro name hname hm
    obtain ⟨p, hp, rfl⟩ := List.mem_map.mp hm
    obtain ⟨hp, hdropped⟩ := List.mem_filter.mp hp
    have hreader := h.pending p hp
    simp [hkeep, hreader, hname] at hdropped
  have hin : ∀ path, path ∉ removed → InDir s.vmgr.db_dir s.dir path →
      InDir s.vmgr.db_dir (s.tryDeletePendingFiles inUse).dir path := by
    intro path hpath hp
    rw [hdir]
    exact inDir_foldl_removeTable hpath hp
  have hbooks := h.books
  refine ⟨⟨hbooks.one_place, hbooks.live, hbooks.obsolete, hbooks.nodup, fun l f hf hm => ?_⟩,
    fun l f hf => ?_, fun name hname => ?_, fun p hp => h.pending p (hpending p hp),
    fun name hname => ?_, h.unpublished_lt, h.unpublished_nodup, fun n t hb => ?_, fun run hrun => ?_⟩
  · refine hbooks.gone l f hf (List.mem_append.mpr ?_)
    exact (List.mem_append.mp hm).imp_right (hwaiting _)
  · refine ⟨hin _ (fun hm => ?_) (h.live l f hf).1, (h.live l f hf).2⟩
    exact hbooks.gone l f hf (List.mem_append_right _ (hgone _ hm))
  · refine h.retired name (List.mem_append.mpr ?_)
    exact (List.mem_append.mp hname).imp_right (hwaiting _)
  · exact ⟨hin _ (hunused name (hsub hname)) (h.held name hname).1, (h.held name hname).2⟩
  · exact hin _ (hnew n (mem_unpublished_built (s := s) hb)) (h.built n t hb)
  · have hfiles := h.run run hrun
    refine ⟨hfiles.new_files, hfiles.path, fun a ha => ?_, hfiles.readers⟩
    refine hin _ ?_ (hfiles.disk a ha)
    rw [hfiles.path a ha]
    exact hnew _ (mem_unpublished_run hrun (List.mem_map.mpr ⟨a, ha, rfl⟩))

omit h in
/-- The first obsolete file goes to the waiting ones, with its reader. -/
theorem Registry.retire {name : Bytes} {names : List Bytes}
    (h : Registry held { s with vmgr := { s.vmgr with obsolete_files := name :: names } }) :
    Registry held (Store.retireFile { s with vmgr := { s.vmgr with obsolete_files := names } } name) := by
  have hbooks := h.books
  have hnodup : name ∉ names ∧ names.Nodup := List.nodup_cons.mp hbooks.nodup
  have hfind : ∀ path, path ≠ name → (findReader s.sst_readers path).isSome →
      (findReader (s.sst_readers.eraseP fun r => r.file_name == name) path).isSome := by
    intro path hne hp
    rw [findReader_eraseP hne]
    exact hp
  have hlive : ∀ l, ∀ f ∈ s.vmgr.current.level_files l, f.file_name ≠ name := by
    rintro l f hf rfl
    exact hbooks.gone l f hf (List.mem_append_left _ List.mem_cons_self)
  set item : PendingDelete := ⟨name, findReader s.sst_readers name⟩
  have hpending : (s.pending_delete ++ [item]).map PendingDelete.file_name =
      s.pending_delete.map PendingDelete.file_name ++ [name] := by
    rw [List.map_append]
    rfl
  have hretired : ∀ path,
      path ∈ names ++ (s.pending_delete ++ [item]).map PendingDelete.file_name →
      path ∈ name :: names ++ s.pending_delete.map PendingDelete.file_name := by
    intro path hpath
    rw [hpending] at hpath
    simp only [List.mem_append, List.mem_cons] at hpath ⊢
    tauto
  have hbooks' : Books ((s.pending_delete ++ [item]).map PendingDelete.file_name) (fun path =>
        (findReader (s.sst_readers.eraseP fun r => r.file_name == name) path).isSome)
      { s.vmgr with obsolete_files := names } := by
    refine ⟨hbooks.one_place, fun l f hf => hfind _ (hlive l f hf) (hbooks.live l f hf),
      fun path hpath => ?_, hnodup.2, fun l f hf hm => hbooks.gone l f hf (hretired _ hm)⟩
    exact hfind _ (fun he => hnodup.1 (he ▸ hpath)) (hbooks.obsolete path (List.mem_cons_of_mem _ hpath))
  refine ⟨hbooks', h.live, fun path hpath => h.retired path (hretired path hpath), fun p hp => ?_, h.held,
    h.unpublished_lt, h.unpublished_nodup, h.built,
    fun run hrun => (h.run run hrun).congr rfl fun _ hin => hin⟩
  rcases List.mem_append.mp hp with hp | hp
  · exact h.pending p hp
  · rw [List.mem_singleton.mp hp]
    exact hbooks.obsolete name List.mem_cons_self

omit h in
theorem Registry.retireAll {names : List Bytes}
    (h : Registry held { s with vmgr := { s.vmgr with obsolete_files := names } }) :
    Registry held (names.foldl Store.retireFile
      { s with vmgr := { s.vmgr with obsolete_files := [] } }) := by
  induction names generalizing s with
  | nil => exact h
  | cons name names ih => exact ih (s := s.retireFile name) h.retire

theorem Registry.cleanup {inUse : List Bytes} (hsub : held ⊆ inUse) :
    Registry held (s.cleanupObsoleteFiles inUse) := by
  have hall : Registry held (s.vmgr.obsolete_files.foldl Store.retireFile
      { s with vmgr := { s.vmgr with obsolete_files := [] } }) := Registry.retireAll h
  exact hall.tryDelete hsub

theorem Registry.commitCompaction {s' : Store} {run : CompactionRun} {cleanup_obsolete : Bool}
    {inUse : List Bytes} (hsub : held ⊆ inUse) (hrun : s.compaction = some run)
    (hs : s.commitCompaction run cleanup_obsolete inUse = some s') : Registry held s' := by
  have hfiles := h.run run hrun
  have hm := h.manifest s.vmgr.manifestPath (s.vmgr.logAndApply s.files run.result.edit).2
  have hpublished : Registry held (s.publishRun run) :=
    hm.publish run.result.edit run.result.new_readers rfl rfl rfl rfl (unpublished_publishRun hrun)
      (fun a ha => ⟨hfiles.path a ha, hfiles.disk a ha, hfiles.readers a ha⟩)
      (fun _ _ hb => hb) fun _ hr => by contradiction
  obtain ⟨-, ⟨-, rfl⟩ | ⟨-, rfl⟩⟩ := commitCompaction_cases hs
  · split_ifs
    · exact hpublished.cleanup hsub
    · exact hpublished
  · exact h.abort hrun

omit h in
/-- The files that an action, where it deletes, finds in use. -/
def StoreAction.inUse : StoreAction → Option (List Bytes)
  | .skip _ _ held => some held
  | .commit _ held => some held
  | .cleanup held => some held
  | .shutdown held => some held
  | _ => none

theorem Registry.step {s' : Store} {a : StoreAction}
    (hsub : ∀ inUse, a.inUse = some inUse → held ⊆ inUse) (hs : s.step a = some s') :
    Registry held s' := by
  cases a with
  | build entries => exact h.buildFlush hs
  | commitFlush => exact h.commitFlush hs
  | pick force ttl_map =>
    obtain ⟨run, progress, files, hrun, rfl⟩ := startCompaction_withRun hs
    exact h.withRun progress files hrun
  | skip force ttl_map inUse =>
    rw [(skipCompaction_eq hs).2.2]
    exact h.tryDelete (hsub inUse rfl)
  | read reader =>
    obtain ⟨run, -, hread⟩ := Option.bind_eq_some_iff.mp hs
    obtain ⟨run', progress, files, hrun, rfl⟩ := readInputs_withRun hread
    exact h.withRun progress files hrun
  | output =>
    obtain ⟨run, hrun, hwrite⟩ := Option.bind_eq_some_iff.mp hs
    exact h.writeOutput hrun hwrite
  | commit cleanup_obsolete inUse =>
    obtain ⟨run, hrun, hcommit⟩ := Option.bind_eq_some_iff.mp hs
    exact h.commitCompaction (hsub inUse rfl) hrun hcommit
  | cleanup inUse =>
    rw [← Option.some.inj hs]
    exact h.cleanup (hsub inUse rfl)
  | shutdown inUse =>
    rw [← Option.some.inj hs]
    exact (h.cleanup (hsub inUse rfl)).manifest _ _

theorem Registry.fails {s' : Store} {a : DiskAction} (hs : FailStep s a s') : Registry held s' := by
  cases hs with
  | finish hbuilt => exact h.counter
  | @openTable n t readable hbuilt =>
    have hdrop := h.dropBuilt [] _ fun path hin =>
      inDir_replace (sstName n) (if readable then some t else none) hin
    rw [List.append_nil] at hdrop
    exact hdrop
  | logFlush hbuilt => exact (h.manifest _ _).dropBuilt _ _ fun _ hin => hin
  | run hrun hrest => exact h.counter.abort hrun
  | commit hrun hrest hvalid => exact (h.manifest _ _).abort hrun

end

end MiniTsdb
