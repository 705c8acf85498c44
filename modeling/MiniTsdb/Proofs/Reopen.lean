import MiniTsdb.Proofs.StartupScan
import MiniTsdb.Proofs.StoreDisk

/-! Opening a directory again: with a file in the version, the version and its tables come
back; without one, every table of the directory does. -/

namespace MiniTsdb
open Lib

variable {scanned : TsKey → Bool}

/-- The readers hold what is on disk. -/
def Startup.Faithful (s : Startup) : Prop :=
  ∀ r ∈ s.sst_readers, openTable s.vm.db_dir s.dir r.file_name = some r.table

theorem openReader_spec {s : Startup} {f : FileMeta} (hlt : f.file_number < s.vm.next_file_number)
    (hfaithful : s.Faithful) :
    (s.openReader f).vm = s.vm ∧ (s.openReader f).Faithful ∧
      (∀ r ∈ (s.openReader f).sst_readers, r ∈ s.sst_readers ∨ r.file_name = f.file_name) ∧
      ∀ path, (findReader s.sst_readers path).isSome ∨
          path = f.file_name ∧ (openTable s.vm.db_dir s.dir path).isSome →
        (findReader (s.openReader f).sst_readers path).isSome := by
  have hmark : s.vm.markFileNumberUsed f.file_number = s.vm := by
    rw [VersionManager.markFileNumberUsed, if_neg (by omega)]
  unfold Startup.openReader
  split_ifs with hfound
  · refine ⟨rfl, hfaithful, fun r hr => Or.inl hr, fun path hpath => ?_⟩
    rcases hpath with hpath | ⟨rfl, -⟩
    · exact hpath
    · exact hfound
  · split
    · rename_i hnone
      refine ⟨rfl, hfaithful, fun r hr => Or.inl hr, fun path hpath => ?_⟩
      rcases hpath with hpath | ⟨rfl, hpath⟩
      · exact hpath
      · rw [hnone] at hpath
        contradiction
    · rename_i t ht
      rw [hmark]
      refine ⟨rfl, fun r hr => ?_, fun r hr => ?_, fun path hpath => ?_⟩
      · rcases List.mem_append.mp hr with hr | hr
        · exact hfaithful r hr
        · rw [List.mem_singleton.mp hr]
          exact ht
      · rcases List.mem_append.mp hr with hr | hr
        · exact Or.inl hr
        · rw [List.mem_singleton.mp hr]
          exact Or.inr rfl
      · dsimp only
        rw [findReader, List.find?_append, Option.isSome_or, Bool.or_eq_true]
        rcases hpath with hpath | ⟨rfl, -⟩
        · exact Or.inl hpath
        · exact Or.inr (by simp)

theorem openReaders_spec (fs : List FileMeta) {s : Startup}
    (hlt : ∀ f ∈ fs, f.file_number < s.vm.next_file_number) (hfaithful : s.Faithful) :
    (fs.foldl Startup.openReader s).vm = s.vm ∧ (fs.foldl Startup.openReader s).Faithful ∧
      (∀ r ∈ (fs.foldl Startup.openReader s).sst_readers,
        r ∈ s.sst_readers ∨ ∃ f ∈ fs, r.file_name = f.file_name) ∧
      ∀ path, (findReader s.sst_readers path).isSome ∨
          (∃ f ∈ fs, path = f.file_name) ∧ (openTable s.vm.db_dir s.dir path).isSome →
        (findReader (fs.foldl Startup.openReader s).sst_readers path).isSome := by
  induction fs generalizing s with
  | nil => exact ⟨rfl, hfaithful, fun r hr => Or.inl hr, fun path hpath => by simpa using hpath⟩
  | cons f fs ih =>
    obtain ⟨hvm, hf, hreaders, hfind⟩ := openReader_spec (hlt f List.mem_cons_self) hfaithful
    have hdir := (openReader_frame s f).2.1
    obtain ⟨hvm', hf', hreaders', hfind'⟩ := ih (s := s.openReader f)
      (fun g hg => by rw [hvm]; exact hlt g (List.mem_cons_of_mem f hg)) hf
    rw [List.foldl_cons]
    refine ⟨hvm'.trans hvm, hf', fun r hr => ?_, fun path hpath => hfind' path ?_⟩
    · rcases hreaders' r hr with hr | ⟨g, hg, heq⟩
      · exact (hreaders r hr).imp_right fun heq => ⟨f, List.mem_cons_self, heq⟩
      · exact Or.inr ⟨g, List.mem_cons_of_mem f hg, heq⟩
    · rcases hpath with hpath | ⟨⟨g, hg, rfl⟩, hopen⟩
      · exact Or.inl (hfind path (Or.inl hpath))
      · rcases List.mem_cons.mp hg with rfl | hg
        · exact Or.inl (hfind _ (Or.inr ⟨rfl, hopen⟩))
        · exact Or.inr ⟨⟨g, hg, rfl⟩, by rw [hvm, hdir]; exact hopen⟩

theorem findReader_spec {rs : List TableReader} {path : Bytes} {r : TableReader}
    (h : findReader rs path = some r) : r ∈ rs ∧ r.file_name = path :=
  ⟨List.mem_of_find?_eq_some h, by simpa using List.find?_some h⟩

theorem mem_allFiles {v : Version} {f : FileMeta} :
    f ∈ v.allFiles.map Prod.snd ↔ ∃ l, f ∈ v.level_files l := by
  simp [Version.allFiles]

/-- The directory a store leaves, opened again. -/
def Store.reopened (s : Store) : Startup := startup s.vmgr.db_dir s.files s.dir

theorem openTable_filter {db_dir : Bytes} {dir : SstDir} {p : Bytes × Option SSTable → Bool}
    {path : Bytes} (h : ∀ e ∈ dir, joinPath db_dir e.1 = path → p e = true) :
    openTable db_dir (dir.filter p) path = openTable db_dir dir path := by
  rw [openTable, openTable, List.find?_filter]
  congr 1
  induction dir with
  | nil => rfl
  | cons e dir ih =>
    rw [List.find?_cons, List.find?_cons, ih fun e' he' => h e' (List.mem_cons_of_mem e he')]
    by_cases he : joinPath db_dir e.1 = path
    · simp [he, h e List.mem_cons_self he]
    · rw [beq_false_of_ne he]
      simp

def Store.collected (s : Store) : SstDir :=
  s.dir.filter fun e => !(isSst e.1 && !(s.vmgr.current.liveFiles.contains e.1))

/-- The version, its tables and nothing else. -/
structure Reopened (s : Store) (st : Startup) : Prop where
  recovered : Recovered s.vmgr.db_dir s.vmgr.current st.vm
  files : st.files = s.files
  dir : st.dir = s.collected
  readers : ∀ r ∈ st.sst_readers, ∃ l, ∃ f ∈ s.vmgr.current.level_files l, r.file_name = f.file_name
  find : ∀ l, ∀ f ∈ s.vmgr.current.level_files l,
    findReader st.sst_readers f.file_name = some ⟨f.file_name, s.tableAt f⟩

theorem openTable_collected {s : Store} (h : StoreInv scanned s) {l : Fin kMaxLevel} {f : FileMeta}
    (hf : f ∈ s.vmgr.current.level_files l) :
    openTable s.vmgr.db_dir s.collected f.file_name = some (s.tableAt f) := by
  rw [← (h.live l f hf).disk]
  refine openTable_filter fun e _ he => ?_
  have hname := (h.live l f hf).path
  rw [VersionManager.newFileName] at hname
  rw [hname] at he
  have hlive := mem_liveFiles hf
  rw [hname, baseName_newFileName, ← joinPath_inj he] at hlive
  simp [hlive]

/-- What opening makes of a recovered version that has a file. -/
structure Opened (st st' : Startup) : Prop where
  vm : st'.vm = st.vm
  files : st'.files = st.files
  dir : st'.dir = st.dir.filter fun e => !(isSst e.1 && !(st.vm.current.liveFiles.contains e.1))
  readers : ∀ r ∈ st'.sst_readers, ∃ l, ∃ f ∈ st.vm.current.level_files l, r.file_name = f.file_name
  find : ∀ l, ∀ f ∈ st.vm.current.level_files l, ∀ t,
    openTable st.vm.db_dir st.dir f.file_name = some t →
      findReader st'.sst_readers f.file_name = some ⟨f.file_name, t⟩

theorem opened_version {st : Startup} (hbelow : st.vm.Below) (hnone : st.sst_readers = [])
    (hne : ¬ st.vm.current.IsEmpty) : Opened st st.loadExistingSSTables := by
  have hload : st.loadExistingSSTables = st.openReadersForCurrentVersion.garbageCollectSSTables := by
    rw [Startup.loadExistingSSTables, if_pos ((numFiles_pos_iff _).mpr hne)]
  have hopened : st.openReadersForCurrentVersion =
      (st.vm.current.allFiles.map Prod.snd).foldl Startup.openReader st := rfl
  obtain ⟨hvm, hfaithful, hreaders, hfind⟩ := openReaders_spec (st.vm.current.allFiles.map Prod.snd)
    (s := st) (fun f hf => by
      obtain ⟨l, hl⟩ := mem_allFiles.mp hf
      exact hbelow l f hl)
    (fun r hr => by
      rw [hnone] at hr
      contradiction)
  obtain ⟨-, hdir, hfiles⟩ := openReaders_frame (st.vm.current.allFiles.map Prod.snd) st
  rw [hload]
  refine ⟨?_, hfiles, ?_, fun r hr => ?_, fun l f hf t ht => ?_⟩
  · change st.openReadersForCurrentVersion.vm = st.vm
    rw [hopened, hvm]
  · rw [Startup.garbageCollectSSTables, hopened, hdir, hvm]
  · rcases hreaders r hr with hr | ⟨f, hf, heq⟩
    · rw [hnone] at hr
      contradiction
    · obtain ⟨l, hl⟩ := mem_allFiles.mp hf
      exact ⟨l, f, hl, heq⟩
  · have hsome := hfind f.file_name (Or.inr ⟨⟨f, mem_allFiles.mpr ⟨l, hf⟩, rfl⟩, by rw [ht]; rfl⟩)
    obtain ⟨r, hr⟩ := Option.isSome_iff_exists.mp hsome
    obtain ⟨hmem, hname⟩ := findReader_spec hr
    have htable := hfaithful r hmem
    rw [hvm, hdir, hname, ht] at htable
    change findReader st.openReadersForCurrentVersion.sst_readers _ = _
    rw [hopened, hr, Option.some.inj htable, ← hname]

/-- A version that has a file is the one that comes back. -/
theorem reopen_version {s : Store} (h : StoreInv scanned s)
    (hlog : Logged s.vmgr.db_dir s.vmgr.current s.files) (hne : ¬ s.vmgr.current.IsEmpty) :
    Reopened s s.reopened := by
  obtain ⟨hrec, -⟩ := recover_logged hlog
  have hcurrent := hrec.current
  set st : Startup := ⟨(VersionManager.init s.vmgr.db_dir s.files).1, [], s.files, s.dir⟩ with hst
  have ho : Opened st s.reopened := opened_version hrec.below rfl (by rw [hst, hcurrent]; exact hne)
  refine ⟨ho.vm ▸ hrec, ho.files, ?_, fun r hr => ?_, fun l f hf => ?_⟩
  · rw [ho.dir, Store.collected, ← hcurrent]
  · rw [← hcurrent]
    exact ho.readers r hr
  · refine ho.find l f (by rw [hst, hcurrent]; exact hf) _ ?_
    rw [hst, hrec.dir_eq]
    exact (h.live l f hf).disk

section
variable {s : Store} {st : Startup} (h : StoreInv scanned s) (hr : Reopened s st) (target : ℕ)
include h hr

omit h in
theorem Reopened.tableAt {l : Fin kMaxLevel} {f : FileMeta} (hf : f ∈ s.vmgr.current.level_files l) :
    (st.store target).tableAt f = s.tableAt f := by
  rw [Store.tableAt]
  change ((findReader st.sst_readers f.file_name).map TableReader.table).getD ⟨[], 0⟩ = _
  rw [hr.find l f hf]
  rfl

omit h in
theorem Reopened.met (key : TsKey) : (st.store target).met key = s.met key := by
  rw [Store.met, Store.met]
  apply List.flatMap_congr
  intro l _
  change (st.store target).versionsIn (st.vm.current.level_files l) key = _
  rw [hr.recovered.current]
  exact versionsIn_congr (fun f hf => hr.tableAt target hf) key

theorem Reopened.storeInv : StoreInv scanned (st.store target) := by
  have hrec := hr.recovered
  have hmem : ∀ l f, f ∈ st.vm.current.level_files l → f ∈ s.vmgr.current.level_files l := by
    intro l f hf
    rw [hrec.current] at hf
    exact hf
  refine storeInv_opened ?_ ?_ hrec.below hrec.no_obsolete ?_ ?_ ?_ ?_
  · rw [hrec.name_eq, hrec.dir_eq]
  · rw [hrec.current]
    exact h.ordered
  · intro l f hf
    have hlive := h.live l f (hmem l f hf)
    have htab := hr.tableAt target (hmem l f hf)
    refine ⟨?_, ?_, ?_, ?_, ?_⟩
    · change f.file_name = joinPath st.vm.db_dir _
      rw [hrec.dir_eq]
      exact hlive.path
    · rw [htab]
      exact hr.find l f (hmem l f hf)
    · change openTable st.vm.db_dir st.dir _ = _
      rw [htab, hr.dir, hrec.dir_eq]
      exact openTable_collected h (hmem l f hf)
    · rw [htab]
      exact hlive.meta_eq
    · rw [htab]
      exact hlive.ascending
  · intro l f hf l' f' hf' heq
    exact h.one_level l f (hmem l f hf) l' f' (hmem l' f' hf') heq
  · intro key
    rw [versionsIn_congr fun f hf => hr.tableAt target (hmem 1 f hf), hrec.current]
    exact h.level_one key
  · intro r hr'
    obtain ⟨l, f, hf, heq⟩ := hr.readers r hr'
    have hpath := (h.live l f hf).path
    refine ⟨f.file_number, hrec.below l f (by rw [hrec.current]; exact hf), ?_⟩
    rw [heq, hpath, VersionManager.newFileName, VersionManager.newFileName, hrec.dir_eq]

omit h in
theorem Reopened.diskInv (hd : DiskInv s) : DiskInv (st.store target) := by
  refine hd.keep ?_
  change st.dir.Sublist s.dir
  rw [hr.dir]
  exact List.filter_sublist

end

/-- The file the scan makes of a table. -/
def scannedAs (db_dir : Bytes) (n : ℕ) (t : SSTable) : FileMeta := t.fileMeta n (joinPath db_dir (sstName n))

theorem addScanned_eq (s : Startup) {n : ℕ} (hn : n < 2 ^ 64) (t : SSTable) :
    s.addScanned (sstName n, some t) = { s with
      vm := s.vm.applyUnlocked (flushEdit (scannedAs s.vm.db_dir n t))
      sst_readers := s.sst_readers ++ [⟨joinPath s.vm.db_dir (sstName n), t⟩] } := by
  unfold Startup.addScanned
  dsimp only
  rw [readUnsigned_stem hn]
  rfl

theorem no_obsolete_flushEdit {vm : VersionManager} (h : vm.obsolete_files = []) (f : FileMeta) :
    (vm.applyUnlocked (flushEdit f)).obsolete_files = [] := by
  refine List.eq_nil_iff_forall_not_mem.mpr fun name hname => ?_
  rcases mem_applyUnlocked_obsolete hname with hname | ⟨l, g, -, hdel, -⟩
  · rw [h] at hname
    contradiction
  · simp [VersionEdit.deletes, flushEdit] at hdel

theorem below_flushEdit {vm : VersionManager} (h : vm.Below) (f : FileMeta) :
    (vm.applyUnlocked (flushEdit f)).Below := by
  refine below_applyUnlocked h fun l g hg => ?_
  rw [flushEdit, addedAt_single] at hg
  split_ifs at hg
  · rw [List.mem_singleton.mp hg]
    simp only [flushEdit, bumpLast, List.getLast?_singleton]
    split_ifs <;> omega
  · contradiction

/-- Files under the names of tables; the number of one that opens fits its type. -/
def Standard (es : SstDir) : Prop := ∀ e ∈ es, ∃ n o, e = (sstName n, o) ∧ (o.isSome → n < 2 ^ 64)

/-- What the scan carries from file to file. -/
structure Scanning (s s' : Startup) : Prop where
  db_dir : s'.vm.db_dir = s.vm.db_dir
  manifest_name : s'.vm.manifest_name = s.vm.manifest_name
  below : s.vm.Below → s'.vm.Below
  no_obsolete : s.vm.obsolete_files = [] → s'.vm.obsolete_files = []

theorem scanning_fold {es : SstDir} (h : Standard es) (s : Startup) :
    Scanning s (es.foldl Startup.addScanned s) ∧
      (es.foldl Startup.addScanned s).sst_readers = s.sst_readers ++ es.filterMap fun e =>
        e.2.map fun t => ⟨joinPath s.vm.db_dir e.1, t⟩ := by
  induction es generalizing s with
  | nil => exact ⟨⟨rfl, rfl, id, id⟩, (List.append_nil _).symm⟩
  | cons e es ih =>
    obtain ⟨n, o, rfl, hn⟩ := h e List.mem_cons_self
    have hrest : Standard es := fun e' he' => h e' (List.mem_cons_of_mem _ he')
    rw [List.foldl_cons]
    cases o with
    | none => exact ih hrest s
    | some t =>
      obtain ⟨hscan, hreaders⟩ := ih hrest (s.addScanned (sstName n, some t))
      rw [addScanned_eq s (hn rfl)] at hscan hreaders ⊢
      refine ⟨⟨?_, ?_, fun hb => ?_, fun ho => ?_⟩, ?_⟩
      · exact hscan.db_dir.trans (applyUnlocked_db_dir _ _)
      · exact hscan.manifest_name.trans (applyUnlocked_manifest_name _ _)
      · exact hscan.below (below_flushEdit hb _)
      · exact hscan.no_obsolete (no_obsolete_flushEdit ho _)
      · rw [hreaders]
        dsimp only
        rw [applyUnlocked_db_dir, List.append_assoc]
        rfl

/-- All tables of the directory in L0. -/
structure Rescanned (s : Store) (st : Startup) : Prop where
  db_dir : st.vm.db_dir = s.vmgr.db_dir
  manifest_name : st.vm.manifest_name = joinPath s.vmgr.db_dir manifestFile
  below : st.vm.Below
  no_obsolete : st.vm.obsolete_files = []
  ordered : st.vm.current.Ordered
  dir : st.dir = s.dir
  zero : ∀ f, f ∈ st.vm.current.level_files 0 ↔
    ∃ n t, (sstName n, some t) ∈ s.dir ∧ f = scannedAs s.vmgr.db_dir n t
  deeper : ∀ l, l ≠ 0 → st.vm.current.level_files l = []
  readers : ∀ r, r ∈ st.sst_readers ↔
    ∃ n t, (sstName n, some t) ∈ s.dir ∧ r = ⟨joinPath s.vmgr.db_dir (sstName n), t⟩
  files : st.files = s.files ∧ st.vm.current.IsEmpty ∨
    st.files = (st.vm.writeSnapshotManifest s.files).2

theorem rescanned {s : Store} (hnames : (s.dir.map Prod.fst).Nodup) (hstandard : Standard (scanOrder s.dir))
    (hrec : Recovered s.vmgr.db_dir s.vmgr.current (VersionManager.init s.vmgr.db_dir s.files).1)
    (hempty : s.vmgr.current.IsEmpty) : Rescanned s s.reopened := by
  set vm := (VersionManager.init s.vmgr.db_dir s.files).1
  set st : Startup := ⟨vm, [], s.files, s.dir⟩ with hst
  have hvempty : st.vm.current.IsEmpty := by
    rw [hst, hrec.current]
    exact hempty
  have hload : s.reopened = st.scanDirectory := load_of_empty hvempty
  have hsmall : ∀ n t, (sstName n, some t) ∈ s.dir → n < 2 ^ 64 := by
    intro n t hmem
    obtain ⟨m, o, heq, hm⟩ := hstandard _ (mem_scanOrder.mpr ⟨hmem, isSst_sstName n⟩)
    obtain ⟨hname, rfl⟩ := Prod.mk.inj heq
    rw [sstName_injective hname]
    exact hm rfl
  obtain ⟨hscan, hreaders⟩ := scanning_fold hstandard st
  set found := (scanOrder s.dir).foldl Startup.addScanned st
  have hname : found.vm.manifest_name = joinPath s.vmgr.db_dir manifestFile :=
    hscan.manifest_name.trans hrec.name_eq
  have hdb : found.vm.db_dir = s.vmgr.db_dir := hscan.db_dir.trans hrec.dir_eq
  have hdir : found.dir = s.dir := foldl_addScanned_dir _ _
  have hfiles : found.files = s.files := foldl_addScanned_files _ _
  -- the snapshot changes the files only
  have hvm : s.reopened.vm = found.vm ∧ s.reopened.dir = found.dir ∧
      s.reopened.sst_readers = found.sst_readers ∧ (s.reopened.files = found.files ∧
        ¬ 0 < found.vm.numFiles ∨ s.reopened.files = (found.vm.writeSnapshotManifest found.files).2) := by
    have hdirectory : st.scanDirectory = if 0 < found.vm.numFiles then
        { found with
          vm := (found.vm.writeSnapshotManifest found.files).1
          files := (found.vm.writeSnapshotManifest found.files).2 }
        else found := rfl
    rw [hload, hdirectory]
    split_ifs with hpos
    · exact ⟨writeSnapshotManifest_vm hname found.files, rfl, rfl, Or.inr rfl⟩
    · exact ⟨rfl, rfl, rfl, Or.inl ⟨rfl, hpos⟩⟩
  obtain ⟨hvm, hdir', hreaders', hfiles'⟩ := hvm
  have hexact := scan_exact (s := st) hvempty hnames
    (p := fun f => ∃ n t, (sstName n, some t) ∈ s.dir ∧ f = scannedAs s.vmgr.db_dir n t) ?_ ?_
  · rw [← hload, hvm] at hexact
    obtain ⟨hord, hzero, hdeeper⟩ := hexact
    refine ⟨hvm ▸ hdb, hvm ▸ hname, ?_, ?_, hvm ▸ hord, hdir'.trans hdir, ?_, ?_, fun r => ?_, ?_⟩
    · rw [hvm]
      exact hscan.below hrec.below
    · rw [hvm]
      exact hscan.no_obsolete hrec.no_obsolete
    · rw [hvm]
      exact hzero
    · rw [hvm]
      exact hdeeper
    · rw [hreaders', hreaders, hst, hrec.dir_eq, List.nil_append, List.mem_filterMap]
      constructor
      · rintro ⟨e, he, hr⟩
        obtain ⟨n, o, rfl, -⟩ := hstandard e he
        obtain ⟨t, rfl, rfl⟩ := Option.map_eq_some_iff.mp hr
        exact ⟨n, t, (mem_scanOrder.mp he).1, rfl⟩
      · rintro ⟨n, t, hmem, rfl⟩
        exact ⟨_, mem_scanOrder.mpr ⟨hmem, isSst_sstName n⟩, rfl⟩
    · rw [hvm]
      rcases hfiles' with ⟨hsame, hpos⟩ | hsnap
      · exact Or.inl ⟨hsame.trans hfiles, not_not.mp fun hne => hpos ((numFiles_pos_iff _).mpr hne)⟩
      · exact Or.inr (hsnap.trans (by rw [hfiles]))
  · rintro f ⟨n, t, hmem, rfl⟩
    rw [hst, hrec.dir_eq]
    exact ⟨hsmall n t hmem, rfl, t, hmem, rfl⟩
  · intro e he hsst hsome
    obtain ⟨n, o, rfl, -⟩ := hstandard e (mem_scanOrder.mpr ⟨he, hsst⟩)
    obtain ⟨t, rfl⟩ := Option.isSome_iff_exists.mp hsome
    exact ⟨_, ⟨n, t, he, rfl⟩, rfl⟩

theorem reopen_scan {s : Store} (hd : DiskInv s) (hlog : Logged s.vmgr.db_dir s.vmgr.current s.files)
    (hempty : s.vmgr.current.IsEmpty) (hsmall : ∀ n t, (sstName n, some t) ∈ s.dir → n < 2 ^ 64) :
    Rescanned s s.reopened := by
  refine rescanned hd.names (fun e he => ?_) (recover_logged hlog).1 hempty
  obtain ⟨n, o, rfl, -⟩ := hd.tables e (mem_scanOrder.mp he).1
  refine ⟨n, o, rfl, fun hsome => ?_⟩
  obtain ⟨t, rfl⟩ := Option.isSome_iff_exists.mp hsome
  exact hsmall n t (mem_scanOrder.mp he).1

section
variable {s : Store} {st : Startup} (hnames : (s.dir.map Prod.fst).Nodup) (hr : Rescanned s st)
  (target : ℕ)
include hnames hr

theorem Rescanned.find {n : ℕ} {t : SSTable} (hmem : (sstName n, some t) ∈ s.dir) :
    findReader st.sst_readers (joinPath s.vmgr.db_dir (sstName n)) =
        some ⟨joinPath s.vmgr.db_dir (sstName n), t⟩ ∧
      openTable s.vmgr.db_dir s.dir (joinPath s.vmgr.db_dir (sstName n)) = some t := by
  constructor
  · have hsome : (findReader st.sst_readers (joinPath s.vmgr.db_dir (sstName n))).isSome := by
      rw [findReader, List.find?_isSome]
      exact ⟨_, (hr.readers _).mpr ⟨n, t, hmem, rfl⟩, beq_self_eq_true _⟩
    obtain ⟨r, hfind⟩ := Option.isSome_iff_exists.mp hsome
    obtain ⟨hr', hname⟩ := findReader_spec hfind
    obtain ⟨m, t', hmem', rfl⟩ := (hr.readers r).mp hr'
    obtain rfl := path_injective hname
    rw [hfind, Option.some.inj (nodup_fst_unique hnames hmem' hmem)]
  · have hsome : (s.dir.find? fun e => joinPath s.vmgr.db_dir e.1 ==
        joinPath s.vmgr.db_dir (sstName n)).isSome := by
      rw [List.find?_isSome]
      exact ⟨_, hmem, beq_self_eq_true _⟩
    obtain ⟨e, he⟩ := Option.isSome_iff_exists.mp hsome
    have hname : e.1 = sstName n := joinPath_inj (by simpa using List.find?_some he)
    have heq : (sstName n, e.2) ∈ s.dir := by
      rw [← hname]
      exact List.mem_of_find?_eq_some he
    rw [openTable, he, Option.bind_some, nodup_fst_unique hnames heq hmem]

theorem Rescanned.tableAt {n : ℕ} {t : SSTable} (hmem : (sstName n, some t) ∈ s.dir) :
    (st.store target).tableAt (scannedAs s.vmgr.db_dir n t) = t := by
  rw [Store.tableAt]
  change ((findReader st.sst_readers (joinPath s.vmgr.db_dir (sstName n))).map
    TableReader.table).getD ⟨[], 0⟩ = t
  rw [(hr.find hnames hmem).1]
  rfl

/-- A file of the opened engine is a table of the directory. -/
theorem Rescanned.live (hasc : ∀ n t, (sstName n, some t) ∈ s.dir → Ascending Prod.fst t.entries)
    {l : Fin kMaxLevel} {f : FileMeta} (hf : f ∈ st.vm.current.level_files l) :
    l = 0 ∧ Live (st.store target) f := by
  have hl : l = 0 := by
    by_contra hl
    rw [hr.deeper l hl] at hf
    contradiction
  subst hl
  obtain ⟨n, t, hmem, rfl⟩ := (hr.zero f).mp hf
  obtain ⟨hfind, hopen⟩ := hr.find hnames hmem
  have htab := hr.tableAt hnames target hmem
  refine ⟨rfl, ?_, ?_, ?_, ?_, ?_⟩
  · change _ = joinPath st.vm.db_dir (sstName n)
    rw [hr.db_dir]
    rfl
  · rw [htab]
    exact hfind
  · change openTable st.vm.db_dir st.dir _ = _
    rw [htab, hr.dir, hr.db_dir]
    exact hopen
  · rw [htab]
    rfl
  · rw [htab]
    exact hasc n t hmem

omit hnames in
theorem Rescanned.storeInv (hd : DiskInv s) : StoreInv scanned (st.store target) := by
  have hlive := fun l f => hr.live hd.names target (fun _ _ => hd.ascending) (l := l) (f := f)
  refine storeInv_opened ?_ hr.ordered hr.below hr.no_obsolete (fun l f hf => (hlive l f hf).2) ?_ ?_ ?_
  · rw [hr.manifest_name, hr.db_dir]
  · intro l f hf l' f' hf' _
    rw [(hlive l f hf).1, (hlive l' f' hf').1]
  · intro key
    rw [hr.deeper 1 (by decide)]
    exact Nat.zero_le 1
  · intro r hr'
    obtain ⟨n, t, hmem, rfl⟩ := (hr.readers r).mp hr'
    refine ⟨n, hr.below 0 _ ((hr.zero _).mpr ⟨n, t, hmem, rfl⟩), ?_⟩
    rw [VersionManager.newFileName, hr.db_dir]

omit hnames in
theorem Rescanned.diskInv (hd : DiskInv s) : DiskInv (st.store target) := by
  refine hd.keep ?_
  change st.dir.Sublist s.dir
  rw [hr.dir]

omit hnames in
theorem Rescanned.met_eq (key : TsKey) : (st.store target).met key =
    (st.store target).versionsIn (st.vm.current.level_files 0) key := by
  have hsplit : List.finRange kMaxLevel = 0 :: (List.finRange kMaxLevel).tail := rfl
  have hrest : ((List.finRange kMaxLevel).tail.flatMap fun l =>
      (st.store target).versionsIn (st.vm.current.level_files l) key) = [] := by
    refine List.flatMap_eq_nil_iff.mpr fun l hl => ?_
    have hne : ∀ l ∈ (List.finRange kMaxLevel).tail, l ≠ 0 := by decide
    rw [hr.deeper l (hne l hl), versionsIn_nil]
  rw [Store.met, hsplit, List.flatMap_cons]
  exact (congrArg _ hrest).trans (List.append_nil _)

/-- With one table in the directory, a search meets what it holds. -/
theorem Rescanned.met_single {n : ℕ} {t : SSTable} (hdir : s.dir = [(sstName n, some t)])
    (key : TsKey) : (st.store target).met key = (t.getEntry key).toList := by
  have hmem : (sstName n, some t) ∈ s.dir := by rw [hdir]; exact List.mem_cons_self
  have hone : st.vm.current.level_files 0 = [scannedAs s.vmgr.db_dir n t] := by
    have hperm : (st.vm.current.level_files 0).Perm [scannedAs s.vmgr.db_dir n t] := by
      refine (List.perm_ext_iff_of_nodup (hr.ordered 0).nodup (List.nodup_singleton _)).mpr fun f => ?_
      rw [hr.zero, List.mem_singleton]
      constructor
      · rintro ⟨m, t', hm, rfl⟩
        rw [hdir, List.mem_singleton] at hm
        obtain ⟨hname, ht⟩ := Prod.mk.inj hm
        rw [sstName_injective hname, Option.some.inj ht]
      · rintro rfl
        exact ⟨n, t, hmem, rfl⟩
    exact List.perm_singleton.mp hperm
  rw [hr.met_eq, hone, Store.versionsIn, List.map_singleton, versionsOf_singleton,
    hr.tableAt hnames target hmem]

omit hnames in
theorem Rescanned.met_nil (hdir : s.dir = []) (key : TsKey) : (st.store target).met key = [] := by
  refine List.flatMap_eq_nil_iff.mpr fun l _ => ?_
  have hnone : st.vm.current.level_files l = [] := by
    by_cases hl : l = 0
    · subst hl
      refine List.eq_nil_iff_forall_not_mem.mpr fun f hf => ?_
      obtain ⟨n, t, hmem, -⟩ := (hr.zero f).mp hf
      rw [hdir] at hmem
      contradiction
    · exact hr.deeper l hl
  change Store.versionsIn _ (st.vm.current.level_files l) key = []
  rw [hnone, versionsIn_nil]

omit hnames in
theorem Rescanned.logged (hlog : Logged s.vmgr.db_dir s.vmgr.current s.files)
    (hempty : s.vmgr.current.IsEmpty)
    (hback : EditReadsBack s.vmgr.db_dir ⟨st.vm.current.allFiles, []⟩ st.vm.next_file_number) :
    Logged s.vmgr.db_dir st.vm.current st.files := by
  rcases hr.files with ⟨hsame, hnone⟩ | hsnap
  · have heq : st.vm.current = s.vmgr.current := by
      have hlevels : st.vm.current.level_files = s.vmgr.current.level_files := by
        funext l
        rw [hnone l, hempty l]
      calc st.vm.current = ⟨st.vm.current.level_files⟩ := rfl
        _ = ⟨s.vmgr.current.level_files⟩ := by rw [hlevels]
    rw [hsame, heq]
    exact hlog
  · rw [hsnap]
    exact (logged_writeSnapshotManifest hr.manifest_name hr.ordered hlog.current_file hback).1

end

end MiniTsdb
