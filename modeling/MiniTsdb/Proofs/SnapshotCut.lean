import MiniTsdb.Proofs.CrashAtomic
import MiniTsdb.Proofs.Reopen

/-! A crash while the manifest is rewritten. The snapshot goes into the manifest that it
truncates: recovery sees a prefix of it and nothing of what was there before. -/

namespace MiniTsdb
open Lib

/-- A store that is about to rewrite its manifest: every file of the version has its reader
and its table, and a line that can hold it. -/
structure Snapshotting (s : Store) : Prop where
  manifest : s.vmgr.manifestPath = joinPath s.vmgr.db_dir manifestFile
  current_file : NamesManifest s.vmgr.db_dir s.files
  ordered : s.vmgr.current.Ordered
  one_level : ∀ l, ∀ f ∈ s.vmgr.current.level_files l, ∀ l', ∀ f' ∈ s.vmgr.current.level_files l',
    f.file_number = f'.file_number → l = l'
  live : ∀ l, ∀ f ∈ s.vmgr.current.level_files l, Live s f
  small : ∀ l, ∀ f ∈ s.vmgr.current.level_files l, f.file_number < 2 ^ 64 ∧ f.file_size < 2 ^ 64
  tokens : ∀ l, ∀ f ∈ s.vmgr.current.level_files l,
    IsToken f.smallest.measurement ∧ IsToken f.largest.measurement
  names : (s.dir.map Prod.fst).Nodup
  tables : ∀ e ∈ s.dir, isSst e.1 = true → ∃ n o, e = (sstName n, o) ∧
    ∀ t, o = some t → n < 2 ^ 64 ∧ Ascending Prod.fst t.entries

/-- The files when `n` bytes of the snapshot reached the truncated manifest. -/
def Store.snapshotCut (s : Store) (n : ℕ) : Files :=
  Function.update s.files s.vmgr.manifestPath
    (((s.vmgr.writeSnapshotManifest s.files).2 s.vmgr.manifestPath).map (List.take n))

def Store.afterSnapshotCut (s : Store) (n : ℕ) : Startup :=
  startup s.vmgr.db_dir (s.snapshotCut n) s.dir

/-- Opening the directory loses no table of the version, and look-ups find what they found. -/
def SnapshotAtomic (s : Store) (n : ℕ) : Prop :=
  let st := s.afterSnapshotCut n
  (∀ l, ∀ f ∈ s.vmgr.current.level_files l,
    openTable st.vm.db_dir st.dir f.file_name = some (s.tableAt f) ∧
      ∃ l', ∃ g ∈ st.vm.current.level_files l', g.file_name = f.file_name) ∧
  ∀ key, getFromSSTables (st.store s.target_file_size).captureLevels key =
    getFromSSTables s.captureLevels key

def Store.snapshotItems (s : Store) : List EditItem := s.vmgr.current.allFiles.map .add

/-- A table under its number, as a scan of the directory takes it. -/
def numberedTable (e : Bytes × Option SSTable) : Option (ℕ × SSTable) :=
  if isSst e.1 then e.2.bind fun t => (readUnsigned 64 (stem e.1)).map fun r => (r.1, t) else none

/-- The entry of a key in the table of the highest number that has one. -/
def newestByNumber (dir : SstDir) (key : TsKey) : Option InternalEntry :=
  (sortBy Prod.fst (dir.filterMap numberedTable)).reverse.findSome? fun x => x.2.getEntry key

/-- A look-up that leaves out one file. -/
def Store.getWithout (s : Store) (number : ℕ) (key : TsKey) : Option InternalEntry :=
  getFromSSTables (fun l => (s.captureLevels l).filter fun ref => ref.file.file_number != number) key

/-- The cut is in the last bound of the last file, which is read as `b` says: no key above
that bound needs the file. -/
def LastBoundCut (s : Store) (n : ℕ) : Prop :=
  ∃ a m b, s.snapshotItems = (shown s.snapshotItems n).1 ++ [.add a] ∧
    (shown s.snapshotItems n).2 = some (.add a, m) ∧ (EditItem.add a).cutRead m = some (.add b) ∧
    ∀ key, tsKeyComparator key b.2.largest = .gt →
      s.getWithout a.2.file_number key = getFromSSTables s.captureLevels key

/-- The cuts that are safe. -/
def SafeSnapshotCut (s : Store) (n : ℕ) : Prop :=
  (shownItems s.snapshotItems n = [] →
    ∀ key, newestByNumber s.dir key = getFromSSTables s.captureLevels key) ∧
  (shownItems s.snapshotItems n ≠ [] →
    (shown s.snapshotItems n).2 = none ∨ LastBoundCut s n)

theorem mem_allFiles_iff {v : Version} {a : ℤ × FileMeta} :
    a ∈ v.allFiles ↔ ∃ l : Fin kMaxLevel, a.1 = l.val ∧ a.2 ∈ v.level_files l := by
  obtain ⟨level, f⟩ := a
  simp only [Version.allFiles, List.mem_flatMap, List.mem_map, Prod.mk.injEq]
  constructor
  · rintro ⟨l, -, g, hg, rfl, rfl⟩
    exact ⟨l, rfl, hg⟩
  · rintro ⟨l, rfl, hf⟩
    exact ⟨l, List.mem_finRange l, f, hf, rfl, rfl⟩

theorem mem_snapshotItems {s : Store} {item : EditItem} :
    item ∈ s.snapshotItems ↔
      ∃ l : Fin kMaxLevel, ∃ f ∈ s.vmgr.current.level_files l, item = .add (l.val, f) := by
  rw [Store.snapshotItems, List.mem_map]
  constructor
  · rintro ⟨⟨level, f⟩, ha, rfl⟩
    obtain ⟨l, rfl, hf⟩ := mem_allFiles_iff.mp ha
    exact ⟨l, f, hf, rfl⟩
  · rintro ⟨l, f, hf, rfl⟩
    exact ⟨_, mem_allFiles_iff.mpr ⟨l, rfl, hf⟩, rfl⟩

section
variable {s : Store} (h : Snapshotting s)
include h

theorem Snapshotting.numbers_nodup :
    (VersionEdit.addedNumbers ⟨s.vmgr.current.allFiles, []⟩).Nodup := by
  unfold VersionEdit.addedNumbers Version.allFiles
  rw [List.map_flatMap, List.nodup_flatMap]
  constructor
  · intro l _
    rw [List.map_map]
    exact (h.ordered l).nodup_map
  · refine (List.nodup_finRange kMaxLevel).imp fun {l l'} hne n hn hn' => hne ?_
    simp only [List.map_map, List.mem_map] at hn hn'
    obtain ⟨f, hf, rfl⟩ := hn
    obtain ⟨f', hf', heq⟩ := hn'
    exact h.one_level l f hf l' f' hf' heq.symm

theorem Snapshotting.readable : ∀ item ∈ s.snapshotItems, item.Readable s.vmgr.db_dir := by
  intro item hitem
  obtain ⟨l, f, hf, rfl⟩ := mem_snapshotItems.mp hitem
  obtain ⟨hnumber, hsize⟩ := h.small l f hf
  obtain ⟨hsmall, hlarge⟩ := h.tokens l f hf
  exact readable_add (levelIndex_val l) (h.live l f hf).path hnumber hsize hsmall hlarge

omit h in
theorem snapshotItems_eq (s : Store) : s.snapshotItems = VersionEdit.items ⟨s.vmgr.current.allFiles, []⟩ := rfl

omit h in
/-- Every line that is read adds a file, under the number and name of one of the version. -/
theorem shown_adds {n : ℕ} {item : EditItem} (hitem : item ∈ shownItems s.snapshotItems n) :
    ∃ l : Fin kMaxLevel, ∃ f ∈ s.vmgr.current.level_files l, ∃ g, item = .add (l.val, g) ∧
      g.file_number = f.file_number ∧ g.file_name = f.file_name := by
  rw [snapshotItems_eq] at hitem
  rcases shownItems_cases ⟨s.vmgr.current.allFiles, []⟩ n with ⟨-, hw⟩ | ⟨x, m, rest, -, hm, hitems, hw⟩
  · rw [hw] at hitem
    obtain ⟨l, f, hf, rfl⟩ := mem_snapshotItems.mp hitem
    exact ⟨l, f, hf, f, rfl, rfl, rfl⟩
  · rw [hw] at hitem
    rcases List.mem_append.mp hitem with hpre | hcut
    · have hmem : item ∈ s.snapshotItems := by
        rw [snapshotItems_eq, hitems]
        exact List.mem_append_left _ hpre
      obtain ⟨l, f, hf, rfl⟩ := mem_snapshotItems.mp hmem
      exact ⟨l, f, hf, f, rfl, rfl, rfl⟩
    · have hx : x ∈ s.snapshotItems := by
        rw [snapshotItems_eq, hitems]
        exact List.mem_append_right _ List.mem_cons_self
      obtain ⟨l, f, hf, rfl⟩ := mem_snapshotItems.mp hx
      have hy : (EditItem.add ((l.val : ℤ), f)).cutRead m = some item := by simpa using hcut
      obtain ⟨r, -, rfl⟩ := Option.map_eq_some_iff.mp hy
      exact ⟨l, f, hf, _, rfl, rfl, rfl⟩

/-- Recovery from the cut snapshot has the files of the lines that are read. -/
theorem Snapshotting.recovered (n : ℕ) :
    ∃ vm, (VersionManager.init s.vmgr.db_dir (s.snapshotCut n)).1 = vm ∧
      Recovered s.vmgr.db_dir vm.current vm ∧ vm.current.Ordered ∧
      ∀ (l : Fin kMaxLevel) f, f ∈ vm.current.level_files l ↔
        EditItem.add (l.val, f) ∈ shownItems s.snapshotItems n := by
  set path := joinPath s.vmgr.db_dir manifestFile with hpath
  set e : VersionEdit := ⟨s.vmgr.current.allFiles, []⟩ with he
  have hitems : e.items = s.snapshotItems := rfl
  have hfiles : s.snapshotCut n = cutFiles s.vmgr.db_dir (Function.update s.files path none)
      (editText e s.vmgr.next_file_number) n := by
    have htext : (s.vmgr.writeSnapshotManifest s.files).2 path =
        some (editText e s.vmgr.next_file_number) := by
      rw [VersionManager.writeSnapshotManifest, h.manifest]
      exact Function.update_self ..
    unfold Store.snapshotCut cutFiles
    rw [h.manifest, htext, Function.update_self, Function.update_idem]
    rfl
  have hnames : NamesManifest s.vmgr.db_dir (Function.update s.files path none) :=
    namesManifest_update h.current_file none
  have hlogged : Logged s.vmgr.db_dir (recoveryStart s.vmgr.db_dir).current
      (Function.update s.files path none) := by
    refine ⟨hnames, ?_⟩
    rw [Function.update_self]
    rfl
  have hfirst := delsFirst_shown e n
  have hnew : (editOf (shownItems e.items n)).NewIn (recoveryStart s.vmgr.db_dir).current :=
    newIn_of_fresh (h.numbers_nodup.sublist (addedNumbers_shown e n)) fun _ _ _ _ hf =>
      absurd hf List.not_mem_nil
  obtain ⟨hcurrent, hdb⟩ := recover_cut (m := s.vmgr.next_file_number) hlogged Version.ordered_empty
    (hitems ▸ h.readable) hfirst hnew
  rw [← hfiles] at hcurrent
  have hcutnames : NamesManifest s.vmgr.db_dir (s.snapshotCut n) := hfiles ▸ namesManifest_update hnames _
  obtain ⟨hbelow, hdir, hname⟩ := init_named hcutnames
  refine ⟨_, rfl, ⟨rfl, hbelow, hdir, hname, ?_⟩, ?_, fun l f => ?_⟩
  · -- no line of a snapshot deletes
    obtain ⟨stray, hharmless, hparse⟩ := parseManifest_shown s.snapshotItems h.readable
      s.vmgr.next_file_number n
    have htext : s.snapshotCut n path = some ((editText e s.vmgr.next_file_number).take n) := by
      rw [hfiles, cutFiles, Function.update_self, Function.update_self]
      rfl
    rw [init_eq hcutnames, htext]
    dsimp only
    rw [editText_eq, hitems, hparse]
    refine replayLines_no_del (fun level number hmem => ?_) rfl
    rcases List.mem_append.mp hmem with hmem | hmem
    · obtain ⟨item, hitem, heq⟩ := List.mem_map.mp hmem
      obtain ⟨l, f, -, g, rfl, -⟩ := shown_adds hitem
      contradiction
    · exact hharmless _ hmem
  · rw [hcurrent]
    exact ordered_applyUnlocked Version.ordered_empty hnew
  · rw [hcurrent, mem_applyUnlocked, VersionEdit.mem_addedAt]
    simp only [mem_editOf_added, levelIndex_eq_iff, hitems]
    constructor
    · rintro (⟨hf, -⟩ | ⟨level, rfl, hmem⟩)
      · contradiction
      · exact hmem
    · exact fun hmem => Or.inr ⟨_, rfl, hmem⟩

omit h in
theorem mem_of_openTable {db_dir : Bytes} {dir : SstDir} {name : Bytes} {t : SSTable}
    (ht : openTable db_dir dir (joinPath db_dir name) = some t) : (name, some t) ∈ dir := by
  obtain ⟨e, he, hsome⟩ := Option.bind_eq_some_iff.mp ht
  have hname : e.1 = name := joinPath_inj (by simpa using List.find?_some he)
  rw [← hname, ← hsome]
  exact List.mem_of_find?_eq_some he

theorem Snapshotting.numberedTable_iff {e : Bytes × Option SSTable} (he : e ∈ s.dir) {n : ℕ} {t : SSTable} :
    numberedTable e = some (n, t) ↔ e = (sstName n, some t) := by
  constructor
  · intro hnumbered
    unfold numberedTable at hnumbered
    split_ifs at hnumbered with hsst
    obtain ⟨m, o, rfl, ho⟩ := h.tables e he hsst
    obtain ⟨t', rfl, hmap⟩ := Option.bind_eq_some_iff.mp hnumbered
    rw [readUnsigned_stem (ho t' rfl).1] at hmap
    obtain ⟨rfl, rfl⟩ := Prod.mk.inj (Option.some.inj hmap)
    rfl
  · rintro rfl
    obtain ⟨m, o, heq, ho⟩ := h.tables _ he (isSst_sstName n)
    obtain ⟨hname, rfl⟩ := Prod.mk.inj heq
    have hn : n < 2 ^ 64 := sstName_injective hname ▸ (ho t rfl).1
    rw [numberedTable, if_pos (isSst_sstName n), Option.bind_some, readUnsigned_stem hn]
    rfl

theorem Snapshotting.mem_numbered {n : ℕ} {t : SSTable} :
    (n, t) ∈ s.dir.filterMap numberedTable ↔ (sstName n, some t) ∈ s.dir := by
  rw [List.mem_filterMap]
  constructor
  · rintro ⟨e, he, hnumbered⟩
    exact (h.numberedTable_iff he).mp hnumbered ▸ he
  · exact fun he => ⟨_, he, (h.numberedTable_iff he).mpr rfl⟩

theorem Snapshotting.numbered_nodup : ((s.dir.filterMap numberedTable).map Prod.fst).Nodup := by
  refine List.pairwise_map.mpr (List.pairwise_filterMap.mpr ?_)
  refine (List.pairwise_map.mp h.names).imp_of_mem fun {e e'} he he' hne x hx y hy heq => hne ?_
  obtain rfl := (h.numberedTable_iff he).mp hx
  obtain rfl := (h.numberedTable_iff he').mp hy
  exact congrArg sstName heq

omit h in
def Store.forgotten (s : Store) (n : ℕ) : Store :=
  { s with
    vmgr := { s.vmgr with current := .empty }
    files := s.snapshotCut n }

theorem Snapshotting.rescanned {n : ℕ} (hnone : shownItems s.snapshotItems n = []) :
    Rescanned (s.forgotten n) (s.afterSnapshotCut n) := by
  obtain ⟨vm, hvm, hrec, hord, hmem⟩ := h.recovered n
  have hempty : vm.current = .empty := hord.ext Version.ordered_empty fun l f => by
    rw [hmem, hnone]
    exact iff_of_false List.not_mem_nil List.not_mem_nil
  refine MiniTsdb.rescanned (s := s.forgotten n) h.names (fun e he => ?_) ?_ (fun _ => rfl)
  · obtain ⟨hdir, hsst⟩ := mem_scanOrder.mp he
    obtain ⟨m, o, rfl, ho⟩ := h.tables e hdir hsst
    refine ⟨m, o, rfl, fun hsome => ?_⟩
    obtain ⟨t, rfl⟩ := Option.isSome_iff_exists.mp hsome
    exact (ho t rfl).1
  · change Recovered s.vmgr.db_dir .empty (VersionManager.init s.vmgr.db_dir (s.snapshotCut n)).1
    rw [hvm, ← hempty]
    exact hrec

theorem Snapshotting.newest {n : ℕ} (hr : Rescanned (s.forgotten n) (s.afterSnapshotCut n)) (key : TsKey) :
    getFromSSTables ((s.afterSnapshotCut n).store s.target_file_size).captureLevels key =
      newestByNumber s.dir key := by
  have hnames : ((s.forgotten n).dir.map Prod.fst).Nodup := h.names
  have hasc : ∀ m t, (sstName m, some t) ∈ (s.forgotten n).dir → Ascending Prod.fst t.entries := by
    intro m t hmem
    obtain ⟨m', o, heq, ho⟩ := h.tables _ hmem (isSst_sstName m)
    exact (ho t (Prod.mk.inj heq).2.symm).2
  set opened := (s.afterSnapshotCut n).store s.target_file_size with hopened
  set files := (s.afterSnapshotCut n).vm.current.level_files 0 with hfiles
  -- the files in L0 are the tables in the order of their numbers
  have hsorted : files.map (fun f => (f.file_number, opened.tableAt f)) =
      sortBy Prod.fst (s.dir.filterMap numberedTable) := by
    refine Ascending.ext (f := Prod.fst) ?_ (ascending_sortBy h.numbered_nodup) fun x => ?_
    · exact List.pairwise_map.mpr (hr.ordered 0)
    · obtain ⟨m, t⟩ := x
      rw [mem_sortBy, h.mem_numbered, List.mem_map]
      constructor
      · rintro ⟨f, hf, heq⟩
        obtain ⟨m', t', hmem, rfl⟩ := (hr.zero f).mp hf
        rw [hr.tableAt hnames _ hmem] at heq
        obtain ⟨rfl, rfl⟩ := Prod.mk.inj heq
        exact hmem
      · intro hmem
        refine ⟨_, (hr.zero _).mpr ⟨m, t, hmem, rfl⟩, ?_⟩
        rw [hr.tableAt hnames _ hmem]
        rfl
  have hlook := getFromSSTables_eq (s := opened)
    (fun l f hf => (hr.live hnames s.target_file_size hasc hf).2) key
  rw [hlook, hr.met_eq, Store.versionsIn, versionsOf, List.head?_filterMap, newestByNumber, ← hsorted,
    ← List.map_reverse, ← List.map_reverse, List.findSome?_map, List.findSome?_map, ← hopened, ← hfiles]
  rfl

/-- After a scan every table is there; only their order can be wrong. -/
theorem Snapshotting.scan_iff {n : ℕ} (hnone : shownItems s.snapshotItems n = []) :
    SnapshotAtomic s n ↔ ∀ key, newestByNumber s.dir key = getFromSSTables s.captureLevels key := by
  have hr := h.rescanned hnone
  unfold SnapshotAtomic
  simp only [h.newest hr]
  refine and_iff_right fun l f hf => ?_
  have hlive := h.live l f hf
  have hpath : f.file_name = joinPath s.vmgr.db_dir (sstName f.file_number) := hlive.path
  have hdb : (s.afterSnapshotCut n).vm.db_dir = s.vmgr.db_dir := hr.db_dir
  have hdir : (s.afterSnapshotCut n).dir = s.dir := hr.dir
  refine ⟨?_, 0, _, (hr.zero _).mpr ⟨f.file_number, s.tableAt f, ?_, rfl⟩, hpath.symm⟩
  · rw [hdb, hdir]
    exact hlive.disk
  · exact mem_of_openTable (hpath ▸ hlive.disk)

theorem Snapshotting.opened {n : ℕ} (hsome : shownItems s.snapshotItems n ≠ []) :
    ∃ v : Version, v.Ordered ∧ (∀ (l : Fin kMaxLevel) f, f ∈ v.level_files l ↔
        EditItem.add (l.val, f) ∈ shownItems s.snapshotItems n) ∧
      (s.afterSnapshotCut n).vm.current = v ∧ (s.afterSnapshotCut n).vm.db_dir = s.vmgr.db_dir ∧
      (s.afterSnapshotCut n).dir =
        (s.dir.filter fun e => !(isSst e.1 && !(v.liveFiles.contains e.1))) ∧
      ∀ l, ((s.afterSnapshotCut n).store s.target_file_size).captureLevels l =
        (v.level_files l).map fun g => ⟨g, ⟨g.file_name, s.tableAt g⟩⟩ := by
  obtain ⟨vm, hvm, hrec, hord, hmem⟩ := h.recovered n
  set st : Startup := ⟨(VersionManager.init s.vmgr.db_dir (s.snapshotCut n)).1, [], s.snapshotCut n, s.dir⟩
    with hst
  have hstvm : st.vm = vm := hvm
  have hne : ¬ st.vm.current.IsEmpty := by
    obtain ⟨item, hitem⟩ := List.exists_mem_of_ne_nil _ hsome
    obtain ⟨l, f, hf, g, rfl, -⟩ := shown_adds hitem
    intro hempty
    have hg := (hmem l g).mpr hitem
    rw [← hstvm, hempty l] at hg
    contradiction
  have ho : Opened st (s.afterSnapshotCut n) := opened_version (hstvm ▸ hrec.below) rfl hne
  refine ⟨vm.current, hord, hmem, by rw [ho.vm, hstvm], ?_, ?_, fun l => ?_⟩
  · rw [ho.vm, hstvm, hrec.dir_eq]
  · rw [ho.dir, hstvm]
  · rw [Store.captureLevels, ← List.filterMap_eq_map]
    change ((s.afterSnapshotCut n).vm.current.level_files l).filterMap _ = _
    rw [ho.vm, hstvm]
    apply List.filterMap_congr
    intro g hg
    obtain ⟨l', f, hf, g', heq, -, hname⟩ := shown_adds ((hmem l g).mp hg)
    obtain rfl : g = g' := (Prod.mk.inj (EditItem.add.inj heq)).2
    have htable : s.tableAt g = s.tableAt f := by rw [Store.tableAt, Store.tableAt, hname]
    have hopen : openTable st.vm.db_dir st.dir g.file_name = some (s.tableAt g) := by
      rw [htable, hname, hstvm, hrec.dir_eq]
      exact (h.live l' f hf).disk
    change (findReader (s.afterSnapshotCut n).sst_readers g.file_name).map _ = _
    rw [ho.find l g (hstvm ▸ hg) _ hopen]
    rfl

/-- No table is lost exactly if every file is read. -/
theorem Snapshotting.kept_iff {n : ℕ} (hsome : shownItems s.snapshotItems n ≠ []) :
    (∀ l, ∀ f ∈ s.vmgr.current.level_files l,
      openTable (s.afterSnapshotCut n).vm.db_dir (s.afterSnapshotCut n).dir f.file_name =
          some (s.tableAt f) ∧
        ∃ l', ∃ g ∈ (s.afterSnapshotCut n).vm.current.level_files l', g.file_name = f.file_name) ↔
    ∀ l, ∀ f ∈ s.vmgr.current.level_files l,
      f.file_number ∈ (editOf (shownItems s.snapshotItems n)).addedNumbers := by
  obtain ⟨v, hord, hmem, hcurrent, hdb, hdir, -⟩ := h.opened hsome
  have hlisted : ∀ l, ∀ f ∈ s.vmgr.current.level_files l,
      (∃ l', ∃ g ∈ v.level_files l', g.file_name = f.file_name) ↔
        f.file_number ∈ (editOf (shownItems s.snapshotItems n)).addedNumbers := by
    intro l f hf
    rw [VersionEdit.addedNumbers, List.mem_map]
    constructor
    · rintro ⟨l', g, hg, hname⟩
      have hshown := (hmem l' g).mp hg
      obtain ⟨l₁, f', hf', g', heq, hnumber, hname'⟩ := shown_adds hshown
      obtain rfl : g = g' := (Prod.mk.inj (EditItem.add.inj heq)).2
      refine ⟨_, mem_editOf_added.mpr hshown, hnumber.trans ?_⟩
      have hpaths := hname'.symm.trans hname
      rw [(h.live l₁ f' hf').path, (h.live l f hf).path] at hpaths
      exact newFileName_injective _ hpaths
    · rintro ⟨a, ha, hnumber⟩
      have hshown := mem_editOf_added.mp ha
      obtain ⟨l', f', hf', g, heq, hnumber', hname⟩ := shown_adds hshown
      obtain rfl := EditItem.add.inj heq
      refine ⟨l', g, (hmem l' g).mpr hshown, ?_⟩
      have hsame : f'.file_number = f.file_number := hnumber'.symm.trans hnumber
      rw [hname, (h.live l' f' hf').path, (h.live l f hf).path, hsame]
  rw [hcurrent, hdb, hdir]
  refine forall_congr' fun l => forall_congr' fun f => forall_congr' fun hf => ?_
  rw [← hlisted l f hf]
  refine and_iff_right_of_imp ?_
  rintro ⟨l', g, hg, hname⟩
  rw [← (h.live l f hf).disk]
  refine openTable_filter fun e _ he => ?_
  have hlive := mem_liveFiles hg
  have hpath : f.file_name = joinPath s.vmgr.db_dir (sstName f.file_number) := (h.live l f hf).path
  rw [hpath] at he
  rw [hname, hpath, baseName_newFileName, ← joinPath_inj he] at hlive
  simp [hlive]

theorem Snapshotting.items_numbers : (s.snapshotItems.filterMap EditItem.addedNumber).Nodup := by
  have hnodup := h.numbers_nodup
  rw [← editOf_items_self ⟨s.vmgr.current.allFiles, []⟩, addedNumbers_editOf] at hnodup
  exact hnodup

/-- Every file is read where the cut leaves a number in the last line. -/
theorem Snapshotting.all_read_iff {n m : ℕ} {x : EditItem} {rest : List EditItem}
    (hm : m + 1 < x.line.length) (hitems : s.snapshotItems = (shown s.snapshotItems n).1 ++ x :: rest)
    (hw : shownItems s.snapshotItems n = (shown s.snapshotItems n).1 ++ (x.cutRead m).toList) :
    (∀ l, ∀ f ∈ s.vmgr.current.level_files l,
      f.file_number ∈ (editOf (shownItems s.snapshotItems n)).addedNumbers) ↔
    rest = [] ∧ ∃ y, x.cutRead m = some y := by
  set whole := (shown s.snapshotItems n).1 with hwhole
  have hnodup := h.items_numbers
  rw [hitems, List.filterMap_append] at hnodup
  obtain ⟨-, hlast, hdisj⟩ := List.nodup_append.mp hnodup
  have hfile : ∀ item ∈ x :: rest, ∃ l, ∃ f ∈ s.vmgr.current.level_files l,
      item.addedNumber = some f.file_number := by
    intro item hitem
    obtain ⟨l, f, hf, rfl⟩ := mem_snapshotItems.mp (hitems ▸ List.mem_append_right whole hitem)
    exact ⟨l, f, hf, rfl⟩
  rw [hw, addedNumbers_editOf, List.filterMap_append]
  constructor
  · intro hall
    have hcut : ∀ item ∈ x :: rest, ∃ y, x.cutRead m = some y ∧ item.addedNumber = x.addedNumber := by
      intro item hitem
      obtain ⟨l, f, hf, hnumber⟩ := hfile item hitem
      rcases List.mem_append.mp (hall l f hf) with hold | hread
      · exact absurd rfl (hdisj _ hold _ (List.mem_filterMap.mpr ⟨item, hitem, hnumber⟩))
      · obtain ⟨y, hy, hynumber⟩ := List.mem_filterMap.mp hread
        have hy' : x.cutRead m = some y := by simpa using hy
        exact ⟨y, hy', by rw [hnumber, ← hynumber, (cutRead_kind hm hy').2]⟩
    obtain ⟨y, hy, -⟩ := hcut x List.mem_cons_self
    refine ⟨?_, y, hy⟩
    cases rest with
    | nil => rfl
    | cons z rest =>
      obtain ⟨-, -, hsame⟩ := hcut z (List.mem_cons_of_mem x List.mem_cons_self)
      obtain ⟨l, f, -, hnumber⟩ := hfile x List.mem_cons_self
      rw [List.filterMap_cons, List.filterMap_cons, hsame, hnumber] at hlast
      simp at hlast
  · rintro ⟨rfl, y, hy⟩ l f hf
    have hnumber : f.file_number ∈ s.snapshotItems.filterMap EditItem.addedNumber :=
      List.mem_filterMap.mpr ⟨_, mem_snapshotItems.mpr ⟨l, f, hf, rfl⟩, rfl⟩
    have hkind := (cutRead_kind hm hy).2
    rw [hitems, List.filterMap_append] at hnumber
    rw [hy, Option.toList_some, List.filterMap_cons, hkind]
    exact hnumber

omit h in
/-- A file under another bound answers for no key above it, and otherwise as before. -/
theorem getEntry_bound {f : FileMeta} (hlive : Live s f) (bound key : TsKey) :
    ReaderRef.getEntry ⟨{ f with largest := bound }, ⟨f.file_name, s.tableAt f⟩⟩ key =
      if tsKeyComparator key bound = .gt then none
      else ReaderRef.getEntry ⟨f, ⟨f.file_name, s.tableAt f⟩⟩ key := by
  have hbefore := getEntry_live hlive key
  unfold ReaderRef.getEntry at hbefore ⊢
  dsimp only at hbefore ⊢
  by_cases habove : tsKeyComparator key bound = .gt
  · rw [if_pos (Or.inr habove), if_pos habove]
  · rw [if_neg habove, hbefore]
    by_cases hbelow : tsKeyComparator key f.smallest = .lt
    · rw [if_pos (Or.inl hbelow)] at hbefore
      rw [if_pos (Or.inl hbelow), hbefore]
    · rw [if_neg (not_or.mpr ⟨hbelow, habove⟩)]

omit h in
/-- One file in the place of the file of its number. -/
def replaceFile (g f : FileMeta) : FileMeta := if f.file_number = g.file_number then g else f

/-- The levels that are read when only a bound is cut. -/
theorem Snapshotting.level_replaced {n : ℕ} {la : Fin kMaxLevel} {fa g : FileMeta} {whole : List EditItem}
    (hfa : fa ∈ s.vmgr.current.level_files la) (hg : g.file_number = fa.file_number)
    (hitems : s.snapshotItems = whole ++ [.add (la.val, fa)])
    (hw : shownItems s.snapshotItems n = whole ++ [.add (la.val, g)]) {v : Version} (hord : v.Ordered)
    (hmem : ∀ (l : Fin kMaxLevel) f, f ∈ v.level_files l ↔
      EditItem.add (l.val, f) ∈ shownItems s.snapshotItems n) (l : Fin kMaxLevel) :
    v.level_files l = (s.vmgr.current.level_files l).map (replaceFile g) := by
  have hadd : ∀ {l l' : Fin kMaxLevel} {f f' : FileMeta},
      EditItem.add ((l.val : ℤ), f) = .add ((l'.val : ℤ), f') → l = l' ∧ f = f' := by
    intro l l' f f' heq
    obtain ⟨hl, hf⟩ := Prod.mk.inj (EditItem.add.inj heq)
    exact ⟨Fin.ext (by exact_mod_cast hl), hf⟩
  -- a line that is whole has another number
  have hwhole : ∀ f, EditItem.add ((l.val : ℤ), f) ∈ whole →
      f ∈ s.vmgr.current.level_files l ∧ f.file_number ≠ g.file_number := by
    intro f hold
    obtain ⟨l', f', hf', heq⟩ := mem_snapshotItems.mp
      (show EditItem.add ((l.val : ℤ), f) ∈ s.snapshotItems by
        rw [hitems]
        exact List.mem_append_left _ hold)
    obtain ⟨rfl, rfl⟩ := hadd heq
    refine ⟨hf', fun hnumber => ?_⟩
    have hnodup := h.items_numbers
    rw [hitems, List.filterMap_append] at hnodup
    exact (List.nodup_append.mp hnodup).2.2 _ (List.mem_filterMap.mpr ⟨_, hold, rfl⟩) _
      (List.mem_filterMap.mpr ⟨_, List.mem_singleton_self _, rfl⟩) (hnumber.trans hg)
  have hnumber : ∀ f, (replaceFile g f).file_number = f.file_number := by
    intro f
    unfold replaceFile
    split_ifs with heq
    · exact heq.symm
    · rfl
  refine Ascending.ext (hord l) ?_ fun f => ?_
  · refine List.pairwise_map.mpr ((h.ordered l).imp fun {f f'} hlt => ?_)
    rw [hnumber, hnumber]
    exact hlt
  · rw [hmem, hw, List.mem_append, List.mem_map]
    constructor
    · rintro (hold | hlast)
      · obtain ⟨hf, hne⟩ := hwhole f hold
        exact ⟨f, hf, if_neg hne⟩
      · obtain ⟨rfl, rfl⟩ := hadd (List.mem_singleton.mp hlast)
        exact ⟨fa, hfa, if_pos hg.symm⟩
    · rintro ⟨f', hf', rfl⟩
      unfold replaceFile
      split_ifs with hsame
      · obtain rfl := h.one_level l f' hf' la fa hfa (hsame.trans hg)
        exact Or.inr (List.mem_singleton_self _)
      · have hitem : EditItem.add ((l.val : ℤ), f') ∈ s.snapshotItems :=
          mem_snapshotItems.mpr ⟨l, f', hf', rfl⟩
        rw [hitems] at hitem
        refine (List.mem_append.mp hitem).imp_right fun hlast => ?_
        obtain ⟨-, rfl⟩ := hadd (List.mem_singleton.mp hlast)
        exact absurd hg.symm hsame

/-- Where a bound is cut to that of `b`, the file answers for no key above it. -/
theorem Snapshotting.get_cutBound {n m : ℕ} {a b : ℤ × FileMeta} {whole : List EditItem}
    (hitems : s.snapshotItems = whole ++ [.add a])
    (hw : shownItems s.snapshotItems n = whole ++ [.add b])
    (hread : (EditItem.add a).cutRead m = some (.add b)) (key : TsKey) :
    getFromSSTables ((s.afterSnapshotCut n).store s.target_file_size).captureLevels key =
      if tsKeyComparator key b.2.largest = .gt then s.getWithout a.2.file_number key
      else getFromSSTables s.captureLevels key := by
  obtain ⟨v, hord, hmem, -, -, -, hcapture⟩ := h.opened (n := n) (by rw [hw]; simp)
  obtain ⟨la, fa, hfa, heq⟩ := mem_snapshotItems.mp
    (show EditItem.add a ∈ s.snapshotItems by rw [hitems]; simp)
  obtain rfl := EditItem.add.inj heq
  obtain ⟨r, -, hb⟩ := Option.map_eq_some_iff.mp hread
  obtain rfl := EditItem.add.inj hb
  set bound : TsKey := ⟨fa.largest.measurement, Int64.ofInt r.1⟩
  set g : FileMeta := { fa with largest := bound } with hg
  have hlevel := h.level_replaced (g := g) hfa rfl hitems hw hord hmem
  set ref : FileMeta → ReaderRef := fun f => ⟨f, ⟨f.file_name, s.tableAt f⟩⟩ with href
  have hbefore : ∀ l, s.captureLevels l = (s.vmgr.current.level_files l).map ref := fun l =>
    captureLevels_live (h.live l)
  have hafter : ∀ l, ((s.afterSnapshotCut n).store s.target_file_size).captureLevels l =
      (s.vmgr.current.level_files l).map fun f => ref (replaceFile g f) := by
    intro l
    rw [hcapture, hlevel, List.map_map]
    rfl
  have hanswer : ∀ l, ∀ f ∈ s.vmgr.current.level_files l, (ref (replaceFile g f)).getEntry key =
      if tsKeyComparator key bound = .gt ∧ f.file_number = fa.file_number then none
      else (ref f).getEntry key := by
    intro l f hf
    unfold replaceFile
    by_cases hsame : f.file_number = g.file_number
    · obtain rfl := h.one_level l f hf la fa hfa hsame
      obtain rfl := (h.ordered l).inj hf hfa hsame
      rw [if_pos rfl, href, hg]
      refine (getEntry_bound (h.live l f hfa) bound key).trans ?_
      simp
    · rw [if_neg hsame, if_neg fun hboth => hsame hboth.2]
  by_cases habove : tsKeyComparator key bound = .gt
  · rw [if_pos habove, Store.getWithout, getFromSSTables, getFromSSTables]
    refine congrArg (fun F => List.findSome? F (List.finRange kMaxLevel)) (funext fun l => ?_)
    rw [hafter, hbefore, ← List.head?_filterMap, ← List.head?_filterMap, List.filter_map,
      ← List.map_reverse, ← List.map_reverse, List.filterMap_map, List.filterMap_map,
      ← List.filter_reverse, List.filterMap_filter]
    congr 1
    apply List.filterMap_congr
    intro f hf
    refine (hanswer l f (List.mem_reverse.mp hf)).trans ?_
    by_cases hsame : f.file_number = fa.file_number
    · simp [habove, hsame, href]
    · simp [hsame, href]
  · rw [if_neg habove, getFromSSTables, getFromSSTables]
    refine congrArg (fun F => List.findSome? F (List.finRange kMaxLevel)) (funext fun l => ?_)
    rw [hafter, hbefore, ← List.head?_filterMap, ← List.head?_filterMap, ← List.map_reverse,
      ← List.map_reverse, List.filterMap_map, List.filterMap_map]
    congr 1
    apply List.filterMap_congr
    intro f hf
    refine (hanswer l f (List.mem_reverse.mp hf)).trans ?_
    rw [if_neg fun hboth => habove hboth.1]
    rfl

theorem Snapshotting.read_iff {n : ℕ} (hsome : shownItems s.snapshotItems n ≠ []) :
    SnapshotAtomic s n ↔ (shown s.snapshotItems n).2 = none ∨ LastBoundCut s n := by
  have hkept := h.kept_iff hsome
  unfold SnapshotAtomic
  dsimp only
  rw [hkept]
  have hcases := shownItems_cases ⟨s.vmgr.current.allFiles, []⟩ n
  rw [← snapshotItems_eq] at hcases
  rcases hcases with ⟨hnone, hw⟩ | ⟨x, m, rest, hcut, hm, hitems, hw⟩
  · -- every line is whole
    refine iff_of_true ⟨fun l f hf => ?_, fun key => ?_⟩ (Or.inl hnone)
    · rw [hw, addedNumbers_editOf]
      exact List.mem_filterMap.mpr ⟨_, mem_snapshotItems.mpr ⟨l, f, hf, rfl⟩, rfl⟩
    · obtain ⟨v, hord, hmem, -, -, -, hcapture⟩ := h.opened hsome
      have hsame : v = s.vmgr.current := hord.ext h.ordered fun l f => by
        rw [hmem, hw, mem_snapshotItems]
        constructor
        · rintro ⟨l', f', hf', heq⟩
          obtain ⟨hl, rfl⟩ := Prod.mk.inj (EditItem.add.inj heq)
          obtain rfl : l = l' := Fin.ext (by exact_mod_cast hl)
          exact hf'
        · exact fun hf => ⟨l, f, hf, rfl⟩
      have hlevels : ((s.afterSnapshotCut n).store s.target_file_size).captureLevels = s.captureLevels := by
        funext l
        rw [hcapture, hsame, captureLevels_live (h.live l)]
      rw [hlevels]
  · rw [h.all_read_iff hm hitems hw, hcut]
    constructor
    · rintro ⟨⟨rfl, y, hy⟩, hget⟩
      obtain ⟨l, f, hf, rfl⟩ := mem_snapshotItems.mp (hitems ▸ List.mem_append_right _ List.mem_cons_self)
      obtain ⟨r, -, rfl⟩ := Option.map_eq_some_iff.mp hy
      refine Or.inr ⟨_, m, _, hitems, hcut, hy, fun key habove => ?_⟩
      rw [hy, Option.toList_some] at hw
      rw [← hget key, h.get_cutBound hitems hw hy, if_pos habove]
    · rintro (hno | ⟨a, m', b, hlast, hcut', hread, habove⟩)
      · contradiction
      · obtain ⟨rfl, rfl⟩ := Prod.mk.inj (Option.some.inj (hcut.symm.trans hcut'))
        have hrest : rest = [] := by
          have htail := List.append_cancel_left (hitems.symm.trans hlast)
          exact (List.cons.inj htail).2
        refine ⟨⟨hrest, _, hread⟩, fun key => ?_⟩
        rw [hread, Option.toList_some] at hw
        rw [h.get_cutBound hlast hw hread]
        split_ifs with hgt
        · exact habove key hgt
        · rfl

/-- Opening the directory after a crash inside a snapshot loses nothing, exactly for the safe
cuts. -/
theorem snapshot_atomic_iff (n : ℕ) : SnapshotAtomic s n ↔ SafeSnapshotCut s n := by
  unfold SafeSnapshotCut
  by_cases hnone : shownItems s.snapshotItems n = []
  · rw [h.scan_iff hnone]
    exact ⟨fun hall => ⟨fun _ => hall, fun hsome => absurd hnone hsome⟩, fun hsafe => hsafe.1 hnone⟩
  · rw [h.read_iff hnone]
    exact ⟨fun hread => ⟨fun hempty => absurd hempty hnone, fun _ => hread⟩, fun hsafe => hsafe.2 hnone⟩

end

def twoFlushed : Store :=
  { vmgr := flushed.1
    sst_readers := [⟨joinPath (ascii "db") (sstName 1), oneEntryTable 5⟩,
      ⟨joinPath (ascii "db") (sstName 2), oneEntryTable 6⟩]
    target_file_size := 0
    compaction_in_progress := false
    compacting_files := []
    pending_delete := []
    files := flushed.2
    dir := [(sstName 1, some (oneEntryTable 5)), (sstName 2, some (oneEntryTable 6))]
    built := none
    compaction := none
    flushed := [] }

theorem snapshotting_twoFlushed : Snapshotting twoFlushed := by
  have hlevels : ∀ l, ∀ f ∈ twoFlushed.vmgr.current.level_files l,
      l = 0 ∧ (f = oneEntryFile 1 5 ∨ f = oneEntryFile 2 6) := by decide +kernel
  have hcommitting := committing_compactTwo
  have hone : ∀ n ts, Ascending Prod.fst (oneEntryTable ts).entries ∧
      IsToken (oneEntryFile n ts).smallest.measurement ∧ IsToken (oneEntryFile n ts).largest.measurement := by
    intro n ts
    have htoken : IsToken (ascii "cpu") := by decide +kernel
    have hsmall : (oneEntryFile n ts).smallest.measurement = ascii "cpu" := rfl
    have hlarge : (oneEntryFile n ts).largest.measurement = ascii "cpu" := rfl
    rw [hsmall, hlarge]
    exact ⟨List.pairwise_singleton _ _, htoken, htoken⟩
  refine ⟨by decide +kernel, hcommitting.logged.current_file, hcommitting.ordered, ?_, ?_, ?_, ?_, ?_, ?_⟩
  · intro l f hf l' f' hf' _
    rw [(hlevels l f hf).1, (hlevels l' f' hf').1]
  · intro l f hf
    rcases (hlevels l f hf).2 with rfl | rfl
    · exact ⟨by decide +kernel, by decide +kernel, by decide +kernel, by decide +kernel,
        (hone 1 5).1⟩
    · exact ⟨by decide +kernel, by decide +kernel, by decide +kernel, by decide +kernel,
        (hone 2 6).1⟩
  · intro l f hf
    rcases (hlevels l f hf).2 with rfl | rfl <;> decide
  · intro l f hf
    rcases (hlevels l f hf).2 with rfl | rfl
    · exact (hone 1 5).2
    · exact (hone 2 6).2
  · decide +kernel
  · intro e he _
    have hcases : e = (sstName 1, some (oneEntryTable 5)) ∨ e = (sstName 2, some (oneEntryTable 6)) := by
      simpa [twoFlushed] using he
    rcases hcases with rfl | rfl
    · exact ⟨1, _, rfl, fun t ht => ⟨by norm_num, Option.some.inj ht ▸ (hone 1 5).1⟩⟩
    · exact ⟨2, _, rfl, fun t ht => ⟨by norm_num, Option.some.inj ht ▸ (hone 2 6).1⟩⟩

theorem snapshot_atomic_iff_twoFlushed : Snapshotting twoFlushed ∧
    (SnapshotAtomic twoFlushed 3 ↔ SafeSnapshotCut twoFlushed 3) :=
  ⟨snapshotting_twoFlushed, snapshot_atomic_iff snapshotting_twoFlushed 3⟩

/-- Cut behind the first `add` line, the second file is collected. -/
theorem lost_after_first_add : Snapshotting twoFlushed ∧
    ¬ SnapshotAtomic twoFlushed (addLine (0, oneEntryFile 1 5)).length := by
  refine ⟨snapshotting_twoFlushed, fun hatomic => ?_⟩
  have hmem : oneEntryFile 2 6 ∈ twoFlushed.vmgr.current.level_files 0 := by decide +kernel
  have hopen := (hatomic.1 0 _ hmem).1
  revert hopen
  decide +kernel

end MiniTsdb
