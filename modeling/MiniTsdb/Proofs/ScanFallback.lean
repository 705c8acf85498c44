import MiniTsdb.Proofs.EngineDisk

/-! The directory scan that opens a database without its manifest. It puts every table into
L0 and takes file numbers for ages. -/

namespace MiniTsdb
open Lib

/-- The manifest is missing or empty; `CURRENT` names it or is missing too. -/
structure ManifestLost (db_dir : Bytes) (files : Files) : Prop where
  current_file : NamesManifest db_dir files
  manifest : ∀ text, files (joinPath db_dir manifestFile) = some text → text = []

theorem logged_of_lost {db_dir : Bytes} {files : Files} (h : ManifestLost db_dir files) :
    Logged db_dir .empty files := by
  refine ⟨h.current_file, ?_⟩
  cases hf : files (joinPath db_dir manifestFile) with
  | none => rfl
  | some text =>
    rw [h.manifest text hf]
    exact manifestHolds_nil db_dir

/-- The directory still has every table of the version, and otherwise any of those it had,
with numbers of their type. -/
structure LeavesVersion (s : Store) (dir : SstDir) : Prop where
  names : (dir.map Prod.fst).Nodup
  sub : ∀ x ∈ dir, x ∈ s.dir
  version : ∀ l, ∀ f ∈ s.vmgr.current.level_files l, ∀ x ∈ s.dir,
    joinPath s.vmgr.db_dir x.1 = f.file_name → x ∈ dir
  numbers : ∀ n t, (sstName n, some t) ∈ dir → n < 2 ^ 64

/-- Of the tables with the key, the one with the highest number has what a search of the
version finds. -/
def Store.AgedByNumber (s : Store) (dir : SstDir) (key : TsKey) : Prop :=
  ∀ n t entry, (sstName n, some t) ∈ dir → t.getEntry key = some entry →
    (∀ n' t', (sstName n', some t') ∈ dir → (t'.getEntry key).isSome → n' ≤ n) →
      getFromSSTables s.captureLevels key = some entry

section
variable {s : Store} {st : Startup} (hnames : (s.dir.map Prod.fst).Nodup) (hr : Rescanned s st)
  (hasc : ∀ n t, (sstName n, some t) ∈ s.dir → Ascending Prod.fst t.entries) (target : ℕ)
include hnames hr hasc

theorem Rescanned.getFromSSTables_eq (key : TsKey) :
    getFromSSTables (st.store target).captureLevels key =
      (st.vm.current.level_files 0).reverse.findSome? fun f =>
        ((st.store target).tableAt f).getEntry key := by
  rw [MiniTsdb.getFromSSTables_eq (fun l f hf => (hr.live hnames target hasc hf).2), hr.met_eq,
    Store.versionsIn, versionsOf, List.head?_filterMap, ← List.map_reverse, List.findSome?_map]
  rfl

/-- A search meets the table with the highest number. -/
theorem Rescanned.found_iff {key : TsKey} {entry : InternalEntry} :
    getFromSSTables (st.store target).captureLevels key = some entry ↔
      ∃ n t, (sstName n, some t) ∈ s.dir ∧ t.getEntry key = some entry ∧
        ∀ n' t', (sstName n', some t') ∈ s.dir → (t'.getEntry key).isSome → n' ≤ n := by
  rw [hr.getFromSSTables_eq hnames hasc, (hr.ordered 0).findSome?_reverse_eq_some_iff]
  refine ⟨?_, ?_⟩
  · rintro ⟨f, hf, hentry, hmax⟩
    obtain ⟨n, t, hmem, rfl⟩ := (hr.zero f).mp hf
    rw [hr.tableAt hnames target hmem] at hentry
    refine ⟨n, t, hmem, hentry, fun n' t' hmem' hsome => ?_⟩
    refine hmax _ ((hr.zero _).mpr ⟨n', t', hmem', rfl⟩) ?_
    rw [hr.tableAt hnames target hmem']
    exact hsome
  · rintro ⟨n, t, hmem, hentry, hmax⟩
    refine ⟨_, (hr.zero _).mpr ⟨n, t, hmem, rfl⟩, ?_, fun f hf hsome => ?_⟩
    · rw [hr.tableAt hnames target hmem]
      exact hentry
    · obtain ⟨n', t', hmem', rfl⟩ := (hr.zero f).mp hf
      rw [hr.tableAt hnames target hmem'] at hsome
      exact hmax n' t' hmem' hsome

theorem Rescanned.not_found {key : TsKey}
    (h : getFromSSTables (st.store target).captureLevels key = none) {n : ℕ} {t : SSTable}
    (hmem : (sstName n, some t) ∈ s.dir) : t.getEntry key = none := by
  rw [hr.getFromSSTables_eq hnames hasc, List.findSome?_eq_none_iff] at h
  have hnone := h _ (List.mem_reverse.mpr ((hr.zero _).mpr ⟨n, t, hmem, rfl⟩))
  rwa [hr.tableAt hnames target hmem] at hnone

end

theorem rescanned_lost {s : Store} {files : Files} {dir : SstDir} (hd : DiskInv s)
    (hlost : ManifestLost s.vmgr.db_dir files) (hleft : LeavesVersion s dir) :
    Rescanned { s with vmgr := { s.vmgr with current := .empty }, files := files, dir := dir }
      (startup s.vmgr.db_dir files dir) := by
  refine rescanned hleft.names (fun x hx => ?_) (recover_logged (logged_of_lost hlost)).1 fun l => rfl
  obtain ⟨hmem, -⟩ := mem_scanOrder.mp hx
  obtain ⟨n, o, rfl, -⟩ := hd.tables x (hleft.sub x hmem)
  refine ⟨n, o, rfl, fun hsome => ?_⟩
  obtain ⟨t, rfl⟩ := Option.isSome_iff_exists.mp hsome
  exact hleft.numbers n t hmem

/-- A table in which a search of the version finds a key is left. -/
theorem found_left {scanned : TsKey → Bool} {s : Store} {dir : SstDir} (h : StoreInv scanned s)
    (hd : DiskInv s) (hleft : LeavesVersion s dir) {key : TsKey} {entry : InternalEntry}
    (hfound : getFromSSTables s.captureLevels key = some entry) :
    ∃ n t, (sstName n, some t) ∈ dir ∧ (t.getEntry key).isSome := by
  rw [getFromSSTables_eq h.live] at hfound
  obtain ⟨l, -, hmem⟩ := List.mem_flatMap.mp (List.mem_of_mem_head? hfound)
  obtain ⟨f, hf, entry', hentry⟩ := exists_of_versionsIn_ne_nil (List.ne_nil_of_mem hmem)
  obtain ⟨x, hx, ht⟩ := Option.bind_eq_some_iff.mp (h.live l f hf).disk
  have hpath : joinPath s.vmgr.db_dir x.1 = f.file_name := by simpa using List.find?_some hx
  have hxdir := hleft.version l f hf x (List.mem_of_find?_eq_some hx) hpath
  obtain ⟨n, o, rfl, -⟩ := hd.tables x (hleft.sub x hxdir)
  obtain rfl : o = some (s.tableAt f) := ht
  exact ⟨n, _, hxdir, by rw [hentry]; rfl⟩

theorem diskInv_run {db_dir : Bytes} {limit : Int64} {target : ℕ} {e : Engine}
    (h : Reach Engine.step (fun _ a => a.isCrash = false) (Engine.start db_dir limit target) e) :
    EngineInv e ∧ DiskInv e.store := by
  refine h.invariant (I := fun e => EngineInv e ∧ DiskInv e.store)
    ⟨engineInv_start db_dir limit target, (engineDisk_start db_dir limit target).disk⟩ ?_
  rintro e a e' ⟨hinv, hdisk⟩ hok hs
  have hcrash : a ≠ .crash := by
    rintro rfl
    contradiction
  refine ⟨engineInv_step hinv hs hcrash, ?_⟩
  rcases store_step hs hcrash with hsame | ⟨b, hscans, -, hstep, -⟩
  · exact hsame ▸ hdisk
  · exact diskInv_step hdisk hinv.store hscans hstep

/-- In the version that is scanned together a search for a key finds what it found before,
exactly when numbers are ages among the tables with the key. -/
theorem scan_keeps_recency_iff (db_dir : Bytes) (limit : Int64) (target : ℕ) {e : Engine}
    (h : Reach Engine.step (fun _ a => a.isCrash = false) (Engine.start db_dir limit target) e)
    {files : Files} {dir : SstDir} (hlost : ManifestLost e.store.vmgr.db_dir files)
    (hleft : LeavesVersion e.store dir) (key : TsKey) :
    getFromSSTables ((startup e.store.vmgr.db_dir files dir).store target).captureLevels key =
        getFromSSTables e.store.captureLevels key ↔
      e.store.AgedByNumber dir key := by
  obtain ⟨hinv, hd⟩ := diskInv_run h
  have hr := rescanned_lost hd hlost hleft
  have hasc : ∀ n t, (sstName n, some t) ∈ dir → Ascending Prod.fst t.entries :=
    fun n t hmem => hd.ascending (hleft.sub _ hmem)
  refine ⟨fun hsame n t entry hmem hentry hmax => ?_, fun haged => ?_⟩
  · rw [← hsame]
    exact (hr.found_iff hleft.names hasc target).mpr ⟨n, t, hmem, hentry, hmax⟩
  · cases hscan : getFromSSTables ((startup e.store.vmgr.db_dir files dir).store target).captureLevels
        key with
    | none =>
      -- no table that is left has the key
      cases hfound : getFromSSTables e.store.captureLevels key with
      | none => rfl
      | some entry =>
        obtain ⟨n, t, hmem, hsome⟩ := found_left hinv.store hd hleft hfound
        rw [hr.not_found hleft.names hasc target hscan hmem] at hsome
        contradiction
    | some entry =>
      obtain ⟨n, t, hmem, hentry, hmax⟩ := (hr.found_iff hleft.names hasc target).mp hscan
      exact (haged n t entry hmem hentry hmax).symm

/-- Nothing but the manifest is lost. -/
theorem leavesVersion_self {s : Store} (hd : DiskInv s) {numbers : List ℕ}
    (hnames : s.dir.map Prod.fst = numbers.map sstName) (hsmall : ∀ n ∈ numbers, n < 2 ^ 64) :
    LeavesVersion s s.dir := by
  refine ⟨hd.names, fun _ hx => hx, fun _ _ _ _ hx _ => hx, fun n t hmem => ?_⟩
  have hname := List.mem_map_of_mem (f := Prod.fst) hmem
  rw [hnames] at hname
  obtain ⟨m, hm, heq⟩ := List.mem_map.mp hname
  exact sstName_injective heq ▸ hsmall m hm

/-- Two flushes of one key: the numbers are the ages. -/
theorem scan_keeps_recency_iff_flushes :
    ∃ e, Reach Engine.step (fun _ a => a.isCrash = false) (Engine.start (ascii "db") 1000 0) e ∧
      getFromSSTables e.store.captureLevels ⟨ascii "cpu", 5⟩ = some ⟨ascii "new", .kValue⟩ ∧
      (getFromSSTables ((startup e.store.vmgr.db_dir (fun _ => none) e.store.dir).store 0).captureLevels
          ⟨ascii "cpu", 5⟩ = getFromSSTables e.store.captureLevels ⟨ascii "cpu", 5⟩ ↔
        e.store.AgedByNumber e.store.dir ⟨ascii "cpu", 5⟩) := by
  have hrun : ([EngineAction.put (ascii "cpu") 5 (ascii "old"), .flush, .takeImm, .buildSST, .logFlush,
      .finishFlush, .put (ascii "cpu") 5 (ascii "new"), .flush, .takeImm, .buildSST, .logFlush,
      .finishFlush].foldlM (guarded Engine.step fun _ a => a.isCrash = false)
      (Engine.start (ascii "db") 1000 0)).map (fun e =>
        (getFromSSTables e.store.captureLevels ⟨ascii "cpu", 5⟩, e.store.dir.map Prod.fst)) =
      some (some ⟨ascii "new", .kValue⟩, [1, 2].map sstName) := by decide +kernel
  obtain ⟨e, he, hstate⟩ := Option.map_eq_some_iff.mp hrun
  obtain ⟨hfound, hnames⟩ := Prod.mk.inj hstate
  have hreach := reach_of_foldlM he
  have hlost : ManifestLost e.store.vmgr.db_dir fun _ => none :=
    ⟨Or.inl rfl, fun text ht => absurd ht (Option.some_ne_none text).symm⟩
  refine ⟨e, hreach, hfound, scan_keeps_recency_iff (ascii "db") 1000 0 hreach hlost ?_ _⟩
  exact leavesVersion_self (diskInv_run hreach).2 hnames (by decide)

/-- A flush is committed while a compaction runs. The output of the compaction, with the old
value, has the higher number, and the scan takes it for the newer file. -/
theorem scan_prefers_old_output :
    ∃ e, Reach Engine.step (fun _ a => a.isCrash = false) (Engine.start (ascii "db") 1000 0) e ∧
      ManifestLost e.store.vmgr.db_dir (fun _ => none) ∧ LeavesVersion e.store e.store.dir ∧
      getFromSSTables e.store.captureLevels ⟨ascii "cpu", 5⟩ = some ⟨ascii "new", .kValue⟩ ∧
      getFromSSTables ((startup e.store.vmgr.db_dir (fun _ => none) e.store.dir).store 0).captureLevels
          ⟨ascii "cpu", 5⟩ = some ⟨ascii "old", .kValue⟩ := by
  have hrun : ([EngineAction.put (ascii "cpu") 5 (ascii "old"), .flush, .takeImm, .buildSST, .logFlush,
      .finishFlush, .pick true, .readInputs, .put (ascii "cpu") 5 (ascii "new"), .flush, .takeImm,
      .buildSST, .logFlush, .finishFlush, .writeOutput, .commit true []].foldlM
      (guarded Engine.step fun _ a => a.isCrash = false) (Engine.start (ascii "db") 1000 0)).map (fun e =>
        (getFromSSTables e.store.captureLevels ⟨ascii "cpu", 5⟩,
          getFromSSTables ((startup e.store.vmgr.db_dir (fun _ => none)
            e.store.dir).store 0).captureLevels ⟨ascii "cpu", 5⟩, e.store.dir.map Prod.fst)) =
      some (some ⟨ascii "new", .kValue⟩, some ⟨ascii "old", .kValue⟩, [2, 3].map sstName) := by
    decide +kernel
  obtain ⟨e, he, hstate⟩ := Option.map_eq_some_iff.mp hrun
  obtain ⟨hfound, hscan, hnames⟩ := by simpa only [Prod.mk.injEq] using hstate
  have hreach := reach_of_foldlM he
  refine ⟨e, hreach, ⟨Or.inl rfl, fun text ht => absurd ht (Option.some_ne_none text).symm⟩, ?_, hfound, hscan⟩
  exact leavesVersion_self (diskInv_run hreach).2 hnames (by decide)

end MiniTsdb
