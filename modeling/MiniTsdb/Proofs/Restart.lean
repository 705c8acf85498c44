import MiniTsdb.Proofs.DamagedManifest
import MiniTsdb.Proofs.EngineDisk

/-! Restarts: when opening the directory gives back the committed version, whatever
obsolete tables are still in it. -/

namespace MiniTsdb
open Lib

/-- While no file operation fails, every file of the directory opens as a table. -/
theorem opens_run {db_dir : Bytes} {limit : Int64} {target : ℕ} {e : Engine}
    (h : Reach Engine.step Engine.ReadsBack (Engine.start db_dir limit target) e) :
    ∀ x ∈ e.store.dir, x.2.isSome := by
  refine (h.invariant (I := fun e => (EngineInv e ∧ EngineDisk e) ∧ ∀ x ∈ e.store.dir, x.2.isSome)
    ⟨⟨engineInv_start db_dir limit target, engineDisk_start db_dir limit target⟩, ?_⟩ ?_).2
  · rw [start_open, Store.start, start_eq]
    exact fun x hx => by contradiction
  rintro e a e' ⟨⟨hinv, hdisk⟩, hopens⟩ ⟨hback, hreopens⟩ hs
  by_cases hcrash : a = .crash
  · subst hcrash
    rw [step_crash hs]
    refine ⟨engineInv_crash hinv hdisk (hreopens rfl), fun x hx => hopens x ?_⟩
    exact (mem_startup_dir.mp (crash_store e ▸ hx)).1
  · refine ⟨⟨engineInv_step hinv hs hcrash, engineDisk_step hdisk hinv hback hs hcrash⟩, ?_⟩
    rcases store_step hs hcrash with hsame | ⟨b, hscans, -, hstep, -⟩
    · exact hsame ▸ hopens
    · cases disk_step hinv.store hscans hstep with
      | keep hdir _ _ => exact fun x hx => hopens x (hdir.subset hx)
      | commit _ _ _ hdir _ _ _ _ => exact fun x hx => hopens x (hdir.subset hx)
      | snapshot _ hdir _ _ => exact fun x hx => hopens x (hdir.subset hx)
      | write t _ _ _ hdir _ =>
        intro x hx
        rw [hdir] at hx
        rcases List.mem_append.mp hx with hx | hx
        · exact hopens x (List.mem_of_mem_filter hx)
        · rw [List.mem_singleton.mp hx]
          rfl

/-- Without a version, every table of the directory comes back. -/
theorem reopen_nonempty {s : Store} (hd : DiskInv s) (hopens : ∀ x ∈ s.dir, x.2.isSome)
    (hlog : Logged s.vmgr.db_dir s.vmgr.current s.files) (hempty : s.vmgr.current.IsEmpty)
    (hdir : s.dir ≠ []) : ¬ s.reopened.vm.current.IsEmpty := by
  obtain ⟨hrec, -⟩ := recover_logged hlog
  set st : Startup := ⟨(VersionManager.init s.vmgr.db_dir s.files).1, [], s.files, s.dir⟩
  have hload : s.reopened = st.scanDirectory := by
    refine load_of_empty ?_
    rw [hrec.current]
    exact hempty
  obtain ⟨e, he⟩ := List.exists_mem_of_ne_nil s.dir hdir
  obtain ⟨n, o, rfl, -⟩ := hd.tables e he
  obtain ⟨t, rfl⟩ := Option.isSome_iff_exists.mp (hopens _ he)
  have hmem : (sstName n, some t) ∈ scanOrder s.dir := mem_scanOrder.mpr ⟨he, isSst_sstName n⟩
  obtain ⟨f, hf, -⟩ := exists_scanned (s := st) hmem rfl
  intro hnone
  rw [hload, (scanDirectory_frame st).1] at hnone
  rw [hnone 0] at hf
  contradiction

/-- Opening the directory of any state of a run yields the committed version, and readers of
its files only, exactly if the version has a file or no table is left over. -/
theorem reopen_is_committed (db_dir : Bytes) (limit : Int64) (target : ℕ) {e : Engine}
    (h : Reach Engine.step Engine.ReadsBack (Engine.start db_dir limit target) e) :
    (e.crash.store.vmgr.current = e.store.vmgr.current ∧ ∀ r ∈ e.crash.store.sst_readers,
        ∃ l, ∃ f ∈ e.store.vmgr.current.level_files l, r.file_name = f.file_name) ↔
      ¬ e.store.vmgr.current.IsEmpty ∨ e.store.dir = [] := by
  obtain ⟨hinv, hdisk⟩ := engineDisk_run h
  rw [crash_store]
  change (e.store.reopened.vm.current = e.store.vmgr.current ∧
    ∀ r ∈ e.store.reopened.sst_readers, _) ↔ _
  constructor
  · rintro ⟨hsame, -⟩
    by_contra hno
    push Not at hno
    refine reopen_nonempty hdisk.disk (opens_run h) hdisk.logged hno.1 hno.2 ?_
    rw [hsame]
    exact hno.1
  · intro hcase
    by_cases hempty : e.store.vmgr.current.IsEmpty
    · have hdir := hcase.resolve_left (not_not.mpr hempty)
      have hr := reopen_scan hdisk.disk hdisk.logged hempty fun n t hmem => by
        rw [hdir] at hmem
        contradiction
      refine ⟨hr.ordered.ext hinv.store.ordered fun l f => ?_, fun r hreader => ?_⟩
      · rw [hempty l]
        by_cases hl : l = 0
        · subst hl
          rw [hr.zero, hdir]
          simp
        · rw [hr.deeper l hl]
      · obtain ⟨n, t, hmem, -⟩ := (hr.readers r).mp hreader
        rw [hdir] at hmem
        contradiction
    · have hr := reopen_version hinv.store hdisk.logged hempty
      exact ⟨hr.recovered.current, hr.readers⟩

/-- After a flush the version has a file. -/
theorem reopen_is_committed_flushed :
    ∃ e, Reach Engine.step Engine.ReadsBack (Engine.start (ascii "db") 1000 0) e ∧
      (e.store.vmgr.current.level_files 0).map FileMeta.file_number = [1] ∧
      (e.crash.store.vmgr.current = e.store.vmgr.current ∧ ∀ r ∈ e.crash.store.sst_readers,
        ∃ l, ∃ f ∈ e.store.vmgr.current.level_files l, r.file_name = f.file_name) := by
  have hrun : (([EngineAction.put (ascii "cpu") 5 (ascii "v"), .flush, .takeImm, .buildSST, .logFlush,
      .finishFlush].foldlM (guarded Engine.step fun e a => a.isCrash = false ∧ e.LogsBack a)
      (Engine.start (ascii "db") 1000 0)).map fun e =>
        (e.store.vmgr.current.level_files 0).map FileMeta.file_number) = some [1] := by decide +kernel
  obtain ⟨e, he, hfiles⟩ := Option.map_eq_some_iff.mp hrun
  have hreach := readsBack_of_foldlM he
  refine ⟨e, hreach, hfiles, (reopen_is_committed (ascii "db") 1000 0 hreach).mpr (Or.inl fun hempty => ?_)⟩
  rw [hempty 0] at hfiles
  contradiction

/-- The TTL filter of a compaction drops all there is; its input is left on disk, and is back
after the restart with its entry. -/
theorem dropped_file_comes_back :
    ∃ e, Reach Engine.step Engine.ReadsBack (Engine.start (ascii "db") 1000 0) e ∧
      e.get ⟨ascii "cpu", 5⟩ = none ∧ e.store.vmgr.current.IsEmpty ∧
      (VersionManager.init (ascii "db") e.store.files).2 = .ok ∧
      (VersionManager.init (ascii "db") e.store.files).1.current.IsEmpty ∧
      (e.crash.store.vmgr.current.level_files 0).map FileMeta.file_number = [1] ∧
      e.crash.get ⟨ascii "cpu", 5⟩ = some (ascii "v") := by
  have hrun : (([EngineAction.put (ascii "cpu") 5 (ascii "v"), .flush, .takeImm, .buildSST, .logFlush,
      .finishFlush, .put (ascii "cpu") 1000000000000 (ascii "w"), .setTTL (ascii "cpu") 1, .pick true,
      .readInputs, .commit false []].foldlM
      (guarded Engine.step fun e a => a.isCrash = false ∧ e.LogsBack a)
      (Engine.start (ascii "db") 1000 0)).map fun e =>
        ([e.get ⟨ascii "cpu", 5⟩, e.crash.get ⟨ascii "cpu", 5⟩],
          [e.store.vmgr.numFiles, (VersionManager.init (ascii "db") e.store.files).1.numFiles],
          (VersionManager.init (ascii "db") e.store.files).2,
          (e.crash.store.vmgr.current.level_files 0).map FileMeta.file_number)) =
      some ([none, some (ascii "v")], [0, 0], .ok, [1]) := by decide +kernel
  obtain ⟨e, he, hstate⟩ := Option.map_eq_some_iff.mp hrun
  obtain ⟨⟨hget, hagain⟩, ⟨hfiles, hrec⟩, hok, hback⟩ := by
    simpa only [Prod.mk.injEq, List.cons.injEq, and_true] using hstate
  have hempty : ∀ vm : VersionManager, vm.numFiles = 0 → vm.current.IsEmpty := fun vm hzero =>
    not_not.mp fun hne => absurd ((numFiles_pos_iff vm).mpr hne) (by omega)
  exact ⟨e, readsBack_of_foldlM he, hget, hempty _ hfiles, hok,
    hempty _ hrec, hback, hagain⟩

end MiniTsdb
