import MiniTsdb.Proofs.EngineDisk
import MiniTsdb.Proofs.FaultSteps
import MiniTsdb.Proofs.Registry
import MiniTsdb.Spec.Reading

/-! Live files and files in use: from an opened directory on, no step of any thread, failed
or not, loses the reader of a live file, or removes a live file or one that a view reads. -/

namespace MiniTsdb
open Lib

/-- No file name stands for two files, and none is one that the counter will give out. -/
structure VersionManager.Listed (vm : VersionManager) : Prop where
  once : ∀ l, ∀ f ∈ vm.current.level_files l, ∀ l', ∀ f' ∈ vm.current.level_files l',
    f.file_name = f'.file_name → l = l' ∧ f.file_number = f'.file_number
  given : ∀ l, ∀ f ∈ vm.current.level_files l, ∀ n, vm.next_file_number ≤ n →
    f.file_name ≠ vm.newFileName n

/-- Every live file has its reader and is in the directory. -/
structure Startup.Stocked (s : Startup) : Prop where
  no_obsolete : s.vm.obsolete_files = []
  readers : ∀ l, ∀ f ∈ s.vm.current.level_files l, (findReader s.sst_readers f.file_name).isSome
  disk : ∀ l, ∀ f ∈ s.vm.current.level_files l, InDir s.vm.db_dir s.dir f.file_name

theorem registry_opened {st : Startup} (h : st.Stocked) (hlisted : st.vm.Listed) (target : ℕ) :
    Registry [] (st.store target) := by
  have hobsolete : (st.store target).vmgr.obsolete_files = [] := h.no_obsolete
  refine ⟨⟨hlisted.once, h.readers, ?_, ?_, ?_⟩, fun l f hf => ⟨h.disk l f hf, fun n hn => ?_⟩, ?_,
    fun p hp => by contradiction, fun name hname => by contradiction, fun n hn => by contradiction,
    List.nodup_nil, fun n t hb => by contradiction, fun run hrun => by contradiction⟩
  · rw [hobsolete]
    exact fun name hname => by contradiction
  · rw [hobsolete]
    exact List.nodup_nil
  · rw [hobsolete]
    exact fun l f hf hm => by contradiction
  · refine hlisted.given l f hf n (hn.resolve_left fun hm => by contradiction)
  · rw [hobsolete]
    exact fun name hname => by contradiction

theorem openReader_find (s : Startup) (f : FileMeta) :
    (s.openReader f).vm.db_dir = s.vm.db_dir ∧
      (s.openReader f).vm.obsolete_files = s.vm.obsolete_files ∧
      (∀ path, (findReader s.sst_readers path).isSome →
        (findReader (s.openReader f).sst_readers path).isSome) ∧
      ((openTable s.vm.db_dir s.dir f.file_name).isSome →
        (findReader (s.openReader f).sst_readers f.file_name).isSome) := by
  have hmark : ∀ n, (s.vm.markFileNumberUsed n).db_dir = s.vm.db_dir ∧
      (s.vm.markFileNumberUsed n).obsolete_files = s.vm.obsolete_files := fun n => by
    unfold VersionManager.markFileNumberUsed
    split_ifs <;> exact ⟨rfl, rfl⟩
  unfold Startup.openReader
  split_ifs with hfound
  · exact ⟨rfl, rfl, fun _ hp => hp, fun _ => hfound⟩
  · split
    · rename_i hnone
      refine ⟨rfl, rfl, fun _ hp => hp, fun hopen => ?_⟩
      rw [hnone] at hopen
      contradiction
    · rename_i t ht
      refine ⟨(hmark _).1, (hmark _).2, fun path hp => ?_, fun _ => ?_⟩
      · obtain ⟨r, hr⟩ := Option.isSome_iff_exists.mp hp
        rw [findReader_append_of_some hr]
        rfl
      · exact List.find?_isSome.mpr ⟨⟨f.file_name, t⟩,
          List.mem_append_right _ (List.mem_singleton_self _), by simp⟩

theorem openReaders_find (fs : List FileMeta) (s : Startup) :
    (fs.foldl Startup.openReader s).vm.db_dir = s.vm.db_dir ∧
      (fs.foldl Startup.openReader s).vm.obsolete_files = s.vm.obsolete_files ∧
      (∀ path, (findReader s.sst_readers path).isSome →
        (findReader (fs.foldl Startup.openReader s).sst_readers path).isSome) ∧
      ∀ f ∈ fs, (openTable s.vm.db_dir s.dir f.file_name).isSome →
        (findReader (fs.foldl Startup.openReader s).sst_readers f.file_name).isSome := by
  induction fs generalizing s with
  | nil => exact ⟨rfl, rfl, fun _ hp => hp, fun f hf => by contradiction⟩
  | cons f fs ih =>
    obtain ⟨hdb, hobsolete, hkeep, hnew⟩ := openReader_find s f
    obtain ⟨hdb', hobsolete', hkeep', hnew'⟩ := ih (s.openReader f)
    rw [hdb, (openReader_frame s f).2.1] at hnew'
    refine ⟨hdb'.trans hdb, hobsolete'.trans hobsolete, fun path hp => hkeep' path (hkeep path hp),
      fun g hg hopen => ?_⟩
    rcases List.mem_cons.mp hg with rfl | hg
    · exact hkeep' _ (hnew hopen)
    · exact hnew' g hg hopen

theorem inDir_openTable {db_dir : Bytes} {dir : SstDir} {path : Bytes}
    (h : (openTable db_dir dir path).isSome) : InDir db_dir dir path := by
  obtain ⟨t, ht⟩ := Option.isSome_iff_exists.mp h
  obtain ⟨e, he, -⟩ := Option.bind_eq_some_iff.mp ht
  exact ⟨e, List.mem_of_find?_eq_some he, by simpa using List.find?_some he⟩

theorem stocked_version {s : Startup} (hobsolete : s.vm.obsolete_files = [])
    (hnames : ∀ e ∈ s.dir, slash ∉ e.1)
    (hopens : ∀ l, ∀ f ∈ s.vm.current.level_files l, (openTable s.vm.db_dir s.dir f.file_name).isSome) :
    s.openReadersForCurrentVersion.garbageCollectSSTables.Stocked := by
  obtain ⟨hdb, hsame, -, hfind⟩ := openReaders_find (s.vm.current.allFiles.map Prod.snd) s
  obtain ⟨hcurrent, hdir, -⟩ := openReaders_frame (s.vm.current.allFiles.map Prod.snd) s
  have hlive : ∀ l f, f ∈ s.openReadersForCurrentVersion.vm.current.level_files l →
      f ∈ s.vm.current.level_files l := fun l f hf => hcurrent ▸ hf
  refine ⟨hsame.trans hobsolete, fun l f hf => ?_, fun l f hf => ?_⟩
  · exact hfind f (mem_allFiles.mpr ⟨l, hlive l f hf⟩) (hopens l f (hlive l f hf))
  · obtain ⟨e, he, hpath⟩ := inDir_openTable (hopens l f (hlive l f hf))
    refine ⟨e, List.mem_filter.mpr ⟨hdir ▸ he, ?_⟩, hdb ▸ hpath⟩
    have hname : baseName f.file_name = e.1 := by
      rw [← hpath]
      exact baseName_joinPath _ (hnames e he)
    have hin : e.1 ∈ s.openReadersForCurrentVersion.vm.current.liveFiles := by
      rw [← hname]
      exact mem_liveFiles hf
    simp [hin]

theorem stocked_addScanned {s : Startup} (h : s.Stocked) {e : Bytes × Option SSTable} (he : e ∈ s.dir) :
    (s.addScanned e).Stocked := by
  have hdb := addScanned_db_dir s e
  have hdir := addScanned_dir s e
  have hreaders : ∀ path, (findReader s.sst_readers path).isSome ∨
      (∃ t, e.2 = some t) ∧ path = joinPath s.vm.db_dir e.1 →
      (findReader (s.addScanned e).sst_readers path).isSome := by
    intro path hpath
    unfold Startup.addScanned
    cases ht : e.2 with
    | none =>
      refine hpath.resolve_right ?_
      rintro ⟨⟨t, hsome⟩, -⟩
      rw [ht] at hsome
      contradiction
    | some t =>
      rcases hpath with hp | ⟨-, rfl⟩
      · obtain ⟨r, hr⟩ := Option.isSome_iff_exists.mp hp
        dsimp only
        rw [findReader_append_of_some hr]
        rfl
      · exact List.find?_isSome.mpr ⟨⟨joinPath s.vm.db_dir e.1, t⟩,
          List.mem_append_right _ (List.mem_singleton_self _), by simp⟩
  refine ⟨?_, fun l f hf => ?_, fun l f hf => ?_⟩
  · unfold Startup.addScanned
    split
    · exact h.no_obsolete
    · refine (foldl_applyAdd_obsolete _ _).trans ?_
      dsimp only
      split <;> exact h.no_obsolete
  · rcases (mem_addScanned s e l f).mp hf with hf | ⟨-, t, ht, rfl⟩
    · exact hreaders _ (Or.inl (h.readers l f hf))
    · exact hreaders _ (Or.inr ⟨⟨t, ht⟩, rfl⟩)
  · rw [hdb, hdir]
    rcases (mem_addScanned s e l f).mp hf with hf | ⟨-, t, ht, rfl⟩
    · exact h.disk l f hf
    · exact ⟨e, he, rfl⟩

theorem stocked_foldl {es : SstDir} {s : Startup} (h : s.Stocked) (hes : ∀ e ∈ es, e ∈ s.dir) :
    (es.foldl Startup.addScanned s).Stocked := by
  induction es generalizing s with
  | nil => exact h
  | cons e es ih =>
    refine ih (stocked_addScanned h (hes e List.mem_cons_self)) fun e' he' => ?_
    rw [addScanned_dir]
    exact hes e' (List.mem_cons_of_mem e he')

theorem stocked_scan {s : Startup} (hobsolete : s.vm.obsolete_files = []) (hempty : s.vm.current.IsEmpty) :
    s.scanDirectory.Stocked := by
  have hnone : ∀ l f, f ∈ s.vm.current.level_files l → False := by
    intro l f hf
    rw [hempty l] at hf
    contradiction
  have hstocked : s.Stocked := ⟨hobsolete, fun l f hf => (hnone l f hf).elim,
    fun l f hf => (hnone l f hf).elim⟩
  have h := stocked_foldl hstocked fun e he => (mem_scanOrder.mp he).1
  unfold Startup.scanDirectory
  dsimp only
  split_ifs
  · exact ⟨h.no_obsolete, h.readers, h.disk⟩
  · exact h

theorem stocked_startup {db_dir : Bytes} {files : Files} {dir : SstDir}
    (hok : (VersionManager.init db_dir files).2 = .ok) (hnames : ∀ e ∈ dir, slash ∉ e.1)
    (hopens : ∀ l, ∀ f ∈ (VersionManager.init db_dir files).1.current.level_files l,
      (openTable db_dir dir f.file_name).isSome) : (startup db_dir files dir).Stocked := by
  have hobsolete := init_obsolete hok
  unfold startup Startup.loadExistingSSTables
  split_ifs with hpos
  · refine stocked_version hobsolete hnames fun l f hf => ?_
    dsimp only
    rw [init_db_dir]
    exact hopens l f hf
  · exact stocked_scan hobsolete (not_not.mp fun hne => hpos ((numFiles_pos_iff _).mpr hne))

/-- The version of any state of a store is listed. -/
theorem listed_of_storeInv {scanned : TsKey → Bool} {s : Store} (h : StoreInv scanned s) :
    s.vmgr.Listed := by
  refine ⟨fun l f hf l' f' hf' heq => ?_, fun l f hf n hn heq => ?_⟩
  · rw [(h.live l f hf).path, (h.live l' f' hf').path] at heq
    have hnumber := newFileName_injective _ heq
    exact ⟨h.one_level l f hf l' f' hf' hnumber, hnumber⟩
  · rw [(h.live l f hf).path] at heq
    have hlt := h.below l f hf
    rw [newFileName_injective _ heq] at hlt
    omega

/-- The manifests that the engine writes recover to listed versions. -/
theorem listed_reopened (db_dir : Bytes) (limit : Int64) (target : ℕ) {e : Engine}
    (h : Reach Engine.step Engine.ReadsBack (Engine.start db_dir limit target) e) (hok : e.Reopens) :
    (startup e.store.vmgr.db_dir e.store.files e.store.dir).vm.Listed := by
  obtain ⟨hinv, hdisk⟩ := engineDisk_run h
  have hcrashed : StoreInv sstScanned e.crash.store := (engineInv_crash hinv hdisk hok).1.store
  rw [crash_store] at hcrashed
  exact listed_of_storeInv hcrashed

theorem registry_step {held : List Bytes} {e e' : Engine} {a : EngineAction}
    (h : Registry held e.store) (hcrash : a.isCrash = false)
    (hsub : ∀ inUse, (FaultAction.engine a).held = some inUse → held ⊆ inUse)
    (hs : e.step a = some e') : Registry held e'.store := by
  cases step_kind hs with
  | noop => exact h
  | enter hops =>
    rw [(callRule_store e.store).enter rfl]
    exact h
  | resume hr =>
    rw [(callRule_store e.store).resume rfl hr]
    exact h
  | rotate hr =>
    obtain ⟨rfl, -, -⟩ := flushMem_eq hr
    exact h
  | takeImm ht =>
    obtain ⟨m, -, -, rfl⟩ := takeImm_eq ht
    exact h
  | buildSST hb =>
    obtain ⟨m, s, -, hstep, rfl⟩ := buildSST_eq hb
    exact h.buildFlush hstep
  | logFlush hl =>
    obtain ⟨m, s, -, hc, rfl⟩ := logFlush_eq hl
    exact h.commitFlush hc
  | finishFlush hf =>
    obtain ⟨m, -, rfl⟩ := finishFlush_eq hf
    exact h
  | @store a b s hb hstep =>
    refine h.step (fun inUse hin => hsub inUse ?_) hstep
    cases a <;> first | contradiction | (obtain rfl := Option.some.inj hb; exact hin)
  | @commit cleanup_obsolete inUse s hfree hstep =>
    exact h.step (a := .commit cleanup_obsolete inUse) hsub hstep
  | setTTL => exact h
  | closing _ hc =>
    rw [closing_eq hc]
    exact h
  | @shutdown inUse _ hfree hd =>
    obtain ⟨s, hstep, rfl⟩ := shutdown_spec hd
    exact h.step (a := .shutdown inUse) hsub hstep
  | crash => contradiction

theorem registry_fault {held : List Bytes} {e e' : Engine} {a : FaultAction}
    (h : Registry held e.store) (hcrash : a.isCrash = false)
    (hsub : ∀ inUse, a.held = some inUse → held ⊆ inUse) (hs : e.faultStep a = some e') :
    Registry held e'.store := by
  cases fault_cases hs with
  | engine hstep => exact registry_step h hcrash hsub hstep
  | fails hb hf => exact h.fails hf.store

theorem mem_names {view : ReadView} {name : Bytes} :
    name ∈ view.names ↔ ∃ l, ∃ ref ∈ view.levels l, ref.reader.file_name = name := by
  simp [ReadView.names]

theorem names_captured {e : Engine} {name : Bytes} (h : name ∈ e.captureReadView.names) :
    ∃ l, ∃ f ∈ e.store.vmgr.current.level_files l, f.file_name = name := by
  obtain ⟨l, ref, href, rfl⟩ := mem_names.mp h
  obtain ⟨f, hf, hsome⟩ := List.mem_filterMap.mp href
  obtain ⟨r, hr, rfl⟩ := Option.map_eq_some_iff.mp hsome
  exact ⟨l, f, hf, (findReader_spec hr).2.symm⟩

theorem registry_reading {r r' : Reading} {a : ReadingAction} (h : Registry r.held r.engine.store)
    (hs : r.step a = some r') : Registry r'.held r'.engine.store := by
  cases a with
  | engine a =>
    simp only [Reading.step] at hs
    split_ifs at hs with hcrash huse
    obtain ⟨e, he, rfl⟩ := Option.map_eq_some_iff.mp hs
    refine registry_fault h (by simpa using hcrash) (fun inUse hin name hname => ?_) he
    rw [hin, Option.all_some, List.all_eq_true] at huse
    simpa using huse name hname
  | capture =>
    simp only [Reading.step] at hs
    split_ifs at hs
    rw [← Option.some.inj hs]
    refine ⟨h.books, h.live, h.retired, h.pending, fun name hname => ?_, h.unpublished_lt,
      h.unpublished_nodup, h.built, h.run⟩
    rcases List.mem_append.mp hname with hname | hname
    · obtain ⟨l, f, hf, rfl⟩ := names_captured hname
      exact h.live l f hf
    · exact h.held name hname
  | release i =>
    rw [← Option.some.inj hs]
    refine ⟨h.books, h.live, h.retired, h.pending, fun name hname => h.held name ?_, h.unpublished_lt,
      h.unpublished_nodup, h.built, h.run⟩
    obtain ⟨view, hview, hin⟩ := List.mem_flatMap.mp hname
    exact List.mem_flatMap.mpr ⟨view, List.mem_of_mem_eraseIdx hview, hin⟩

/-- From a directory whose recovery succeeded and whose live files open, each listed once: in
every reachable state each live file has its reader, waits for no deletion and is in the
directory, and so is each file that a view reads. -/
theorem live_files_stay {db_dir : Bytes} {files : Files} {dir : SstDir} (wal : WAL) (limit : Int64)
    (target : ℕ) (hok : (VersionManager.init db_dir files).2 = .ok) (hnames : ∀ e ∈ dir, slash ∉ e.1)
    (hopens : ∀ l, ∀ f ∈ (VersionManager.init db_dir files).1.current.level_files l,
      (openTable db_dir dir f.file_name).isSome)
    (hlisted : (startup db_dir files dir).vm.Listed) {r : Reading}
    (h : Reach Reading.step (fun _ _ => True)
      ⟨Engine.open (startup db_dir files dir) wal limit target, []⟩ r) :
    (∀ l, ∀ f ∈ r.engine.store.vmgr.current.level_files l,
      (findReader r.engine.store.sst_readers f.file_name).isSome ∧
      f.file_name ∉ r.engine.store.pending_delete.map PendingDelete.file_name ∧
      InDir r.engine.store.vmgr.db_dir r.engine.store.dir f.file_name) ∧
    ∀ view ∈ r.views, ∀ l, ∀ ref ∈ view.levels l,
      InDir r.engine.store.vmgr.db_dir r.engine.store.dir ref.reader.file_name := by
  have hr : Registry r.held r.engine.store := by
    refine h.invariant (I := fun r => Registry r.held r.engine.store) ?_ fun s a s' hi _ hs =>
      registry_reading hi hs
    exact registry_opened (stocked_startup hok hnames hopens) hlisted target
  refine ⟨fun l f hf => ⟨hr.books.live l f hf, fun hm => ?_, (hr.live l f hf).1⟩,
    fun view hview l ref href => (hr.held _ ?_).1⟩
  · exact hr.books.gone l f hf (List.mem_append_right _ hm)
  · exact List.mem_flatMap.mpr ⟨view, hview, mem_names.mpr ⟨l, ref, href, rfl⟩⟩

/-- A manifest without a `CURRENT`. -/
def manifestOnly (db_dir text : Bytes) : Files :=
  Function.update (fun _ => none) (joinPath db_dir manifestFile) (some text)

/-- A view holds file 1, which a compaction replaces by file 2; the file is kept. -/
theorem live_files_stay_compacted :
    ∃ r, Reach Reading.step (fun _ _ => True)
        ⟨Engine.open (startup (ascii "db")
          (manifestOnly (ascii "db") (ascii "add 0 1 000001.sst 10 a 1 a 1\nnext_file 2\n"))
          [(sstName 1, some ⟨[(⟨ascii "a", 1⟩, ⟨ascii "v", .kValue⟩)], 10⟩)]) ⟨[]⟩ 1000 0, []⟩ r ∧
      r.engine.store.vmgr.current.allFiles.map (fun a => a.2.file_number) = [2] ∧
      r.views.map ReadView.names = [[joinPath (ascii "db") (sstName 1)]] ∧
      r.engine.store.pending_delete.map PendingDelete.file_name =
        [joinPath (ascii "db") (sstName 1)] ∧
      (∀ l, ∀ f ∈ r.engine.store.vmgr.current.level_files l,
        (findReader r.engine.store.sst_readers f.file_name).isSome ∧
        f.file_name ∉ r.engine.store.pending_delete.map PendingDelete.file_name ∧
        InDir r.engine.store.vmgr.db_dir r.engine.store.dir f.file_name) ∧
      ∀ view ∈ r.views, ∀ l, ∀ ref ∈ view.levels l,
        InDir r.engine.store.vmgr.db_dir r.engine.store.dir ref.reader.file_name := by
  set files := manifestOnly (ascii "db") (ascii "add 0 1 000001.sst 10 a 1 a 1\nnext_file 2\n") with hfiles
  set dir : SstDir := [(sstName 1, some ⟨[(⟨ascii "a", 1⟩, ⟨ascii "v", .kValue⟩)], 10⟩)] with hdir
  have hrun : (([ReadingAction.capture, .engine (.engine (.pick true)), .engine (.engine .readInputs),
      .engine (.engine .writeOutput),
      .engine (.engine (.commit true [joinPath (ascii "db") (sstName 1)]))].foldlM Reading.step
        ⟨Engine.open (startup (ascii "db") files dir) ⟨[]⟩ 1000 0, []⟩).map fun r =>
          (r.engine.store.vmgr.current.allFiles.map (fun a => a.2.file_number),
            r.views.map ReadView.names, r.engine.store.pending_delete.map PendingDelete.file_name)) =
      some ([2], [[joinPath (ascii "db") (sstName 1)]], [joinPath (ascii "db") (sstName 1)]) := by
    rw [hfiles, hdir]
    decide +kernel
  obtain ⟨r, hr, hstate⟩ := Option.map_eq_some_iff.mp hrun
  obtain ⟨hversion, hviews, hpending⟩ := by simpa only [Prod.mk.injEq] using hstate
  have hreach : Reach _ (fun _ _ => True) _ r := reach_foldlM (fun _ _ _ => trivial) hr
  have hlive : ((startup (ascii "db") files dir).vm.current.allFiles.map fun a =>
        (a.1, a.2.file_number, a.2.file_name)) =
          [(0, 1, (startup (ascii "db") files dir).vm.newFileName 1)] ∧
      (startup (ascii "db") files dir).vm.next_file_number = 2 := by
    rw [hfiles, hdir]
    decide +kernel
  have hall : ∀ l, ∀ f ∈ (startup (ascii "db") files dir).vm.current.level_files l,
      l = 0 ∧ f.file_number = 1 ∧ f.file_name = (startup (ascii "db") files dir).vm.newFileName 1 := by
    intro l f hf
    have hmem : ((l.val : ℤ), f) ∈ (startup (ascii "db") files dir).vm.current.allFiles :=
      List.mem_flatMap.mpr ⟨l, List.mem_finRange l, List.mem_map_of_mem hf⟩
    have hone := List.mem_map_of_mem (f := fun a : ℤ × FileMeta =>
      (a.1, a.2.file_number, a.2.file_name)) hmem
    rw [hlive.1, List.mem_singleton] at hone
    obtain ⟨hl, hnumber, hname⟩ := by simpa only [Prod.mk.injEq] using hone
    exact ⟨by exact_mod_cast hl, hnumber, hname⟩
  refine ⟨r, hreach, hversion, hviews, hpending, live_files_stay ⟨[]⟩ 1000 0 ?_ ?_ ?_ ⟨?_, ?_⟩ hreach⟩
  · rw [hfiles]
    decide +kernel
  · rw [hdir]
    decide +kernel
  · rw [hfiles, hdir]
    decide +kernel
  · intro l f hf l' f' hf' _
    obtain ⟨rfl, hnumber, -⟩ := hall l f hf
    obtain ⟨rfl, hnumber', -⟩ := hall l' f' hf'
    exact ⟨rfl, hnumber.trans hnumber'.symm⟩
  · intro l f hf n hn heq
    rw [(hall l f hf).2.2] at heq
    rw [hlive.2, ← newFileName_injective _ heq] at hn
    omega

/-- A manifest that lists one file on two levels: a compaction of the first listing takes the
reader and the file from the second. -/
theorem listed_twice_loses_file :
    ∃ files dir, (VersionManager.init (ascii "db") files).2 = .ok ∧ (∀ e ∈ dir, slash ∉ e.1) ∧
      (∀ l, ∀ f ∈ (VersionManager.init (ascii "db") files).1.current.level_files l,
        (openTable (ascii "db") dir f.file_name).isSome) ∧
      ∃ r, Reach Reading.step (fun _ _ => True)
          ⟨Engine.open (startup (ascii "db") files dir) ⟨[]⟩ 1000 0, []⟩ r ∧
        r.engine.flush.locks = false ∧
        ∃ f ∈ r.engine.store.vmgr.current.level_files 1,
          findReader r.engine.store.sst_readers f.file_name = none ∧
          openTable (ascii "db") r.engine.store.dir f.file_name = none := by
  refine ⟨manifestOnly (ascii "db")
    (ascii "add 0 5 000005.sst 10 a 1 a 1\nadd 1 5 000005.sst 10 b 1 b 1\nnext_file 6\n"),
    [(sstName 5, some ⟨[(⟨ascii "a", 1⟩, ⟨ascii "v", .kValue⟩)], 10⟩)], by decide +kernel,
    by decide +kernel, by decide +kernel, ?_⟩
  have hrun : (([ReadingAction.engine (.engine (.pick true)), .engine (.engine .readInputs),
      .engine (.engine .writeOutput), .engine (.engine (.commit true []))].foldlM Reading.step
        ⟨Engine.open (startup (ascii "db") (manifestOnly (ascii "db")
          (ascii "add 0 5 000005.sst 10 a 1 a 1\nadd 1 5 000005.sst 10 b 1 b 1\nnext_file 6\n"))
          [(sstName 5, some ⟨[(⟨ascii "a", 1⟩, ⟨ascii "v", .kValue⟩)], 10⟩)]) ⟨[]⟩ 1000 0, []⟩).map
        fun r => (r.engine.flush.locks, (r.engine.store.vmgr.current.level_files 1).any fun f =>
          (findReader r.engine.store.sst_readers f.file_name).isNone &&
            (openTable (ascii "db") r.engine.store.dir f.file_name).isNone)) = some (false, true) := by
    decide +kernel
  obtain ⟨r, hr, hstate⟩ := Option.map_eq_some_iff.mp hrun
  obtain ⟨hfree, hlost⟩ := Prod.mk.inj hstate
  obtain ⟨f, hf, hnone⟩ := List.any_eq_true.mp hlost
  rw [Bool.and_eq_true, Option.isNone_iff_eq_none, Option.isNone_iff_eq_none] at hnone
  exact ⟨r, reach_foldlM (fun _ _ _ => trivial) hr, hfree, f, hf, hnone.1, hnone.2⟩

end MiniTsdb
