import MiniTsdb.Lib.Runs
import MiniTsdb.Proofs.EngineReads
import MiniTsdb.Proofs.Reopen

/-! The engine and its directory: what is on disk between two steps, and what a crash at
any point brings back. -/

namespace MiniTsdb
open Lib

/-- The store action behind an action that writes to the manifest. -/
def EngineAction.logs : EngineAction → Option StoreAction
  | .logFlush => some .commitFlush
  | .commit cleanup_obsolete held => some (.commit cleanup_obsolete held)
  | .shutdown held => some (.shutdown held)
  | _ => none

/-- What an action writes to the manifest parses back. -/
def Engine.LogsBack (e : Engine) (a : EngineAction) : Prop :=
  ∀ b, a.logs = some b → e.store.LogsBack b

instance (s : Store) (a : StoreAction) : Decidable (s.LogsBack a) :=
  inferInstanceAs (Decidable (∀ edit ∈ s.pendingEdit a,
    EditReadsBack s.vmgr.db_dir edit s.vmgr.next_file_number))

instance (e : Engine) (a : EngineAction) : Decidable (e.LogsBack a) :=
  inferInstanceAs (Decidable (∀ b ∈ a.logs, e.store.LogsBack b))

theorem callRule_store (s : Store) : CallRule fun e => e.store = s :=
  ⟨fun _ _ _ _ h => h, fun _ h _ _ => h, fun _ _ _ h => h⟩

/-- Entries that the engine hands to a new file are at or above `TsKey{}`. -/
def StoreAction.AboveDefault : StoreAction → Prop
  | .build entries => ∀ key, ¬ TsKey.default ≤ key → entries.lookup key = none
  | _ => True

theorem store_step {e e' : Engine} {a : EngineAction} (hs : e.step a = some e') (hcrash : a ≠ .crash) :
    e'.store = e.store ∨ ∃ b, StoreScans sstScanned e.store b ∧ b.AboveDefault ∧
      e.store.step b = some e'.store ∧ (e.LogsBack a → e.store.LogsBack b) := by
  cases step_kind hs with
  | noop => exact Or.inl rfl
  | enter hops => exact Or.inl ((callRule_store e.store).enter rfl _)
  | resume hr => exact Or.inl ((callRule_store e.store).resume rfl hr)
  | rotate hr =>
    obtain ⟨rfl, -, -⟩ := flushMem_eq hr
    exact Or.inl rfl
  | takeImm ht =>
    obtain ⟨m, -, -, rfl⟩ := takeImm_eq ht
    exact Or.inl rfl
  | buildSST hb =>
    obtain ⟨m, s, -, hstep, rfl⟩ := buildSST_eq hb
    refine Or.inr ⟨.build m.iterateEntries, ascending_iterateEntries m, fun key hlow => ?_, hstep,
      fun _ edit he => by contradiction⟩
    rw [lookup_iterateEntries, if_neg hlow]
  | logFlush hl =>
    unfold Engine.logFlush at hl
    split at hl
    · obtain ⟨s, hc, rfl⟩ := Option.map_eq_some_iff.mp hl
      exact Or.inr ⟨.commitFlush, trivial, trivial, hc, fun h => h _ rfl⟩
    · contradiction
  | finishFlush hf =>
    obtain ⟨m, -, rfl⟩ := finishFlush_eq hf
    exact Or.inl rfl
  | store hb hstep =>
    refine Or.inr ⟨_, storeAction_scans hb, ?_, hstep, fun _ edit he => ?_⟩
    · cases a <;> first | contradiction | (obtain rfl := Option.some.inj hb; trivial)
    · cases a <;> first | contradiction | (obtain rfl := Option.some.inj hb; contradiction)
  | @commit cleanup_obsolete held s hfree hstep =>
    exact Or.inr ⟨.commit cleanup_obsolete held, trivial, trivial, hstep, fun h => h _ rfl⟩
  | setTTL => exact Or.inl rfl
  | closing _ hc =>
    rw [closing_eq hc]
    exact Or.inl rfl
  | @shutdown held _ hfree hd =>
    obtain ⟨s, hstep, rfl⟩ := shutdown_spec hd
    exact Or.inr ⟨.shutdown held, trivial, trivial, hstep, fun h => h _ rfl⟩
  | crash => exact absurd rfl hcrash

def SSTable.AboveDefault (t : SSTable) : Prop := ∀ key, ¬ TsKey.default ≤ key → t.getEntry key = none

/-- No table on disk has a key below `TsKey{}`. -/
def AboveDefault (dir : SstDir) : Prop := ∀ e ∈ dir, ∀ t, e.2 = some t → t.AboveDefault

theorem openTable_mem {db_dir : Bytes} {dir : SstDir} {path : Bytes} {t : SSTable}
    (h : openTable db_dir dir path = some t) : ∃ e ∈ dir, e.2 = some t := by
  obtain ⟨e, he, ht⟩ := Option.bind_eq_some_iff.mp h
  exact ⟨e, List.mem_of_find?_eq_some he, ht⟩

theorem live_aboveDefault {scanned : TsKey → Bool} {s : Store} (h : StoreInv scanned s)
    (hlow : AboveDefault s.dir) {l : Fin kMaxLevel} {f : FileMeta}
    (hf : f ∈ s.vmgr.current.level_files l) : (s.tableAt f).AboveDefault := by
  obtain ⟨e, he, ht⟩ := openTable_mem (h.live l f hf).disk
  exact hlow e he _ ht

theorem met_aboveDefault {scanned : TsKey → Bool} {s : Store} (h : StoreInv scanned s)
    (hlow : AboveDefault s.dir) {key : TsKey} (hkey : ¬ TsKey.default ≤ key) : s.met key = [] := by
  refine List.flatMap_eq_nil_iff.mpr fun l _ => List.eq_nil_iff_forall_not_mem.mpr fun entry hentry => ?_
  obtain ⟨f, hf, e, he⟩ := exists_of_versionsIn_ne_nil (List.ne_nil_of_mem hentry)
  rw [live_aboveDefault h hlow hf key hkey] at he
  contradiction

theorem aboveDefault_step {scanned : TsKey → Bool} {s s' : Store} {b : StoreAction}
    (h : StoreInv scanned s) (hlow : AboveDefault s.dir) (hok : StoreScans scanned s b)
    (habove : b.AboveDefault) (hs : s.step b = some s') : AboveDefault s'.dir := by
  have hkeep : s'.dir.Sublist s.dir → AboveDefault s'.dir := fun hsub e he => hlow e (hsub.subset he)
  cases disk_step h hok hs with
  | keep hdir _ _ => exact hkeep hdir
  | commit _ _ _ hdir _ _ _ _ => exact hkeep hdir
  | snapshot _ hdir _ _ => exact hkeep hdir
  | write t hasc hsource hvm hdir hfiles =>
    have hnew : t.AboveDefault := by
      intro key hkey
      rcases hsource with rfl | hsource
      · exact habove key hkey
      · refine Option.eq_none_iff_forall_ne_some.mpr fun entry hentry => ?_
        obtain ⟨l, f, hf, hget⟩ := hsource key entry hentry
        rw [live_aboveDefault h hlow hf key hkey] at hget
        contradiction
    intro e he t' ht'
    rw [hdir] at he
    rcases List.mem_append.mp he with he | he
    · exact hlow e (List.mem_of_mem_filter he) t' ht'
    · rw [List.mem_singleton.mp he] at ht'
      rw [← Option.some.inj ht']
      exact hnew

structure EngineDisk (e : Engine) : Prop where
  disk : DiskInv e.store
  above : AboveDefault e.store.dir
  logged : Logged e.store.vmgr.db_dir e.store.vmgr.current e.store.files

theorem engineDisk_step {e e' : Engine} {a : EngineAction} (h : EngineDisk e) (hinv : EngineInv e)
    (hback : e.LogsBack a) (hs : e.step a = some e') (hcrash : a ≠ .crash) : EngineDisk e' := by
  rcases store_step hs hcrash with hsame | ⟨b, hscans, habove, hstep, hedit⟩
  · obtain ⟨hdisk, hlow, hlogged⟩ := h
    exact ⟨hsame ▸ hdisk, hsame ▸ hlow, hsame ▸ hlogged⟩
  · obtain ⟨hdb, hlogged⟩ := logged_step hinv.store h.logged hscans (hedit hback) hstep
    refine ⟨diskInv_step h.disk hinv.store hscans hstep,
      aboveDefault_step hinv.store h.above hscans habove hstep, ?_⟩
    rw [hdb]
    exact hlogged

theorem engineDisk_start (db_dir : Bytes) (limit : Int64) (target : ℕ) :
    EngineDisk (Engine.start db_dir limit target) := by
  have hrec := (recover_logged (logged_start db_dir)).1
  rw [start_open]
  have hstore : Store.start db_dir target = Startup.store
      ⟨(VersionManager.init db_dir fun _ => none).1, [], fun _ => none, []⟩ target := by
    rw [Store.start, start_eq]
  refine ⟨⟨?_, ?_⟩, ?_, ?_⟩
  · rw [hstore]
    exact List.nodup_nil
  · rw [hstore]
    intro e he
    contradiction
  · rw [hstore]
    intro e he
    contradiction
  · rw [hstore]
    change Logged (VersionManager.init db_dir fun _ => none).1.db_dir
      (VersionManager.init db_dir fun _ => none).1.current fun _ => none
    rw [hrec.dir_eq, hrec.current]
    exact logged_start db_dir

/-- Where the version has no file and the directory is scanned, the numbers of the tables
fit their type, and the snapshot of what was found parses back. -/
def Engine.Reopens (e : Engine) : Prop :=
  ¬ e.store.vmgr.current.IsEmpty ∨
    (∀ n t, (sstName n, some t) ∈ e.store.dir → n < 2 ^ 64) ∧
      EditReadsBack e.store.vmgr.db_dir ⟨e.store.reopened.vm.current.allFiles, []⟩
        e.store.reopened.vm.next_file_number

theorem crash_store (e : Engine) : e.crash.store = e.store.reopened.store e.store.target_file_size := by
  rw [Engine.crash, Engine.open]
  rfl

theorem crash_memory (e : Engine) : (e.crash.mem, e.crash.ttl_map) =
    e.wal.replayEntries.1.foldl replayHandler (.new, fun _ => none) := rfl

theorem crash_idle (e : Engine) : e.crash.flush = .idle ∧ e.crash.imm = none ∧ e.crash.calls = [] := by
  rw [Engine.crash, Engine.open]
  exact ⟨rfl, rfl, rfl⟩

theorem engineInv_crash {e : Engine} (h : EngineInv e) (hd : EngineDisk e) (hok : e.Reopens) :
    EngineInv e.crash ∧ EngineDisk e.crash := by
  obtain ⟨hidle, himm, -⟩ := crash_idle e
  have hstore : StoreInv sstScanned e.crash.store ∧ EngineDisk e.crash := by
    rw [crash_store]
    by_cases hempty : e.store.vmgr.current.IsEmpty
    · obtain ⟨hsmall, hback⟩ := hok.resolve_left (not_not.mpr hempty)
      have hr := reopen_scan hd.disk hd.logged hempty hsmall
      refine ⟨hr.storeInv _ hd.disk, ?_, ?_, ?_⟩
      · rw [crash_store]
        exact hr.diskInv _ hd.disk
      · rw [crash_store]
        change AboveDefault e.store.reopened.dir
        rw [hr.dir]
        exact hd.above
      · rw [crash_store]
        change Logged e.store.reopened.vm.db_dir _ _
        rw [hr.db_dir]
        exact hr.logged hd.logged hempty hback
    · have hr := reopen_version h.store hd.logged hempty
      refine ⟨hr.storeInv h.store _, ?_, ?_, ?_⟩
      · rw [crash_store]
        exact hr.diskInv _ hd.disk
      · rw [crash_store]
        change AboveDefault e.store.reopened.dir
        rw [hr.dir]
        exact fun f hf => hd.above f (List.mem_of_mem_filter hf)
      · rw [crash_store]
        change Logged e.store.reopened.vm.db_dir e.store.reopened.vm.current e.store.reopened.files
        rw [hr.recovered.dir_eq, hr.recovered.current, hr.files]
        exact hd.logged
  refine ⟨⟨hstore.1, ?_, fun hne => absurd hidle hne, fun key hlow => ?_⟩, hstore.2⟩
  · unfold FlushInv
    rw [hidle, crash_store]
    rfl
  · exact met_aboveDefault hstore.1 hstore.2.above hlow

/-- What a step writes to the manifest parses back, at a crash too. -/
def Engine.ReadsBack (e : Engine) (a : EngineAction) : Prop :=
  e.LogsBack a ∧ (a = .crash → e.Reopens)

theorem engineDisk_run {db_dir : Bytes} {limit : Int64} {target : ℕ} {e : Engine}
    (h : Reach Engine.step Engine.ReadsBack (Engine.start db_dir limit target) e) :
    EngineInv e ∧ EngineDisk e := by
  refine h.invariant (I := fun e => EngineInv e ∧ EngineDisk e)
    ⟨engineInv_start db_dir limit target, engineDisk_start db_dir limit target⟩ ?_
  rintro e a e' ⟨hinv, hdisk⟩ ⟨hback, hreopens⟩ hs
  by_cases hcrash : a = .crash
  · subst hcrash
    rw [step_crash hs]
    exact engineInv_crash hinv hdisk (hreopens rfl)
  · exact ⟨engineInv_step hinv hs hcrash, engineDisk_step hdisk hinv hback hs hcrash⟩

theorem readsBack_of_foldlM {as : List EngineAction} {e₀ e : Engine}
    (h : as.foldlM (guarded Engine.step fun e a => a.isCrash = false ∧ e.LogsBack a) e₀ = some e) :
    Reach Engine.step Engine.ReadsBack e₀ e :=
  (reach_of_foldlM h).mono fun _ _ hok => ⟨hok.2, by
    rintro rfl
    exact absurd hok.1 (by decide)⟩

end MiniTsdb
