import MiniTsdb.Proofs.EngineDisk
import MiniTsdb.Proofs.FaultSteps
import MiniTsdb.Proofs.OpenedReaders
import MiniTsdb.Proofs.StoreRecords

/-! The TTL clock of a measurement against the records that are stored. It runs with the
writes, and after a restart it comes from the log alone. -/

namespace MiniTsdb
open Lib

/-- The clock of the key's measurement is set, and not before the key. -/
def TtlMap.Covers (ttl_map : TtlMap) (key : TsKey) : Prop :=
  ∃ rule, ttl_map key.measurement = some rule ∧ key.timestamp ≤ rule.latest_timestamp

theorem int64_le_max_iff {t latest timestamp : Int64} :
    t ≤ (if latest < timestamp then timestamp else latest) ↔ t ≤ latest ∨ t ≤ timestamp := by
  simp only [Int64.le_iff_toInt_le, Int64.lt_iff_toInt_lt]
  split_ifs <;> omega

theorem covers_updateLatestTimestamp (ttl_map : TtlMap) (measurement : Bytes) (timestamp : Int64)
    (key : TsKey) : (updateLatestTimestamp ttl_map measurement timestamp).Covers key ↔
      ttl_map.Covers key ∨ key.measurement = measurement ∧ key.timestamp ≤ timestamp := by
  unfold TtlMap.Covers updateLatestTimestamp
  by_cases hm : key.measurement = measurement
  · subst hm
    rw [Function.update_self]
    -- the later of the clock and the timestamp, and of an unset clock the least time
    have hnext : ∀ rule : TtlRule, (∃ rule', some (if rule.latest_timestamp < timestamp then
        { rule with latest_timestamp := timestamp } else rule) = some rule' ∧
          key.timestamp ≤ rule'.latest_timestamp) ↔
        key.timestamp ≤ rule.latest_timestamp ∨ key.timestamp ≤ timestamp := by
      intro rule
      rw [← int64_le_max_iff]
      simp only [Option.some.injEq, exists_eq_left']
      split_ifs <;> rfl
    rw [hnext]
    cases hrule : ttl_map key.measurement with
    | none =>
      simp only [Option.getD_none, TtlRule.default, reduceCtorEq, false_and, exists_false, true_and,
        false_or]
      refine ⟨fun h => h.elim (fun hmin => ?_) id, Or.inr⟩
      rw [Int64.le_iff_toInt_le] at hmin ⊢
      exact hmin.trans timestamp.minValue_le_toInt
    | some rule => simp
  · simp [hm]

theorem covers_setTTL {ttl_map : TtlMap} {key : TsKey} (h : ttl_map.Covers key) (measurement : Bytes)
    (ttl_seconds : Int64) : (setTTL ttl_map measurement ttl_seconds).Covers key := by
  obtain ⟨rule, hrule, hle⟩ := h
  unfold TtlMap.Covers setTTL
  by_cases hm : key.measurement = measurement
  · subst hm
    rw [Function.update_self, hrule]
    exact ⟨_, rfl, hle⟩
  · rw [Function.update_of_ne hm]
    exact ⟨rule, hrule, hle⟩

def MemTable.Within (P : TsKey → Prop) (m : MemTable) : Prop := ∀ x ∈ m.table, P x.1

theorem within_insertEntry {P : TsKey → Prop} {nodes : List (TsKey × InternalEntry)} {key : TsKey}
    (value : InternalEntry) (h : ∀ x ∈ nodes, P x.1) (hkey : P key) :
    ∀ x ∈ insertEntry key value nodes, P x.1 := by
  intro x hx
  rcases mem_insertEntry hx with rfl | hx
  · exact hkey
  · exact h x hx

theorem MemTable.Within.apply {P : TsKey → Prop} {m : MemTable} (h : m.Within P) {op : Operation}
    (hop : P op.key) : (m.apply op).Within P := by
  cases op with
  | put measurement timestamp value => exact within_insertEntry _ h hop
  | delete measurement timestamp => exact within_insertEntry _ h hop

theorem MemTable.Within.iterateEntries {P : TsKey → Prop} {m : MemTable} (h : m.Within P) :
    ∀ x ∈ m.iterateEntries, P x.1 :=
  fun x hx => h x ((List.dropWhile_suffix _).subset hx)

/-- A record of the measurement is in the log that is not before the key. -/
def WAL.Covers (wal : WAL) (key : TsKey) : Prop :=
  ∃ entry ∈ wal.replayEntries.1, key.measurement = entry.measurement ∧ key.timestamp ≤ entry.timestamp

theorem covers_foldl_replayHandler (entries : List WalEntry) (s : MemTable × TtlMap) (key : TsKey) :
    (entries.foldl replayHandler s).2.Covers key ↔ s.2.Covers key ∨
      ∃ entry ∈ entries, key.measurement = entry.measurement ∧ key.timestamp ≤ entry.timestamp := by
  induction entries generalizing s with
  | nil => simp
  | cons entry entries ih =>
    rw [List.foldl_cons, ih, replayHandler, covers_updateLatestTimestamp]
    simp only [List.mem_cons, exists_eq_or_imp, or_assoc]

theorem within_foldl_replayHandler (entries : List WalEntry) {s : MemTable × TtlMap}
    (h : s.1.Within s.2.Covers) :
    (entries.foldl replayHandler s).1.Within (entries.foldl replayHandler s).2.Covers := by
  induction entries generalizing s with
  | nil => exact h
  | cons entry entries ih =>
    refine ih ?_
    have hold : ∀ x ∈ s.1.table,
        (updateLatestTimestamp s.2 entry.measurement entry.timestamp).Covers x.1 :=
      fun x hx => (covers_updateLatestTimestamp _ _ _ _).mpr (Or.inl (h x hx))
    have hnew : (updateLatestTimestamp s.2 entry.measurement entry.timestamp).Covers
        ⟨entry.measurement, entry.timestamp⟩ :=
      (covers_updateLatestTimestamp _ _ _ _).mpr (Or.inr ⟨rfl, by rw [Int64.le_iff_toInt_le]⟩)
    rw [replayHandler]
    cases entry.type with
    | kValue => exact within_insertEntry _ hold hnew
    | kDeletion => exact within_insertEntry _ hold hnew

/-- A record of the key is in `mem_`, in `imm_` or in a live SSTable. -/
def Engine.Holds (e : Engine) (key : TsKey) : Prop :=
  (∃ x ∈ e.mem.table, x.1 = key) ∨ (∃ m, e.imm = some m ∧ ∃ x ∈ m.table, x.1 = key) ∨
    ∃ l, ∃ ref ∈ e.store.captureLevels l, ∃ x ∈ ref.reader.table.entries, x.1 = key

/-- No record is after the clock of its measurement. -/
def Engine.ClockCovers (e : Engine) : Prop := ∀ key, e.Holds key → e.ttl_map.Covers key

/-- The log covers every SSTable that is live once the directory is opened again. -/
def Engine.LogCovers (e : Engine) : Prop :=
  ∀ l, ∀ ref ∈ (e.store.reopened.store e.store.target_file_size).captureLevels l,
    ref.reader.table.Within e.wal.Covers

/-- The clock covers every record there is, and every one on its way to disk. -/
structure Clocked (e : Engine) : Prop where
  mem : e.mem.Within e.ttl_map.Covers
  imm : ∀ m, e.imm = some m → m.Within e.ttl_map.Covers
  flush : ∀ m, e.flush.memtable = some m → m.Within e.ttl_map.Covers
  store : e.store.Within e.ttl_map.Covers

theorem mem_captureLevels {s : Store} {l : Fin kMaxLevel} {ref : ReaderRef}
    (h : ref ∈ s.captureLevels l) : ref.file ∈ s.vmgr.current.level_files l ∧
      findReader s.sst_readers ref.file.file_name = some ref.reader := by
  obtain ⟨f, hf, href⟩ := List.mem_filterMap.mp h
  obtain ⟨r, hr, rfl⟩ := Option.map_eq_some_iff.mp href
  exact ⟨hf, hr⟩

theorem Clocked.covers {e : Engine} (h : Clocked e) : e.ClockCovers := by
  rintro key (⟨x, hx, rfl⟩ | ⟨m, himm, x, hx, rfl⟩ | ⟨l, ref, href, x, hx, rfl⟩)
  · exact h.mem x hx
  · exact h.imm m himm x hx
  · exact h.store.readers _ (findReader_spec (mem_captureLevels href).2).1 x hx

theorem callRule_clocked : CallRule Clocked := by
  refine ⟨fun e wal calls n h => ⟨h.mem, h.imm, h.flush, h.store⟩, fun e h _ _ => ?_,
    fun e id op h => ?_⟩
  · refine ⟨fun x hx => by contradiction, fun m hm => ?_, h.flush, h.store⟩
    exact Option.some.inj hm ▸ h.mem
  · have hmono : ∀ key, e.ttl_map.Covers key →
        (updateLatestTimestamp e.ttl_map op.measurement op.timestamp).Covers key :=
      fun key hkey => (covers_updateLatestTimestamp _ _ _ _).mpr (Or.inl hkey)
    have hop : (updateLatestTimestamp e.ttl_map op.measurement op.timestamp).Covers op.key :=
      (covers_updateLatestTimestamp _ _ _ _).mpr (Or.inr ⟨rfl, by
        rw [Int64.le_iff_toInt_le]
        rfl⟩)
    refine ⟨?_, fun m hm x hx => hmono _ (h.imm m hm x hx), fun m hm x hx => hmono _ (h.flush m hm x hx),
      h.store.mono hmono⟩
    exact MemTable.Within.apply (fun x hx => hmono _ (h.mem x hx)) hop

theorem Clocked.disk {e : Engine} (h : Clocked e) {a : DiskAction} {s : Store}
    (ha : ∀ b, a = .store b → b.Within e.ttl_map.Covers e.store) (hs : e.store.diskStep a = some s)
    (flush : FlushThread) (hflush : ∀ m, flush.memtable = some m → e.flush.memtable = some m)
    (wal : WAL) (closing : CloseStage) (flushes : List (MemTable × ℕ)) :
    Clocked { e with store := s, flush := flush, wal := wal, closing := closing, flushes := flushes } :=
  ⟨h.mem, h.imm, fun m hm => h.flush m (hflush m hm), h.store.diskStep ha hs⟩

theorem within_makeSSTReader {P : TsKey → Prop} {s : Store} (h : s.Within P) :
    StoreAction.Within P s (.read s.makeSSTReader) := by
  intro run hrun input hinput r hr
  unfold Store.makeSSTReader at hr
  split at hr
  · contradiction
  · rename_i t ht
    obtain ⟨e, he, hpath, hopen⟩ := openTable_eq_some ht
    have htable := h.named e he (Or.inr (Or.inr ⟨run, hrun, Or.inl ⟨input, hinput, hpath.symm⟩⟩)) t hopen
    obtain ⟨x, hx, rfl⟩ := List.mem_map.mp (List.mem_of_mem_filter hr)
    exact htable x hx

theorem storeAction_within {e : Engine} (h : Clocked e) {a : EngineAction} {b : StoreAction}
    (ha : e.storeAction a = some b) : b.Within e.ttl_map.Covers e.store := by
  cases a with
  | readInputs =>
    obtain rfl := Option.some.inj ha
    exact within_makeSSTReader h.store
  | _ => first | contradiction | (obtain rfl := Option.some.inj ha; trivial)

theorem clocked_step {e e' : Engine} {a : EngineAction} (h : Clocked e) (hs : e.step a = some e')
    (hcrash : a.isCrash = false) : Clocked e' := by
  cases step_kind hs with
  | noop => exact h
  | enter hops => exact callRule_clocked.enter h _
  | resume hr => exact callRule_clocked.resume h hr
  | rotate hr =>
    obtain ⟨rfl, himm, hidle⟩ := flushMem_eq hr
    exact callRule_clocked.rotate e h himm hidle
  | takeImm ht =>
    obtain ⟨m, himm, -, rfl⟩ := takeImm_eq ht
    refine ⟨h.mem, fun m' hm' => by contradiction, fun m' hm' => ?_, h.store⟩
    exact h.imm m' (himm.trans hm')
  | buildSST hb =>
    obtain ⟨m, s, hflush, hstep, rfl⟩ := buildSST_eq hb
    have hm : e.flush.memtable = some m := by
      rw [hflush]
      rfl
    refine h.disk (a := .store (.build m.iterateEntries)) (fun b hb => ?_) hstep (.built m)
      (fun m' hm' => hm.trans hm') e.wal e.closing e.flushes
    obtain rfl := DiskAction.store.inj hb
    exact (h.flush m hm).iterateEntries
  | logFlush hl =>
    obtain ⟨m, s, hflush, hc, rfl⟩ := logFlush_eq hl
    refine h.disk (a := .store .commitFlush) (fun b hb => ?_) hc (.logged m) (fun m' hm' => ?_) e.wal
      e.closing _
    · obtain rfl := DiskAction.store.inj hb
      trivial
    · rw [hflush]
      exact hm'
  | finishFlush hf =>
    obtain ⟨m, -, rfl⟩ := finishFlush_eq hf
    exact ⟨h.mem, h.imm, fun m' hm' => by contradiction, h.store⟩
  | @store a b s hb hstep =>
    refine h.disk (a := .store b) (fun b' hb' => ?_) hstep e.flush (fun _ hm => hm) e.wal e.closing
      e.flushes
    obtain rfl := DiskAction.store.inj hb'
    exact storeAction_within h hb
  | @commit cleanup_obsolete held s hfree hstep =>
    refine h.disk (a := .store (.commit cleanup_obsolete held)) (fun b' hb' => ?_) hstep e.flush
      (fun _ hm => hm) e.wal e.closing e.flushes
    obtain rfl := DiskAction.store.inj hb'
    trivial
  | @setTTL measurement ttl_seconds =>
    have hmono : ∀ key, e.ttl_map.Covers key →
        (MiniTsdb.setTTL e.ttl_map measurement ttl_seconds).Covers key :=
      fun key hkey => covers_setTTL hkey measurement ttl_seconds
    exact ⟨fun x hx => hmono _ (h.mem x hx), fun m hm x hx => hmono _ (h.imm m hm x hx),
      fun m hm x hx => hmono _ (h.flush m hm x hx), h.store.mono hmono⟩
  | closing _ hc =>
    rw [closing_eq hc]
    exact ⟨h.mem, h.imm, h.flush, h.store⟩
  | @shutdown held _ hfree hd =>
    obtain ⟨s, hstep, rfl⟩ := shutdown_spec hd
    refine h.disk (a := .store (.shutdown held)) (fun b' hb' => ?_) hstep e.flush (fun _ hm => hm)
      e.wal .done e.flushes
    obtain rfl := DiskAction.store.inj hb'
    trivial
  | crash => contradiction

theorem clocked_faultStep {e e' : Engine} {a : FaultAction} (h : Clocked e)
    (hs : e.faultStep a = some e') (hcrash : a.isCrash = false) : Clocked e' := by
  cases fault_cases hs with
  | engine hstep => exact clocked_step h hstep hcrash
  | fails hb hf =>
    rw [hf.frame]
    refine ⟨h.mem, h.imm, fun m hm => ?_, h.store.fails hf.store⟩
    rcases hf.flush with ⟨-, hidle, -, -⟩ | ⟨-, hsame, -⟩
    · change e'.flush.memtable = some m at hm
      rw [hidle] at hm
      contradiction
    · exact h.flush m (hsame ▸ hm)

/-- The clocks of an opened engine are those of its log. -/
theorem covers_crash (e : Engine) (key : TsKey) : e.crash.ttl_map.Covers key ↔ e.wal.Covers key := by
  have hfold := covers_foldl_replayHandler e.wal.replayEntries.1 (.new, fun _ => none) key
  rw [← crash_memory] at hfold
  rw [hfold, WAL.Covers]
  refine or_iff_right ?_
  rintro ⟨rule, hrule, -⟩
  contradiction

theorem clocked_crash {e : Engine} (hnames : (e.store.dir.map Prod.fst).Nodup) (hlog : e.LogCovers) :
    Clocked e.crash := by
  have hmem : e.crash.mem.Within e.crash.ttl_map.Covers := by
    have hfold := within_foldl_replayHandler e.wal.replayEntries.1
      (s := (.new, fun _ => none)) fun x hx => by contradiction
    rw [← crash_memory] at hfold
    exact hfold
  obtain ⟨hidle, himm, -⟩ := crash_idle e
  have hst := readsDir_startup e.store.vmgr.db_dir e.store.files hnames
  -- every reader shows a file of the version
  have hreaders : ∀ r ∈ e.store.reopened.sst_readers, r.table.Within e.crash.ttl_map.Covers := by
    intro r hr
    obtain ⟨l, f, hf, hname⟩ := hst.listed r hr
    have hfind := hst.find hnames hr
    have href : ⟨f, r⟩ ∈ (e.store.reopened.store e.store.target_file_size).captureLevels l := by
      refine List.mem_filterMap.mpr ⟨f, hf, ?_⟩
      rw [hname]
      exact Option.map_eq_some_iff.mpr ⟨r, hfind, rfl⟩
    exact fun x hx => (covers_crash e x.1).mpr (hlog l _ href x hx)
  refine ⟨hmem, fun m hm => ?_, fun m hm => ?_, ?_⟩
  · rw [himm] at hm
    contradiction
  · rw [hidle] at hm
    contradiction
  · rw [crash_store]
    refine ⟨hreaders, fun e' he' hn t ht => ?_, fun b hb => by contradiction,
      fun run hrun => by contradiction, fun run hrun => by contradiction, ?_⟩
    · rcases hn with ⟨l, f, hf, hname⟩ | ⟨b, hb, -⟩ | ⟨run, hrun, -⟩
      · have hdir := hst.kept.subset he'
        obtain ⟨r, hr, hpath⟩ := hst.opened l f hf e' hdir hname.symm t ht
        obtain ⟨e'', he'', hname'', ht''⟩ := hst.held r hr
        have hsame := openTable_of_mem e.store.reopened.vm.db_dir hnames hdir
        have hsame' := openTable_of_mem e.store.reopened.vm.db_dir hnames he''
        rw [show joinPath e.store.reopened.vm.db_dir e''.1 = joinPath e.store.reopened.vm.db_dir e'.1 from
          hname''.trans (hpath.trans hname), hsame, ht, ht''] at hsame'
        exact Option.some.inj hsame' ▸ hreaders r hr
      · contradiction
      · contradiction
    · exact hnames.sublist (hst.kept.map _)

/-- After a restart the clock covers what is stored exactly when the log does. -/
theorem clockCovers_crash_iff {e : Engine} (hnames : (e.store.dir.map Prod.fst).Nodup) :
    e.crash.ClockCovers ↔ e.LogCovers := by
  refine ⟨fun h l ref href x hx => ?_, fun h => (clocked_crash hnames h).covers⟩
  refine (covers_crash e x.1).mp (h x.1 (Or.inr (Or.inr ⟨l, ref, ?_, x, hx, rfl⟩)))
  rw [crash_store]
  exact href

/-- Steps that keep the clocks: at a restart, the log covers every live SSTable. -/
def Engine.KeepsClock (e : Engine) (a : FaultAction) : Prop := a.isCrash → e.LogCovers

theorem faultStep_crash {e e' : Engine} {a : FaultAction} (hs : e.faultStep a = some e')
    (hcrash : a.isCrash) : e' = e.crash := by
  cases fault_kind hs with
  | @engine a e' hs =>
    cases a <;> first | contradiction | exact step_crash hs
  | _ => contradiction

theorem clocked_start (db_dir : Bytes) (limit : Int64) (target : ℕ) :
    Clocked (Engine.start db_dir limit target) := by
  rw [start_open, Store.start, start_eq]
  exact ⟨fun x hx => by contradiction, fun m hm => by contradiction, fun m hm => by contradiction,
    fun r hr => by contradiction, fun e he => by contradiction, fun b hb => by contradiction,
    fun run hrun => by contradiction, fun run hrun => by contradiction, List.nodup_nil⟩

/-- In a run whose restarts find every live SSTable covered by the log, the clocks cover what is
stored in every state, and a restart keeps that exactly when the log covers the SSTables. -/
theorem clock_covers_iff (db_dir : Bytes) (limit : Int64) (target : ℕ) {e : Engine}
    (h : Reach Engine.faultStep Engine.KeepsClock (Engine.start db_dir limit target) e) :
    e.ClockCovers ∧ (e.crash.ClockCovers ↔ e.LogCovers) := by
  have hinv : Clocked e := by
    refine h.invariant (I := Clocked) (clocked_start db_dir limit target) fun e a e' hi hok hs => ?_
    cases hcrash : a.isCrash with
    | true =>
      rw [faultStep_crash hs hcrash]
      exact clocked_crash hi.store.names (hok hcrash)
    | false => exact clocked_faultStep hi hs hcrash
  exact ⟨hinv.covers, clockCovers_crash_iff hinv.store.names⟩

instance (e : Engine) : Decidable e.LogCovers :=
  inferInstanceAs (Decidable (∀ l, ∀ ref ∈
    (e.store.reopened.store e.store.target_file_size).captureLevels l, ∀ x ∈ ref.reader.table.entries,
      ∃ entry ∈ e.wal.replayEntries.1, x.1.measurement = entry.measurement ∧
        x.1.timestamp ≤ entry.timestamp))

instance (e : Engine) (a : FaultAction) : Decidable (e.KeepsClock a) :=
  inferInstanceAs (Decidable (a.isCrash → e.LogCovers))

/-- A restart after a later point of the measurement went to the log. -/
theorem clock_covers_iff_restarted :
    ∃ e, Reach Engine.faultStep Engine.KeepsClock (Engine.start (ascii "db") 1000 0) e ∧
      e.Holds ⟨ascii "cpu", 5⟩ ∧ e.ClockCovers ∧ (e.crash.ClockCovers ↔ e.LogCovers) := by
  have hrun : (([EngineAction.put (ascii "cpu") 5 (ascii "v"), .flush, .takeImm, .buildSST, .logFlush,
      .finishFlush, .put (ascii "cpu") 6 (ascii "w"), .crash].map FaultAction.engine).foldlM
      (guarded Engine.faultStep Engine.KeepsClock) (Engine.start (ascii "db") 1000 0)).map (fun e =>
        decide (∃ ref ∈ e.store.captureLevels 0, ∃ x ∈ ref.reader.table.entries,
          x.1 = ⟨ascii "cpu", 5⟩)) = some true := by decide +kernel
  obtain ⟨e, he, hholds⟩ := Option.map_eq_some_iff.mp hrun
  have hreach := reach_of_foldlM he
  exact ⟨e, hreach, Or.inr (Or.inr ⟨0, of_decide_eq_true hholds⟩),
    clock_covers_iff (ascii "db") 1000 0 hreach⟩

/-- The flush takes the records to disk and the log away: after a restart the clock is not
set, and the point that a TTL of a second had expired is back. -/
theorem clock_lost_with_log :
    ∃ e, Reach Engine.faultStep (fun _ _ => True) (Engine.start (ascii "db") 1000 0) e ∧
      Reach Engine.faultStep (fun _ _ => True) (Engine.start (ascii "db") 1000 0) e.crash ∧
      ¬ e.crash.ClockCovers ∧
      Engine.get { e with ttl_map := setTTL e.ttl_map (ascii "cpu") 1 } ⟨ascii "cpu", 5⟩ = none ∧
      Engine.get { e.crash with ttl_map := setTTL e.crash.ttl_map (ascii "cpu") 1 }
        ⟨ascii "cpu", 5⟩ = some (ascii "v") := by
  have hrun : (([EngineAction.put (ascii "cpu") 5 (ascii "v"),
      .put (ascii "cpu") 10000000000000 (ascii "w"), .flush, .takeImm, .buildSST, .logFlush,
      .finishFlush].map FaultAction.engine).foldlM Engine.faultStep
      (Engine.start (ascii "db") 1000 0)).map (fun e =>
        (Engine.get { e with ttl_map := setTTL e.ttl_map (ascii "cpu") 1 } ⟨ascii "cpu", 5⟩,
          Engine.get { e.crash with ttl_map := setTTL e.crash.ttl_map (ascii "cpu") 1 }
            ⟨ascii "cpu", 5⟩, e.crash.ttl_map (ascii "cpu"),
          decide (∃ ref ∈ e.crash.store.captureLevels 0, ∃ x ∈ ref.reader.table.entries,
            x.1 = ⟨ascii "cpu", 5⟩), e.flush.locks)) =
      some (none, some (ascii "v"), none, true, false) := by decide +kernel
  obtain ⟨e, he, hstate⟩ := Option.map_eq_some_iff.mp hrun
  obtain ⟨hbefore, hafter, hclock, hholds, hlocks⟩ := by simpa only [Prod.mk.injEq] using hstate
  have hreach : Reach Engine.faultStep (fun _ _ => True) (Engine.start (ascii "db") 1000 0) e :=
    reach_foldlM (fun _ _ _ => trivial) he
  refine ⟨e, hreach, hreach.step (a := .engine .crash) trivial ?_, fun hcovers => ?_, hbefore, hafter⟩
  · simp [Engine.faultStep, Engine.fail, Engine.step, hlocks, FaultAction.isCrash, EngineAction.isCrash]
  · obtain ⟨rule, hrule, -⟩ := hcovers ⟨ascii "cpu", 5⟩ (Or.inr (Or.inr ⟨0, of_decide_eq_true hholds⟩))
    rw [hclock] at hrule
    contradiction

end MiniTsdb
