import MiniTsdb.Proofs.Provenance
import MiniTsdb.Spec.Opening

/-! An opening may die anywhere and any number of times: what it leaves opens to what it would
have opened to. Replay comes to rest on any bytes, removing tables that no version has changes
no version, and a scan finds the same tables again, or their snapshot. -/

namespace MiniTsdb
open Lib

theorem slice_take {s : Bytes} {v pos n : ℕ} (h : pos + n ≤ v) : slice (s.take v) pos n = slice s pos n := by
  rw [slice, slice, List.drop_take, List.take_take, min_eq_left (by omega)]

theorem readPhysicalRecord_take {data fragment : Bytes} {v offset record_end : ℕ}
    (h : readPhysicalRecord data offset = some (fragment, record_end)) (hv : record_end ≤ v) :
    readPhysicalRecord (data.take v) offset = some (fragment, record_end) := by
  obtain ⟨hlong, hin⟩ := readPhysicalRecord_end h
  have hcrc : decodeFixed32 (data.take v) offset = decodeFixed32 data offset := by
    rw [decodeFixed32, decodeFixed32, slice_take (by omega)]
  have hlen : decodeFixed32 (data.take v) (offset + 4) = decodeFixed32 data (offset + 4) := by
    rw [decodeFixed32, decodeFixed32, slice_take (by omega)]
  have hend : record_end = offset + 8 + decodeFixed32 data (offset + 4) := by
    unfold readPhysicalRecord at h
    dsimp only at h
    split_ifs at h
    simp_all
  rw [readPhysicalRecord] at h ⊢
  dsimp only at h ⊢
  rw [hcrc, hlen, slice_take (by omega), List.length_take, if_neg (by omega)]
  rwa [if_neg (by omega)] at h

/-- A record either leaves a payload open and what is complete as it was, or completes one. -/
theorem replayFragment_effect {st st' : ReplayState} {fragment : Bytes} {record_end : ℕ}
    (h : replayFragment st fragment record_end = some st') :
    st'.has_tail_corruption = st.has_tail_corruption ∧
      (st'.assembling = true ∧ st'.valid_offset = st.valid_offset ∧ st'.emitted = st.emitted ∨
        st'.assembling = false ∧ st'.valid_offset = record_end) := by
  unfold replayFragment at h
  dsimp only at h
  split_ifs at h with hfull hasm hput
  · cases hnew : decodeLogicalRecord fragment.tail with
    | some e =>
      rw [hnew] at h
      obtain rfl := Option.some.inj h
      exact ⟨rfl, Or.inr ⟨by simpa using hasm, rfl⟩⟩
    | none =>
      rw [hnew] at h
      dsimp only at h
      split at h
      · obtain rfl := Option.some.inj h
        exact ⟨rfl, Or.inr ⟨by simpa using hasm, rfl⟩⟩
      · contradiction
  · exact absurd hfull hput
  · obtain rfl := Option.some.inj h
    exact ⟨rfl, Or.inl ⟨rfl, rfl, rfl⟩⟩
  · obtain rfl := Option.some.inj h
    exact ⟨rfl, Or.inl ⟨by assumption, rfl, rfl⟩⟩
  · split at h
    · obtain rfl := Option.some.inj h
      exact ⟨rfl, Or.inr ⟨rfl, rfl⟩⟩
    · contradiction

/-- The loop before any damage: nothing is open where the last record was complete. -/
structure ReplayState.Sane (st : ReplayState) : Prop where
  valid : st.valid_offset ≤ st.offset
  closed : st.valid_offset = st.offset → st.assembling = false
  whole : st.has_tail_corruption = false

theorem ReplayState.Sane.next {st st' : ReplayState} {data fragment : Bytes} {record_end : ℕ}
    (h : st.Sane) (hread : readPhysicalRecord data st.offset = some (fragment, record_end))
    (hstep : replayFragment st fragment record_end = some st') :
    ReplayState.Sane { st' with offset := record_end } := by
  have hlong := (readPhysicalRecord_end hread).1
  have hvalid := h.valid
  obtain ⟨hsame, ⟨hopen, hoffset, -⟩ | ⟨hclosed, hoffset⟩⟩ := replayFragment_effect hstep
  · refine ⟨?_, fun heq => ?_, hsame.trans h.whole⟩
    · change st'.valid_offset ≤ record_end
      omega
    · change st'.valid_offset = record_end at heq
      omega
  · exact ⟨hoffset.le, fun _ => hclosed, hsame.trans h.whole⟩

theorem replayLoop_next {data fragment : Bytes} {st st' : ReplayState} {record_end : ℕ}
    (hread : readPhysicalRecord data st.offset = some (fragment, record_end))
    (hstep : replayFragment st fragment record_end = some st') :
    replayLoop data st = replayLoop data { st' with offset := record_end } := by
  have hends := readPhysicalRecord_end hread
  rw [replayLoop, if_pos (by unfold kPhysicalHeaderSize; omega)]
  split
  · rename_i h
    rw [hread] at h
    contradiction
  · rename_i h
    obtain ⟨rfl, rfl⟩ := Prod.mk.inj (Option.some.inj (hread.symm.trans h))
    rw [hstep]

theorem replayLoop_stop {data : Bytes} {st : ReplayState}
    (h : ∀ fragment record_end, st.offset + kPhysicalHeaderSize ≤ data.length →
      readPhysicalRecord data st.offset = some (fragment, record_end) →
        replayFragment st fragment record_end = none) :
    (replayLoop data st).valid_offset = st.valid_offset ∧ (replayLoop data st).emitted = st.emitted := by
  rw [replayLoop]
  split_ifs with hlen
  · split
    · exact ⟨rfl, rfl⟩
    · rename_i fragment record_end hread
      rw [h _ _ hlen hread]
      exact ⟨rfl, rfl⟩
  · exact ⟨rfl, rfl⟩

/-- What the loop left in `fin` when it started at `st`: cut where its last complete record ends,
the log takes it there again, with no damage to see, unless that is behind it. -/
structure Kept (data : Bytes) (st fin : ReplayState) : Prop where
  replay : st.offset ≤ fin.valid_offset →
    (replayLoop (data.take fin.valid_offset) st).emitted = fin.emitted ∧
      ((replayLoop (data.take fin.valid_offset) st).has_tail_corruption ||
        (replayLoop (data.take fin.valid_offset) st).assembling) = false
  behind : fin.valid_offset < st.offset →
    fin.valid_offset = st.valid_offset ∧ fin.emitted = st.emitted

theorem kept_stop {data : Bytes} {st fin : ReplayState} (h : st.Sane)
    (hvalid : fin.valid_offset = st.valid_offset) (hemitted : fin.emitted = st.emitted) :
    Kept data st fin := by
  refine ⟨fun hoffset => ?_, fun _ => ⟨hvalid, hemitted⟩⟩
  have hle := h.valid
  have hend : replayLoop (data.take fin.valid_offset) st = st := by
    rw [replayLoop, if_neg]
    rw [List.length_take, hvalid]
    unfold kPhysicalHeaderSize
    omega
  rw [hend, h.whole, h.closed (by omega)]
  exact ⟨hemitted.symm, rfl⟩

theorem kept_loop {data : Bytes} {st : ReplayState} (h : st.Sane) : Kept data st (replayLoop data st) := by
  induction st using replayLoop.induct data with
  | case1 st hlen hread =>
    obtain ⟨hvalid, hemitted⟩ := @replayLoop_stop data st fun _ _ _ h => by
      rw [hread] at h
      contradiction
    exact kept_stop h hvalid hemitted
  | case2 st hlen fragment record_end hread hfragment =>
    obtain ⟨hvalid, hemitted⟩ := @replayLoop_stop data st fun _ _ _ h => by
      rw [hread] at h
      obtain ⟨rfl, rfl⟩ := Prod.mk.inj (Option.some.inj h)
      exact hfragment
    exact kept_stop h hvalid hemitted
  | case3 st hlen fragment record_end hread st' hfragment ih =>
    have hkept := ih (h.next hread hfragment)
    rw [replayLoop_next hread hfragment]
    generalize replayLoop data { st' with offset := record_end } = fin at hkept ⊢
    have hlong := (readPhysicalRecord_end hread).1
    by_cases hahead : record_end ≤ fin.valid_offset
    · refine ⟨fun _ => ?_, fun hbehind => by omega⟩
      rw [replayLoop_next (readPhysicalRecord_take hread hahead) hfragment]
      exact hkept.replay hahead
    · -- the record is part of a payload that is never complete
      obtain ⟨hvalid, hemitted⟩ := hkept.behind (not_le.mp hahead)
      obtain ⟨-, ⟨-, hoffset, hsame⟩ | ⟨-, hoffset⟩⟩ := replayFragment_effect hfragment
      · exact kept_stop h (hvalid.trans hoffset) (hemitted.trans hsame)
      · exact absurd (hvalid.trans hoffset).ge hahead
  | case4 st hlen =>
    obtain ⟨hvalid, hemitted⟩ := @replayLoop_stop data st fun _ _ hroom _ =>
      absurd hroom hlen
    exact kept_stop h hvalid hemitted

/-- Whatever bytes a log has, a second replay finds the operations of the first and nothing
to cut off. -/
theorem replayEntries_again (wal : WAL) :
    wal.replayEntries.2.replayEntries = wal.replayEntries := by
  have hkept := @kept_loop wal.file .init ⟨le_rfl, fun _ => rfl, rfl⟩
  obtain ⟨hemitted, hsound⟩ := hkept.replay (Nat.zero_le _)
  by_cases hcorrupt : ((replayLoop wal.file .init).has_tail_corruption ||
      (replayLoop wal.file .init).assembling) = true
  · have hcut : wal.replayEntries.2 = ⟨wal.file.take (replayLoop wal.file .init).valid_offset⟩ := by
      rw [WAL.replayEntries]
      exact if_pos hcorrupt
    have hfirst : wal.replayEntries.1 = (replayLoop wal.file .init).emitted := rfl
    refine Prod.ext ?_ ?_
    · rw [hcut, hfirst, ← hemitted]
      rfl
    · rw [hcut, WAL.replayEntries]
      exact if_neg (by rw [hsound]; exact Bool.false_ne_true)
  · have hsame : wal.replayEntries.2 = wal := by
      rw [WAL.replayEntries]
      exact if_neg hcorrupt
    rw [hsame]

/-- Of a recovered directory scan that finds nothing, no file is written. -/
theorem load_files_of_empty {s : Startup} (hs : s.vm.current.IsEmpty)
    (h : s.loadExistingSSTables.vm.current.IsEmpty) : s.loadExistingSSTables.files = s.files := by
  rw [load_of_empty hs, Startup.scanDirectory] at h ⊢
  dsimp only at h ⊢
  split_ifs at h ⊢ with hpos
  · exact absurd h ((numFiles_pos_iff _).mp hpos)
  · exact foldl_addScanned_files _ _

theorem StoreInv.withDir {scanned : TsKey → Bool} {s : Store} (h : StoreInv scanned s) (hbuilt : s.built = none)
    (hrun : s.compaction = none) {dir : SstDir}
    (hdir : ∀ l, ∀ f ∈ s.vmgr.current.level_files l,
      openTable s.vmgr.db_dir dir f.file_name = some (s.tableAt f)) :
    StoreInv scanned { s with dir := dir } := by
  refine ⟨h.name_eq, h.ordered, h.below, fun l f hf => ?_, h.one_level, h.level_one, h.readers,
    h.retired, h.unpublished_lt, h.unpublished_new, h.unpublished_nodup, ?_, h.in_progress, h.compacting, ?_⟩
  · have hlive := h.live l f hf
    exact ⟨hlive.path, hlive.reader, hdir l f hf, hlive.meta_eq, hlive.ascending⟩
  · intro n t hsome
    change s.built = some (n, t) at hsome
    rw [hbuilt] at hsome
    contradiction
  · intro run hsome
    change s.compaction = some run at hsome
    rw [hrun] at hsome
    contradiction

/-- An engine that stands for a disk: the tables it would open show `shown` of each key. -/
structure Stands (shown : TsKey → List InternalEntry) (entries : List WalEntry) (e : Engine) (d : Disk) :
    Prop where
  disk : e.disk = d
  engine : EngineInv e
  ondisk : EngineDisk e
  reopens : e.Reopens
  shown : ∀ key, e.crash.store.met key = shown key
  entries : d.wal.replayEntries.1 = entries

section
variable {shown : TsKey → List InternalEntry} {entries : List WalEntry} {e : Engine} {d : Disk}

theorem open_get (e : Engine) (limit : Int64) (target : ℕ) (key : TsKey) :
    (e.disk.open limit target).get key = e.crash.get key := by
  rw [Disk.open, Engine.crash, Engine.open, Engine.open]
  rfl

theorem Stands.get (h : Stands shown entries e d) (limit : Int64) (target : ℕ) (key : TsKey) :
    (d.open limit target).get key =
      (((entries.foldl replayHandler (.new, fun _ => none)).1.getEntry key).or (shown key).head?).bind
        InternalEntry.read := by
  obtain ⟨hcrashed, -⟩ := engineInv_crash h.engine h.ondisk h.reopens
  obtain ⟨-, himm, -⟩ := crash_idle e
  have hmem : e.crash.mem = (entries.foldl replayHandler (.new, fun _ => none)).1 := by
    rw [← h.entries, ← h.disk]
    exact congrArg Prod.fst (crash_memory e)
  rw [← h.disk, open_get, get_eq hcrashed, (noTtl_crash e).now.not_expired, if_neg Bool.false_ne_true,
    Engine.viewed, himm, hmem, h.shown key]
  cases (entries.foldl replayHandler (.new, fun _ => none)).1.getEntry key <;> simp

/-- A directory that still has the tables of the version which an opening recovered or found
opens to it again. -/
theorem Stands.again (h : Stands shown entries e d) (hne : ¬ e.crash.store.vmgr.current.IsEmpty)
    {dir : SstDir} (hsub : dir.Sublist e.store.dir)
    (hdir : ∀ l, ∀ f ∈ e.crash.store.vmgr.current.level_files l,
      openTable e.crash.store.vmgr.db_dir dir f.file_name = some (e.crash.store.tableAt f))
    {wal : WAL} (hwal : wal.replayEntries.1 = entries) :
    Stands shown entries { e.crash with store := { e.crash.store with dir := dir }, wal := wal }
      { d with files := e.crash.store.files, dir := dir, wal := wal } := by
  obtain ⟨hcrashed, hon⟩ := engineInv_crash h.engine h.ondisk h.reopens
  obtain ⟨hidle, -, -⟩ := crash_idle e
  have hidle_store : e.crash.store.built = none ∧ e.crash.store.compaction = none := by
    rw [crash_store]
    exact ⟨rfl, rfl⟩
  have hstore := hcrashed.store.withDir hidle_store.1 hidle_store.2 hdir
  have hversion := reopen_version hstore hon.logged hne
  refine ⟨?_, ⟨hstore, ?_, fun hbusy => absurd hidle hbusy, hcrashed.low⟩,
    ⟨h.ondisk.disk.keep hsub, fun f hf => h.ondisk.above f (hsub.subset hf), hon.logged⟩, Or.inl hne, ?_, hwal⟩
  · rw [← h.disk, Engine.disk, Engine.disk, (crash_dir h.engine h.ondisk h.reopens).1]
  · rw [FlushInv, hidle]
    exact hidle_store.1
  · intro key
    rw [← h.shown key, crash_store]
    exact hversion.met _ key

theorem Stands.loaded (h : Stands shown entries e d) {wal : WAL} (hwal : wal.replayEntries.1 = entries) :
    ∃ e', Stands shown entries e' { d.interrupted .loaded with wal := wal } := by
  have hload : d.interrupted .loaded =
      { d with files := e.store.reopened.files, dir := e.store.reopened.dir } := by
    rw [← h.disk]
    rfl
  have hcrash : e.crash.store = e.store.reopened.store e.store.target_file_size := crash_store e
  obtain ⟨-, hsub⟩ := crash_dir h.engine h.ondisk h.reopens
  rw [hload]
  by_cases hempty : e.crash.store.vmgr.current.IsEmpty
  · -- nothing is found: the disk stays as it is
    have hfound : e.store.reopened.vm.current.IsEmpty := by
      rw [hcrash] at hempty
      exact hempty
    have hnone : e.store.vmgr.current.IsEmpty := by
      by_contra hne
      have hr := reopen_version h.engine.store h.ondisk.logged hne
      rw [hr.recovered.current] at hfound
      exact hne hfound
    have hinit : (VersionManager.init e.store.vmgr.db_dir e.store.files).1.current.IsEmpty := by
      rw [(recover_logged h.ondisk.logged).1.current]
      exact hnone
    have hr := reopen_scan h.ondisk.disk h.ondisk.logged hnone (h.reopens.resolve_left (not_not.mpr hnone)).1
    have hfiles : e.store.reopened.files = e.store.files := load_files_of_empty hinit hfound
    refine ⟨{ e with wal := wal }, ?_, ⟨h.engine.store, h.engine.flush, h.engine.imm, h.engine.low⟩,
      ⟨h.ondisk.disk, h.ondisk.above, h.ondisk.logged⟩, h.reopens, fun key => ?_, hwal⟩
    · rw [hfiles, hr.dir, ← h.disk]
      rfl
    · rw [← h.shown key, crash_store, crash_store]
  · obtain ⟨hcrashed, -⟩ := engineInv_crash h.engine h.ondisk h.reopens
    have hagain := h.again hempty hsub (fun l f hf => (hcrashed.store.live l f hf).disk) hwal
    rw [hcrash] at hagain
    exact ⟨_, hagain⟩

theorem collectPassed_opened (s : Startup) (passed : List Bytes) :
    s.openReadersForCurrentVersion.collectPassed passed = s.collectPassed passed := by
  obtain ⟨hcurrent, hdir, -⟩ := openReaders_frame (s.vm.current.allFiles.map Prod.snd) s
  rw [Startup.collectPassed, Startup.collectPassed, Startup.openReadersForCurrentVersion, hcurrent, hdir]

theorem Stands.collecting (h : Stands shown entries e d) (passed : List Bytes) :
    ∃ e', Stands shown entries e' (d.interrupted (.collecting passed)) := by
  obtain ⟨hrec, -⟩ := recover_logged h.ondisk.logged
  have hsame : d = e.disk := h.disk.symm
  subst hsame
  by_cases hempty : e.store.vmgr.current.IsEmpty
  · refine ⟨e, ?_⟩
    have hnone : ¬ 0 < (VersionManager.init e.store.vmgr.db_dir e.store.files).1.numFiles := by
      rw [numFiles_pos_iff, hrec.current]
      exact not_not.mpr hempty
    have hstays : e.disk.interrupted (.collecting passed) = e.disk := if_neg hnone
    rw [hstays]
    exact h
  · have hr := reopen_version h.engine.store h.ondisk.logged hempty
    have hcrash : e.crash.store = e.store.reopened.store e.store.target_file_size := crash_store e
    have hpos : 0 < (VersionManager.init e.store.vmgr.db_dir e.store.files).1.numFiles := by
      rw [numFiles_pos_iff, hrec.current]
      exact hempty
    set left : SstDir := e.store.dir.filter fun f =>
      !(passed.contains f.1 && (isSst f.1 && !(e.store.vmgr.current.liveFiles.contains f.1))) with hleft
    have hcollected : Startup.collectPassed
        ⟨(VersionManager.init e.store.vmgr.db_dir e.store.files).1, [], e.store.files, e.store.dir⟩ passed =
          left := by
      rw [Startup.collectPassed, hleft, ← hrec.current]
    have hinterrupted : e.disk.interrupted (.collecting passed) = { e.disk with dir := left } := by
      refine (if_pos hpos).trans ?_
      rw [collectPassed_opened, ← hcollected]
      rfl
    have htables : ∀ l, ∀ f ∈ e.crash.store.vmgr.current.level_files l,
        openTable e.crash.store.vmgr.db_dir left f.file_name = some (e.crash.store.tableAt f) := by
      intro l f hf
      rw [hcrash] at hf ⊢
      change f ∈ e.store.reopened.vm.current.level_files l at hf
      rw [hr.recovered.current] at hf
      have hlive := h.engine.store.live l f hf
      change openTable e.store.reopened.vm.db_dir left f.file_name = _
      rw [hr.tableAt e.store.target_file_size hf, hr.recovered.dir_eq, ← hlive.disk, hleft]
      refine openTable_filter fun g _ hg => ?_
      have hname := hlive.path
      rw [VersionManager.newFileName] at hname
      rw [hname] at hg
      have hkept := mem_liveFiles hf
      rw [hname, baseName_newFileName, ← joinPath_inj hg] at hkept
      simp [hkept]
    have hne : ¬ e.crash.store.vmgr.current.IsEmpty := by
      rw [hcrash]
      change ¬ e.store.reopened.vm.current.IsEmpty
      rw [hr.recovered.current]
      exact hempty
    have hagain := h.again hne List.filter_sublist htables h.entries
    have hfiles : e.crash.store.files = e.store.files := by
      rw [hcrash]
      exact hr.files
    rw [hfiles] at hagain
    rw [hinterrupted]
    exact ⟨_, hagain⟩

theorem Stands.interrupted (h : Stands shown entries e d) (stage : OpeningStage) :
    ∃ e', Stands shown entries e' (d.interrupted stage) := by
  cases stage with
  | collecting passed => exact h.collecting passed
  | loaded => exact h.loaded h.entries
  | replayed =>
    refine h.loaded ?_
    rw [replayEntries_again]
    exact h.entries

theorem stands_foldl (stages : List OpeningStage) (h : Stands shown entries e d) :
    ∃ e', Stands shown entries e' (stages.foldl Disk.interrupted d) := by
  induction stages generalizing e d with
  | nil => exact ⟨e, h⟩
  | cons stage stages ih =>
    obtain ⟨e', h'⟩ := h.interrupted stage
    exact ih h'

end

/-- From any state that a run reaches, with whatever bytes in the log: an opening that completes
behind any number of openings that died, each at any of its stages, reads of every key what an
opening reads that comes first. -/
theorem opening_may_die (db_dir : Bytes) (limit : Int64) (target : ℕ) {e : Engine}
    (h : Reach Engine.step Engine.ReadsBack (Engine.start db_dir limit target) e) (hok : e.Reopens)
    (wal : WAL) (stages : List OpeningStage) (limit' : Int64) (target' : ℕ) (key : TsKey) :
    ((stages.foldl Disk.interrupted { e.disk with wal := wal }).open limit' target').get key =
      (e.recover wal).get key := by
  obtain ⟨hinv, hdisk⟩ := engineDisk_run h
  have hstands : Stands (fun key => e.crash.store.met key) wal.replayEntries.1 { e with wal := wal }
      { e.disk with wal := wal } := by
    refine ⟨rfl, ⟨hinv.store, hinv.flush, hinv.imm, hinv.low⟩,
      ⟨hdisk.disk, hdisk.above, hdisk.logged⟩, hok, fun key => ?_, rfl⟩
    rw [crash_store, crash_store]
  obtain ⟨e', h'⟩ := stands_foldl stages hstands
  rw [h'.get limit' target' key, ← hstands.get limit' target' key]
  exact open_get { e with wal := wal } limit' target' key

/-- A table in the version, one that a flush has just built, and a record torn behind the log. -/
def builtSecond : List EngineAction :=
  [.put (ascii "cpu") 5 (ascii "v"), .flush, .takeImm, .buildSST, .logFlush, .finishFlush,
    .put (ascii "cpu") 6 (ascii "w"), .flush, .takeImm, .buildSST]

theorem opening_may_die_builtSecond : ∃ e,
    Reach Engine.step Engine.ReadsBack (Engine.start (ascii "db") 1000 0) e ∧
      ∀ t ∈ ([5, 6] : List Int64),
        (([.collecting [sstName 2], .loaded, .replayed, .collecting []].foldl Disk.interrupted
          { e.disk with wal := ⟨e.wal.file ++ List.replicate 12 7⟩ }).open 500 9).get ⟨ascii "cpu", t⟩ =
            if t = 5 then some (ascii "v") else some (ascii "w") := by
  have hrun : ((builtSecond.foldlM (guarded Engine.step fun e a => a.isCrash = false ∧ e.LogsBack a)
      (Engine.start (ascii "db") 1000 0)).map fun e =>
        ((e.store.vmgr.current.level_files 0).length,
          ([5, 6] : List Int64).map fun t =>
            (e.recover ⟨e.wal.file ++ List.replicate 12 7⟩).get ⟨ascii "cpu", t⟩)) =
      some (1, [some (ascii "v"), some (ascii "w")]) := by decide +kernel
  obtain ⟨e, he, hstate⟩ := Option.map_eq_some_iff.mp hrun
  obtain ⟨hlive, hreads⟩ := Prod.mk.inj hstate
  have hreach := readsBack_of_foldlM he
  have hok : e.Reopens := by
    refine Or.inl fun hempty => ?_
    rw [hempty 0] at hlive
    contradiction
  have hsame := opening_may_die (ascii "db") 1000 0 hreach hok ⟨e.wal.file ++ List.replicate 12 7⟩
    [.collecting [sstName 2], .loaded, .replayed, .collecting []] 500 9
  simp only [List.map_cons, List.map_nil, List.cons.injEq, and_true] at hreads
  refine ⟨e, hreach, fun t ht => ?_⟩
  rw [hsame]
  simp only [List.mem_cons, List.not_mem_nil, or_false] at ht
  rcases ht with rfl | rfl
  · exact hreads.1
  · exact hreads.2

end MiniTsdb
