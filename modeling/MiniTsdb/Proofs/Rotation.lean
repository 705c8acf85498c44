import MiniTsdb.Proofs.Counter
import MiniTsdb.Proofs.EngineDisk
import MiniTsdb.Proofs.FaultSteps

/-! From the memtable to its L0 file: `imm_` and the flush thread exclude each other, every
rotated memtable is taken once, in order, and its file gets the next number. -/

namespace MiniTsdb
open Lib

def Engine.Exclusive (e : Engine) : Prop := e.imm = none ∨ e.flush = .idle

theorem callRule_exclusive : CallRule Engine.Exclusive :=
  ⟨fun _ _ _ _ h => h, fun _ _ _ hidle => Or.inr hidle, fun _ _ _ h => h⟩

theorem exclusive_step {e e' : Engine} {a : EngineAction} (h : e.Exclusive)
    (hs : e.step a = some e') : e'.Exclusive := by
  have hbusy : e.flush ≠ .idle → e.imm = none := fun hne => h.resolve_right hne
  cases step_kind hs with
  | noop => exact h
  | enter hops => exact callRule_exclusive.enter h _
  | resume hr => exact callRule_exclusive.resume h hr
  | rotate hr =>
    obtain ⟨rfl, himm, hidle⟩ := flushMem_eq hr
    exact callRule_exclusive.rotate e h himm hidle
  | takeImm ht =>
    obtain ⟨m, -, -, rfl⟩ := takeImm_eq ht
    exact Or.inl rfl
  | buildSST hb =>
    obtain ⟨m, s, hflush, -, rfl⟩ := buildSST_eq hb
    exact Or.inl (hbusy (by rw [hflush]; simp))
  | logFlush hl =>
    obtain ⟨m, s, hflush, -, rfl⟩ := logFlush_eq hl
    exact Or.inl (hbusy (by rw [hflush]; simp))
  | finishFlush hf =>
    obtain ⟨m, -, rfl⟩ := finishFlush_eq hf
    exact Or.inr rfl
  | store _ _ => exact h
  | commit _ _ => exact h
  | setTTL => exact h
  | closing _ hc =>
    rw [closing_eq hc]
    exact h
  | shutdown _ hd =>
    obtain ⟨s, -, rfl⟩ := shutdown_spec hd
    exact h
  | crash => exact Or.inl (crash_idle e).2.1

theorem exclusive_fault {e e' : Engine} {a : FaultAction} (h : e.Exclusive)
    (hs : e.faultStep a = some e') : e'.Exclusive := by
  cases fault_kind hs with
  | engine hs => exact exclusive_step h hs
  | finishError _ _ => exact Or.inr rfl
  | openError _ _ => exact Or.inr rfl
  | logFlushError _ _ => exact Or.inr rfl
  | runError _ _ => exact h
  | commitError _ _ => exact h

/-- The usage of `mem_` is below the limit. -/
def Engine.HasRoom (e : Engine) : Prop := (e.mem.mem_usage : ℤ) < e.memtable_limit.toInt

/-- The call that enters or goes on with an action returns in its step. -/
def Engine.Returns (e e' : Engine) : EngineAction → Prop
  | .put _ _ _ => e'.inside e.next_call = false
  | .delete _ _ => e'.inside e.next_call = false
  | .write batch => batch ≠ [] ∧ e'.inside e.next_call = false
  | .resume id => e'.inside id = false
  | _ => False

theorem toNat_limit {limit : Int64} (h : 0 < limit) :
    (limit.toUInt64.toNat : ℤ) = limit.toInt := by
  rw [Int64.toNat_toUInt64_of_le (Int64.le_of_lt h)]
  exact Int.toNat_of_nonneg (Int64.le_iff_toInt_le.mp (Int64.le_of_lt h))

section
variable {e e' : Engine} (hrunning : e.closing.running = true) (hlimit : 0 < e.memtable_limit)
include hrunning hlimit

theorem makeRoom_hasRoom (hr : e.makeRoomForWrite = some e') :
    e'.HasRoom ∧ e'.closing = e.closing ∧ e'.memtable_limit = e.memtable_limit := by
  have hpos := toNat_limit hlimit
  unfold Engine.makeRoomForWrite at hr
  split_ifs at hr with hstop husage hfree
  · obtain rfl := Option.some.inj hr
    refine ⟨?_, rfl, rfl⟩
    rw [Engine.HasRoom, ← hpos]
    exact_mod_cast husage
  · obtain rfl := Option.some.inj hr
    exact ⟨Int64.lt_iff_toInt_lt.mp hlimit, rfl, rfl⟩

theorem wakeUp_hasRoom (hr : e.wakeUp = some e') :
    e'.HasRoom ∧ e'.closing = e.closing ∧ e'.memtable_limit = e.memtable_limit := by
  unfold Engine.wakeUp at hr
  rw [if_pos hrunning] at hr
  exact makeRoom_hasRoom hrunning hlimit hr

end

/-- While the engine runs, a call waits or leaves room. -/
theorem applyOps_hasRoom {e : Engine} {id : ℕ} {ops : List Operation} (hroom : e.HasRoom)
    (hrunning : e.closing.running = true) (hlimit : 0 < e.memtable_limit) :
    (e.applyOps id ops).inside id = true ∨ (e.applyOps id ops).HasRoom := by
  induction ops generalizing e with
  | nil => exact Or.inr hroom
  | cons op ops ih =>
    rw [Engine.applyOps]
    cases hr : (e.applyOp id op).makeRoomForWrite with
    | none =>
      left
      simp [Engine.inside]
    | some e₁ =>
      obtain ⟨hroom₁, hclosing, hsame⟩ := makeRoom_hasRoom (e := e.applyOp id op) hrunning hlimit hr
      exact ih hroom₁ (by rw [hclosing]; exact hrunning) (by rw [hsame]; exact hlimit)

theorem callRule_settings (c : CloseStage) (limit : Int64) :
    CallRule fun e => e.closing = c ∧ e.memtable_limit = limit :=
  ⟨fun _ _ _ _ h => h, fun _ h _ _ => h, fun _ _ _ h => h⟩

theorem enter_hasRoom {e : Engine} {ops : List Operation} (hrunning : e.closing.running = true)
    (hlimit : 0 < e.memtable_limit) (hreturns : (e.enter ops).inside e.next_call = false) :
    (e.enter ops).HasRoom := by
  unfold Engine.enter at hreturns ⊢
  dsimp only at hreturns ⊢
  cases hr : Engine.makeRoomForWrite { e with next_call := e.next_call + 1 } with
  | none =>
    rw [hr] at hreturns
    simp [Engine.inside] at hreturns
  | some e₁ =>
    rw [hr] at hreturns
    change (e₁.logAndApplyOps e.next_call ops).inside e.next_call = false at hreturns
    obtain ⟨hroom, hclosing, hsame⟩ :=
      makeRoom_hasRoom (e := { e with next_call := e.next_call + 1 }) hrunning hlimit hr
    refine (applyOps_hasRoom (e := { e₁ with wal := e₁.wal.appendAll ops }) hroom ?_ ?_).resolve_left
      fun hinside => ?_
    · rw [hclosing]
      exact hrunning
    · rw [hsame]
      exact hlimit
    · rw [Engine.logAndApplyOps, hinside] at hreturns
      contradiction

theorem resume_hasRoom {e e' : Engine} {id : ℕ} (hrunning : e.closing.running = true)
    (hlimit : 0 < e.memtable_limit) (hs : e.resume id = some e') (hreturns : e'.inside id = false) :
    e'.HasRoom := by
  unfold Engine.resume at hs
  split at hs
  · contradiction
  · rename_i c hc
    obtain ⟨e₁, hr, rfl⟩ := Option.map_eq_some_iff.mp hs
    obtain ⟨hroom, hclosing, hsame⟩ := wakeUp_hasRoom hrunning hlimit hr
    rw [← hclosing] at hrunning
    rw [← hsame] at hlimit
    dsimp only at hreturns ⊢
    split_ifs at hreturns ⊢ with hlogged
    · refine (applyOps_hasRoom ?_ ?_ ?_).resolve_left fun hinside => ?_
      · exact hroom
      · exact hrunning
      · exact hlimit
      · rw [hinside] at hreturns
        contradiction
    · refine (applyOps_hasRoom ?_ ?_ ?_).resolve_left fun hinside => ?_
      · exact hroom
      · exact hrunning
      · exact hlimit
      · rw [Engine.logAndApplyOps, hinside] at hreturns
        contradiction

/-- A call that returns while the engine runs leaves `mem_` below its limit. -/
theorem returns_hasRoom {e e' : Engine} {a : EngineAction} (hs : e.step a = some e')
    (hreturns : e.Returns e' a) (hrunning : e'.closing.running = true)
    (hlimit : 0 < e'.memtable_limit) : e'.HasRoom := by
  have henter : ∀ ops, e' = e.enter ops → e'.inside e.next_call = false → e'.HasRoom := by
    rintro ops rfl hinside
    obtain ⟨hclosing, hsame⟩ := (callRule_settings e.closing e.memtable_limit).enter ⟨rfl, rfl⟩ ops
    exact enter_hasRoom (hclosing ▸ hrunning) (hsame ▸ hlimit) hinside
  cases step_kind hs with
  | noop => exact absurd rfl hreturns.1
  | @enter a ops hops =>
    cases a with
    | put measurement timestamp value => exact henter ops rfl hreturns
    | delete measurement timestamp => exact henter ops rfl hreturns
    | write batch => exact henter ops rfl hreturns.2
    | _ => contradiction
  | resume hr =>
    obtain ⟨hclosing, hsame⟩ := (callRule_settings e.closing e.memtable_limit).resume ⟨rfl, rfl⟩ hr
    exact resume_hasRoom (hclosing ▸ hrunning) (hsame ▸ hlimit) hr hreturns
  | @store a _ _ hb _ => cases a <;> contradiction
  | @closing a _ hc _ => cases a <;> contradiction
  | _ => exact absurd hreturns id

/-- The numbers of the committed flushes, in their order. -/
def Engine.flushNumbers (e : Engine) : List ℕ := e.flushes.map Prod.snd

/-- Of the rotated memtables the first are on disk, one may be with the flush thread, and the
last may be `imm_`; the numbers of the files on disk increase, in memory and in the files the
counter is past them. -/
structure RotationInv (e : Engine) : Prop where
  rotated : e.rotated = e.taken ++ e.imm.toList
  taken : e.taken = e.flushes.map Prod.fst ++ e.flush.hidden.toList
  ordered : e.flushNumbers.Pairwise (· < ·)
  below : ∀ n ∈ e.flushNumbers, n < e.store.vmgr.next_file_number
  built : ∀ n t, e.store.built = some (n, t) → ∀ m ∈ e.flushNumbers, m < n
  saved : ∀ n ∈ e.flushNumbers, n < e.store.savedNext

theorem callRule_rotationInv : CallRule RotationInv := by
  refine ⟨fun e wal calls n h => ?_, fun e h himm _ => ?_, fun e id op h => ?_⟩
  · exact ⟨h.rotated, h.taken, h.ordered, h.below, h.built, h.saved⟩
  · refine ⟨?_, h.taken, h.ordered, h.below, h.built, h.saved⟩
    have hrotated := h.rotated
    rw [himm, Option.toList_none, List.append_nil] at hrotated
    exact congrArg (· ++ [e.mem]) hrotated
  · exact ⟨h.rotated, h.taken, h.ordered, h.below, h.built, h.saved⟩

theorem numbers_step {e : Engine} {s : Store} {b : StoreAction} (h : RotationInv e)
    (hinv : EngineInv e) (hdisk : EngineDisk e) (hscans : StoreScans sstScanned e.store b)
    (hback : e.store.LogsBack b) (hs : e.store.step b = some s) {n : ℕ} (hn : n ∈ e.flushNumbers) :
    n < s.vmgr.next_file_number ∧ n < s.savedNext :=
  saved_step hinv.store hdisk.logged hscans hback hs (h.below n hn) (h.saved n hn)

theorem RotationInv.store {e : Engine} {s : Store} {b : StoreAction} {closing : CloseStage}
    (h : RotationInv e) (hinv : EngineInv e) (hdisk : EngineDisk e)
    (hscans : StoreScans sstScanned e.store b) (hback : e.store.LogsBack b)
    (hs : e.store.step b = some s) (hbackground : b.background = true) :
    RotationInv { e with store := s, closing := closing } := by
  have hbuilt := background_built hbackground (met_step hinv.store hs)
  refine ⟨h.rotated, h.taken, h.ordered, fun n hn => ?_, fun n t hb => ?_, fun n hn => ?_⟩
  · exact (numbers_step h hinv hdisk hscans hback hs hn).1
  · exact h.built n t (hbuilt.symm.trans hb)
  · exact (numbers_step h hinv hdisk hscans hback hs hn).2

theorem build_number {s s' : Store} {entries : List (TsKey × InternalEntry)}
    (hs : s.step (.build entries) = some s') {n : ℕ} {t : SSTable} (hb : s'.built = some (n, t)) :
    n = s.vmgr.next_file_number := by
  cases store_kind hs with
  | build => exact (Prod.mk.inj (Option.some.inj hb)).1.symm

theorem rotationInv_buildSST {e e' : Engine} (h : RotationInv e) (hinv : EngineInv e)
    (hdisk : EngineDisk e) (hs : e.buildSST = some e') : RotationInv e' := by
  obtain ⟨m, s, hflush, hb, rfl⟩ := buildSST_eq hs
  have hscans : StoreScans sstScanned e.store (.build m.iterateEntries) := ascending_iterateEntries m
  have hback : e.store.LogsBack (.build m.iterateEntries) := fun edit hedit => by contradiction
  have htaken := h.taken
  rw [hflush] at htaken
  refine ⟨h.rotated, htaken, h.ordered, fun n hn => ?_, fun n t hbuilt n' hn' => ?_, fun n hn => ?_⟩
  · exact (numbers_step h hinv hdisk hscans hback hb hn).1
  · rw [build_number hb hbuilt]
    exact h.below n' hn'
  · exact (numbers_step h hinv hdisk hscans hback hb hn).2

/-- A committed flush: one file more, in L0, under the number that its memtable gets. -/
structure Flushed (e e' : Engine) (m : MemTable) (f : FileMeta) : Prop where
  memtable : e.flush = .built m
  flushes : e'.flushes = e.flushes ++ [(m, f.file_number)]
  levels : ∀ l, e'.store.vmgr.current.level_files l =
    e.store.vmgr.current.level_files l ++ if l = 0 then [f] else []
  table : (e'.store.tableAt f).entries = m.iterateEntries

theorem flushed_logFlush {e e' : Engine} (hinv : EngineInv e) (hs : e.logFlush = some e') :
    ∃ m n t, e.store.built = some (n, t) ∧ e'.store.built = none ∧ e'.flush = .logged m ∧
      Flushed e e' m (e.store.flushFile n t) := by
  obtain ⟨m, s, hflush, hc, rfl⟩ := logFlush_eq hs
  obtain ⟨n, t, hb, rfl⟩ := commitFlush_eq hinv.store hc
  have hentries := hinv.flush
  unfold FlushInv at hentries
  rw [hflush] at hentries
  obtain ⟨n', t', hb', hentries⟩ := hentries
  obtain ⟨rfl, rfl⟩ := Prod.mk.inj (Option.some.inj (hb.symm.trans hb'))
  refine ⟨m, n, t, hb, rfl, rfl, hflush, ?_, fun l => afterFlush_level hinv.store hb l, ?_⟩
  · rw [hb]
    rfl
  · exact (congrArg SSTable.entries (afterFlush_tableAt_new hinv.store hb)).trans hentries

theorem rotationInv_logFlush {e e' : Engine} (h : RotationInv e) (hinv : EngineInv e)
    (hdisk : EngineDisk e) (hback : e.LogsBack .logFlush) (hs : e.logFlush = some e') :
    RotationInv e' := by
  obtain ⟨m, n, t, hb, hnone, hlogged, hflushed⟩ := flushed_logFlush hinv hs
  obtain ⟨m', s, -, hc, he⟩ := logFlush_eq hs
  have hstore : e'.store = s := by rw [he]
  have hrotated : e'.rotated = e'.taken ++ e'.imm.toList := by
    rw [he]
    exact h.rotated
  obtain ⟨hnext, hsaved⟩ := saved_commitFlush hinv.store hdisk.logged (hback _ rfl) hc
  rw [← hstore] at hnext hsaved
  have hnumbers : e'.flushNumbers = e.flushNumbers ++ [n] := by
    rw [Engine.flushNumbers, hflushed.flushes, List.map_append]
    rfl
  have hbelow : ∀ k ∈ e'.flushNumbers, k < e.store.vmgr.next_file_number := by
    intro k hk
    rw [hnumbers] at hk
    rcases List.mem_append.mp hk with hk | hk
    · exact h.below k hk
    · rw [List.mem_singleton.mp hk]
      exact hinv.store.unpublished_lt n (mem_unpublished_built hb)
  refine ⟨hrotated, ?_, ?_, fun k hk => ?_, fun n' t' hb' => ?_, fun k hk => ?_⟩
  · have htaken : e'.taken = e.taken := by rw [he]
    rw [htaken, h.taken, hflushed.memtable, hflushed.flushes, hlogged, List.map_append]
    simp [FlushThread.hidden]
  · rw [hnumbers, List.pairwise_append]
    refine ⟨h.ordered, List.pairwise_singleton _ _, fun k hk k' hk' => ?_⟩
    rw [List.mem_singleton.mp hk']
    exact h.built n t hb k hk
  · rw [hnext]
    exact hbelow k hk
  · rw [hnone] at hb'
    contradiction
  · exact lt_of_lt_of_le (hbelow k hk) hsaved

theorem storeAction_logs {e : Engine} {a : EngineAction} {b : StoreAction}
    (ha : e.storeAction a = some b) : e.store.LogsBack b := by
  intro edit hedit
  cases a <;> first | contradiction | (obtain rfl := Option.some.inj ha; contradiction)

theorem rotationInv_step {e e' : Engine} {a : EngineAction} (h : RotationInv e) (hinv : EngineInv e)
    (hdisk : EngineDisk e) (hback : e.LogsBack a) (hs : e.step a = some e') (hcrash : a ≠ .crash) :
    RotationInv e' := by
  cases step_kind hs with
  | noop => exact h
  | enter hops => exact callRule_rotationInv.enter h _
  | resume hr => exact callRule_rotationInv.resume h hr
  | rotate hr =>
    obtain ⟨rfl, himm, hidle⟩ := flushMem_eq hr
    exact callRule_rotationInv.rotate e h himm hidle
  | takeImm ht =>
    obtain ⟨m, himm, hidle, rfl⟩ := takeImm_eq ht
    have hrotated := h.rotated
    have htaken : e.taken = e.flushes.map Prod.fst := by
      simpa [hidle, FlushThread.hidden] using h.taken
    rw [himm] at hrotated
    refine ⟨?_, congrArg (· ++ [m]) htaken, h.ordered, h.below, h.built, h.saved⟩
    exact hrotated.trans (List.append_nil _).symm
  | buildSST hb => exact rotationInv_buildSST h hinv hdisk hb
  | logFlush hl => exact rotationInv_logFlush h hinv hdisk hback hl
  | finishFlush hf =>
    obtain ⟨m, hflush, rfl⟩ := finishFlush_eq hf
    have htaken := h.taken
    rw [hflush] at htaken
    exact ⟨h.rotated, htaken, h.ordered, h.below, h.built, h.saved⟩
  | store hb hstep =>
    exact h.store hinv hdisk (storeAction_scans hb) (storeAction_logs hb) hstep
      (storeAction_background hb)
  | @commit cleanup_obsolete held _ _ hstep =>
    exact h.store (b := .commit cleanup_obsolete held) hinv hdisk trivial (hback _ rfl) hstep rfl
  | setTTL => exact ⟨h.rotated, h.taken, h.ordered, h.below, h.built, h.saved⟩
  | closing _ hc =>
    rw [closing_eq hc]
    exact ⟨h.rotated, h.taken, h.ordered, h.below, h.built, h.saved⟩
  | @shutdown held _ _ hd =>
    obtain ⟨s, hstep, rfl⟩ := shutdown_spec hd
    exact h.store (b := .shutdown held) hinv hdisk trivial (hback _ rfl) hstep rfl
  | crash => exact absurd rfl hcrash

/-- A restart counts on from the files, and only committed flushes are left. -/
theorem rotationInv_crash {e : Engine} (h : RotationInv e) (hinv : EngineInv e) (hdisk : EngineDisk e)
    (hok : e.Reopens) : RotationInv e.crash := by
  obtain ⟨hidle, himm, -⟩ := crash_idle e
  have hlists : e.crash.rotated = e.flushes.map Prod.fst ∧ e.crash.taken = e.flushes.map Prod.fst ∧
      e.crash.flushes = e.flushes := ⟨rfl, rfl, rfl⟩
  obtain ⟨hrotated, htaken, hflushes⟩ := hlists
  have hnumbers : e.crash.flushNumbers = e.flushNumbers := congrArg (List.map Prod.snd) hflushes
  have hcounter : e.store.savedNext ≤ e.store.reopened.vm.next_file_number :=
    startup_next e.store.vmgr.db_dir e.store.files e.store.dir
  have hsaved : e.store.savedNext ≤ e.crash.store.savedNext := by
    rw [crash_store]
    change _ ≤ (VersionManager.init e.store.reopened.vm.db_dir e.store.reopened.files).1.next_file_number
    by_cases hempty : e.store.vmgr.current.IsEmpty
    · obtain ⟨hsmall, hread⟩ := hok.resolve_left (not_not.mpr hempty)
      have hr := reopen_scan hdisk.disk hdisk.logged hempty hsmall
      rw [hr.db_dir]
      rcases hr.files with ⟨hfiles, -⟩ | hfiles
      · rw [hfiles]
        exact le_rfl
      · rw [hfiles]
        exact hcounter.trans (saved_writeSnapshotManifest hr.manifest_name hr.ordered
          hdisk.logged.current_file hread)
    · have hr := reopen_version hinv.store hdisk.logged hempty
      rw [hr.recovered.dir_eq, hr.files]
      exact le_rfl
  refine ⟨?_, ?_, ?_, fun n hn => ?_, fun n t hb => ?_, fun n hn => ?_⟩
  · rw [hrotated, htaken, himm]
    exact (List.append_nil _).symm
  · rw [htaken, hflushes, hidle]
    exact (List.append_nil _).symm
  · rw [hnumbers]
    exact h.ordered
  · rw [hnumbers] at hn
    rw [crash_store]
    exact lt_of_lt_of_le (h.saved n hn) hcounter
  · rw [crash_store] at hb
    exact absurd hb (Option.some_ne_none (n, t)).symm
  · rw [hnumbers] at hn
    exact lt_of_lt_of_le (h.saved n hn) hsaved

theorem rotationInv_start (db_dir : Bytes) (limit : Int64) (target : ℕ) :
    RotationInv (Engine.start db_dir limit target) := by
  rw [start_open]
  refine ⟨rfl, rfl, List.Pairwise.nil, fun n hn => ?_, fun n t hb => ?_, fun n hn => ?_⟩
  · exact absurd hn List.not_mem_nil
  · exact fun m hm => absurd hm List.not_mem_nil
  · exact absurd hn List.not_mem_nil

theorem rotationInv_run {db_dir : Bytes} {limit : Int64} {target : ℕ} {e : Engine}
    (h : Reach Engine.step Engine.ReadsBack (Engine.start db_dir limit target) e) : RotationInv e := by
  have hall : (EngineInv e ∧ EngineDisk e) ∧ RotationInv e := by
    refine h.invariant (I := fun e => (EngineInv e ∧ EngineDisk e) ∧ RotationInv e)
      ⟨⟨engineInv_start db_dir limit target, engineDisk_start db_dir limit target⟩,
        rotationInv_start db_dir limit target⟩ ?_
    rintro e a e' ⟨⟨hinv, hdisk⟩, hrot⟩ ⟨hback, hreopens⟩ hs
    by_cases hcrash : a = .crash
    · subst hcrash
      rw [step_crash hs]
      exact ⟨engineInv_crash hinv hdisk (hreopens rfl),
        rotationInv_crash hrot hinv hdisk (hreopens rfl)⟩
    · exact ⟨⟨engineInv_step hinv hs hcrash, engineDisk_step hdisk hinv hback hs hcrash⟩,
        rotationInv_step hrot hinv hdisk hback hs hcrash⟩
  exact hall.2

/-- In every run, failing file operations included, `imm_` and the flush thread exclude each
other, and a call that returns leaves room. Where files succeed and the manifest lines read
back, a memtable is taken once and in order, its flush adds one L0 file, and the numbers of
these files increase, through restarts too. -/
theorem rotation_protocol (db_dir : Bytes) (limit : Int64) (target : ℕ) :
    (∀ e, Reach Engine.faultStep (fun _ _ => True) (Engine.start db_dir limit target) e →
      (e.imm = none ∨ e.flush.inProgress = false) ∧
        ∀ a e', e.faultStep (.engine a) = some e' → e.Returns e' a → e'.closing.running = true →
          0 < e'.memtable_limit → e'.HasRoom) ∧
      ∀ e, Reach Engine.step Engine.ReadsBack (Engine.start db_dir limit target) e →
        e.rotated = e.taken ++ e.imm.toList ∧
          e.taken = e.flushes.map Prod.fst ++ e.flush.hidden.toList ∧
          e.flushNumbers.Pairwise (· < ·) ∧
          ∀ e', e.step .logFlush = some e' → ∃ m f, Flushed e e' m f := by
  refine ⟨fun e h => ⟨?_, fun a e' hs => ?_⟩, fun e h => ?_⟩
  · have hex : e.Exclusive := by
      refine h.invariant (I := Engine.Exclusive) ?_ fun _ _ _ hi _ hs => exclusive_fault hi hs
      rw [start_open]
      exact Or.inl rfl
    exact hex.imp_right inProgress_eq_false.mpr
  · cases fault_kind hs with
    | engine hs => exact returns_hasRoom hs
  · have hrot := rotationInv_run h
    refine ⟨hrot.rotated, hrot.taken, hrot.ordered, fun e' hs => ?_⟩
    cases step_kind hs with
    | logFlush hl =>
      obtain ⟨m, n, t, -, -, -, hflushed⟩ := flushed_logFlush (engineDisk_run h).1 hl
      exact ⟨m, _, hflushed⟩
    | enter hops => contradiction
    | store hb => contradiction
    | closing hc => contradiction

/-- Two flushes, both committed. -/
theorem rotation_protocol_twice :
    ∃ e, Reach Engine.step Engine.ReadsBack (Engine.start (ascii "db") 1000 0) e ∧
      e.flushNumbers = [1, 2] ∧ (e.rotated = e.taken ++ e.imm.toList ∧
        e.taken = e.flushes.map Prod.fst ++ e.flush.hidden.toList ∧
        e.flushNumbers.Pairwise (· < ·) ∧
        ∀ e', e.step .logFlush = some e' → ∃ m f, Flushed e e' m f) := by
  have hrun : (([EngineAction.put (ascii "cpu") 5 (ascii "v"), .flush, .takeImm, .buildSST, .logFlush,
      .finishFlush, .put (ascii "cpu") 6 (ascii "w"), .flush, .takeImm, .buildSST, .logFlush].foldlM
      (guarded Engine.step fun e a => a.isCrash = false ∧ e.LogsBack a)
      (Engine.start (ascii "db") 1000 0)).map Engine.flushNumbers) = some [1, 2] := by decide +kernel
  obtain ⟨e, he, hnumbers⟩ := Option.map_eq_some_iff.mp hrun
  have hreach := readsBack_of_foldlM he
  exact ⟨e, hreach, hnumbers, (rotation_protocol (ascii "db") 1000 0).2 e hreach⟩

/-- Behind a line that does not read back, a restart gives the number of a committed flush to
the next one again. -/
theorem numbered_twice :
    ∃ e, Reach Engine.step (fun _ _ => True) (Engine.start (ascii "db") 1000 0) e ∧
      e.flushNumbers = [1, 2, 2] := by
  have hrun : (([EngineAction.put (ascii "cpu") 5 (ascii "v"), .flush, .takeImm, .buildSST, .logFlush,
      .finishFlush, .put (ascii "a b") 5 (ascii "v"), .flush, .takeImm, .buildSST, .logFlush,
      .finishFlush, .crash, .put (ascii "cpu") 6 (ascii "w"), .flush, .takeImm, .buildSST,
      .logFlush].foldlM Engine.step (Engine.start (ascii "db") 1000 0)).map Engine.flushNumbers) =
        some [1, 2, 2] := by decide +kernel
  obtain ⟨e, he, hnumbers⟩ := Option.map_eq_some_iff.mp hrun
  exact ⟨e, reach_foldlM (fun _ _ _ => trivial) he, hnumbers⟩

end MiniTsdb
