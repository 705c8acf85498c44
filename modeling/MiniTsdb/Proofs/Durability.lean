import MiniTsdb.Lib.Runs
import MiniTsdb.Proofs.EngineDisk
import MiniTsdb.Proofs.EngineLog
import MiniTsdb.Proofs.ReadYourWrites

/-! Crashes between any two steps: which runs keep the last write of a key in the log or in
a table that comes back. -/

namespace MiniTsdb
open Lib

theorem frame_step {e e' : Engine} {a : EngineAction} (h : EngineInv e) (hs : e.step a = some e')
    (hops : a.operations = none) (hresume : ∀ id, a ≠ .resume id) (hfinish : a ≠ .finishFlush)
    (hcrash : a ≠ .crash) (key : TsKey) :
    e'.wal = e.wal ∧ e'.calls = e.calls ∧ e'.next_call = e.next_call ∧
      e'.memVersions key = e.memVersions key := by
  cases step_kind hs with
  | noop => exact ⟨rfl, rfl, rfl, rfl⟩
  | enter hsome =>
    rw [hops] at hsome
    contradiction
  | resume _ => exact absurd rfl (hresume _)
  | rotate hr =>
    obtain ⟨rfl, himm, -⟩ := flushMem_eq hr
    exact ⟨rfl, rfl, rfl, memVersions_rotate himm key⟩
  | takeImm ht =>
    have hmem := memVersions_takeImm ht key
    obtain ⟨m, -, -, rfl⟩ := takeImm_eq ht
    exact ⟨rfl, rfl, rfl, hmem⟩
  | buildSST hb =>
    have hmem := (sources_buildSST h hb key).1
    obtain ⟨m, s, -, -, rfl⟩ := buildSST_eq hb
    exact ⟨rfl, rfl, rfl, hmem⟩
  | logFlush hl =>
    have hmem := (sources_logFlush h hl key).1
    obtain ⟨m, s, -, -, rfl, -⟩ := logFlush_spec h hl
    exact ⟨rfl, rfl, rfl, hmem⟩
  | finishFlush _ => exact absurd rfl hfinish
  | store _ _ => exact ⟨rfl, rfl, rfl, rfl⟩
  | commit _ _ => exact ⟨rfl, rfl, rfl, rfl⟩
  | setTTL => exact ⟨rfl, rfl, rfl, rfl⟩
  | closing _ hc =>
    rw [closing_eq hc]
    exact ⟨rfl, rfl, rfl, rfl⟩
  | shutdown _ hd =>
    obtain ⟨s, -, rfl⟩ := shutdown_spec hd
    exact ⟨rfl, rfl, rfl, rfl⟩
  | crash => exact absurd rfl hcrash

/-- A step that writes nothing and loses nothing leaves the log as good as it was: where the
log has no version of the key, there is none in memory, and the newest one on disk stays. -/
theorem logHeld_frame {key : TsKey} {e e' : Engine} {a : EngineAction} (hheld : LogHeld key e)
    (h : EngineInv e) (hs : e.step a = some e') (hops : a.operations = none)
    (hresume : ∀ id, a ≠ .resume id) (hfinish : a ≠ .finishFlush) (hcrash : a ≠ .crash)
    (hdrops : ¬ e.Drops key a) : LogHeld key e' := by
  obtain ⟨hcalls, log, hlog⟩ := hheld
  obtain ⟨hwal, hsame, hnext, hmem⟩ := frame_step h hs hops hresume hfinish hcrash key
  obtain ⟨happlied, hsources⟩ := sources_step h hs hops hresume hcrash key
  have hhead := hsources.resolve_right fun hd => hdrops hd.1
  have hunapplied : e'.unapplied key [] = e.unapplied key [] := by
    rw [Engine.unapplied, Engine.unapplied, hsame]
  have hlast : e'.lastApplied key = e.lastApplied key := by
    rw [Engine.lastApplied, Engine.lastApplied, happlied]
  refine ⟨⟨?_, ?_⟩, log, ⟨hwal ▸ hlog.wal, hlog.short, ?_, hunapplied ▸ hlog.alone, ?_⟩⟩
  · rw [hsame]
    exact hcalls.ids
  · rw [hsame, hnext]
    exact hcalls.fresh
  · rw [hmem, hunapplied]
    exact hlog.covers
  · rw [hunapplied, hlast, ← hlog.newest]
    cases hfound : lastIn log key with
    | some entry => rfl
    | none =>
      have hnone : e.memVersions key = [] := by
        by_contra hne
        refine hlog.covers (fun hnil => hne ?_) hfound
        exact (List.append_eq_nil_iff.mp hnil).1
      rw [Engine.sources, Engine.sources, hmem, hnone, List.nil_append, List.nil_append] at hhead
      exact hhead

theorem logHeld_finishFlush {key : TsKey} {e e' : Engine} (hheld : LogHeld key e) (h : EngineInv e)
    (hnewest : e.Newest key) (hs : e.finishFlush = some e') (hmem : e.mem.getEntry key = none)
    (hunapplied : e.unapplied key [] = [])
    (hkey : ∀ m, e.flush = .logged m → TsKey.default ≤ key ∨ m.getEntry key = none) :
    LogHeld key e' := by
  obtain ⟨hcalls, log, hlog⟩ := hheld
  obtain ⟨m, hflush, hmem', hbefore, hmet, hhead⟩ := sources_finishFlush h hs key
  obtain ⟨-, -, rfl⟩ := finishFlush_eq hs
  have hnone : Engine.unapplied { e with wal := e.wal.rotate, flush := .idle } key [] = [] := hunapplied
  refine ⟨⟨hcalls.ids, hcalls.fresh⟩, [], ⟨rfl, ?_, ?_, ?_, ?_⟩⟩
  · intro op hop
    contradiction
  · rw [hmem', hmem, hnone]
    exact fun hne => absurd rfl hne
  · rw [hnone]
    exact Nat.zero_le 1
  · rw [hnone, List.nil_append]
    change (e.store.met key).head? = (e.lastApplied key).toList.head?
    rw [Engine.Newest, Engine.sources, hbefore, hmem] at hnewest
    have hdisk : (e.store.met key).head? = e.lastApplied key := by
      rw [← hnewest]
      cases hm : m.getEntry key with
      | none => rfl
      | some entry =>
        have hle := (hkey m hflush).resolve_right (by simp [hm])
        rw [hhead hle entry hm]
        rfl
    rw [hdisk, Option.head?_toList]

theorem foldl_replayHandler (ops : List Operation) (m : MemTable) (ttl_map : TtlMap) :
    ((ops.map Operation.walEntry).foldl replayHandler (m, ttl_map)).1 = ops.foldl MemTable.apply m := by
  induction ops generalizing m ttl_map with
  | nil => rfl
  | cons op ops ih =>
    rw [List.map_cons, List.foldl_cons, List.foldl_cons]
    cases op with
    | put measurement timestamp value => exact ih _ _
    | delete measurement timestamp => exact ih _ _

theorem unset_replayHandler (entries : List WalEntry) {m : MemTable} {ttl_map : TtlMap}
    (h : ttl_map.Unset) : (entries.foldl replayHandler (m, ttl_map)).2.Unset := by
  induction entries generalizing m ttl_map with
  | nil => exact h
  | cons entry entries ih => exact ih (h.updateLatestTimestamp entry.measurement entry.timestamp)

section
variable {e : Engine} {log : List Operation} (hwal : e.wal = ⟨encodeLog log⟩)
  (hshort : ∀ op ∈ log, op.measurement.length < 2 ^ 32)
include hwal hshort

theorem crash_wal : e.crash.wal = e.wal := by
  have hlog := replayEntries_log log hshort
  rw [← hwal] at hlog
  rw [Engine.crash, Engine.open, hlog, hwal]

/-- What is in memory after a crash is what the log had. -/
theorem crash_getEntry (key : TsKey) : e.crash.mem.getEntry key = lastIn log key := by
  have hlog := replayEntries_log log hshort
  rw [← hwal] at hlog
  rw [Engine.crash, Engine.open, hlog]
  dsimp only
  rw [foldl_replayHandler, getEntry_foldl_apply, getEntry_new, Option.or_none]

end

theorem noTtl_crash (e : Engine) : NoTtl e.crash := by
  refine ⟨?_, fun run hrun => ?_⟩
  · rw [Engine.crash, Engine.open]
    exact unset_replayHandler _ fun measurement rule hrule => by contradiction
  · rw [crash_store] at hrun
    contradiction

theorem lastApplied_crash (e : Engine) (key : TsKey) : e.crash.lastApplied key = e.lastCompleted key := by
  rw [Engine.lastApplied, Engine.lastCompleted, Engine.crash, List.find?_filter]
  congr 2
  funext a
  rw [Bool.and_comm]
  simp

/-- Tables left over are no danger: the version has a file, or the directory nothing but
the one the flush thread has finished. -/
def Engine.NoLeftOvers (e : Engine) : Prop :=
  ¬ e.store.vmgr.current.IsEmpty ∨
    e.store.dir = (e.store.built.map fun b => (sstName b.1, some b.2)).toList

/-- The newest version on disk comes back, unless memory and log have a newer one. -/
theorem crash_met {key : TsKey} {e : Engine} (h : EngineInv e) (hd : EngineDisk e) (hok : e.Reopens)
    (hclean : e.NoLeftOvers) (hmem : e.memVersions key = []) :
    e.crash.store.met key = e.store.met key := by
  rw [crash_store]
  by_cases hempty : e.store.vmgr.current.IsEmpty
  · have hnone : e.store.met key = [] := by
      refine List.flatMap_eq_nil_iff.mpr fun l _ => ?_
      rw [hempty l, versionsIn_nil]
    have hr := reopen_scan hd.disk hd.logged hempty (hok.resolve_left (not_not.mpr hempty)).1
    have hdir := hclean.resolve_left (not_not.mpr hempty)
    rw [hnone]
    cases hb : e.store.built with
    | none =>
      rw [hb] at hdir
      exact hr.met_nil _ hdir key
    | some b =>
      rw [hb] at hdir
      rw [hr.met_single hd.disk.names _ hdir key]
      -- the finished file has what its memtable has
      have hflush := h.flush
      unfold FlushInv at hflush
      cases hf : e.flush with
      | idle =>
        rw [hf] at hflush
        rw [hb] at hflush
        contradiction
      | taken m =>
        rw [hf] at hflush
        rw [hb] at hflush
        contradiction
      | logged m =>
        rw [hf] at hflush
        rw [hb] at hflush
        exact absurd hflush.1 (by simp)
      | built m =>
        rw [hf] at hflush
        obtain ⟨n, t, hbuilt, hentries⟩ := hflush
        obtain rfl := Option.some.inj (hb.symm.trans hbuilt)
        have hlacks : m.getEntry key = none := by
          simpa [Engine.memVersions, FlushThread.memtable, hf] using
            (List.append_eq_nil_iff.mp (List.append_eq_nil_iff.mp hmem).2).2
        rw [SSTable.getEntry, hentries, lookup_iterateEntries, hlacks, ite_self]
        rfl
  · exact (reopen_version h.store hd.logged hempty).met _ key

/-- Steps that keep the last write of a key safe. -/
def Engine.Persists (key : TsKey) (e : Engine) : EngineAction → Prop
  | .put measurement timestamp value =>
    e.LogsWell key e.makeRoomForWrite [.put measurement timestamp value]
  | .delete measurement timestamp => e.LogsWell key e.makeRoomForWrite [.delete measurement timestamp]
  | .write batch => e.LogsWell key e.makeRoomForWrite batch
  | .resume id => e.ResumesWell key id
  | .logFlush => e.LogsBack .logFlush
  | .finishFlush => e.mem.getEntry key = none ∧ e.unapplied key [] = [] ∧
      ∀ m, e.flush = .logged m → TsKey.default ≤ key ∨ m.getEntry key = none
  | .commit cleanup_obsolete held => e.LogsBack (.commit cleanup_obsolete held) ∧
      e.Retains key (.commit cleanup_obsolete held)
  | .setTTL _ _ => False
  | .shutdown held => e.LogsBack (.shutdown held)
  | .crash => e.Settled key ∧ e.unapplied key [] = [] ∧ e.Reopens ∧ e.NoLeftOvers
  | _ => True

/-- What every such run keeps. -/
structure DurableInv (key : TsKey) (e : Engine) : Prop where
  read : ReadInv key e
  held : LogHeld key e
  disk : EngineDisk e

theorem Engine.Persists.retains {key : TsKey} {e : Engine} {a : EngineAction} (h : e.Persists key a)
    (hcrash : a ≠ .crash) : e.Retains key a := by
  cases a with
  | finishFlush =>
    obtain ⟨-, -, hkey⟩ := h
    by_cases hle : TsKey.default ≤ key
    · exact Or.inl hle
    · exact Or.inr fun m hm => Or.inl ((hkey m hm).resolve_left hle)
  | commit cleanup_obsolete held => exact h.2
  | setTTL _ _ => exact absurd h id
  | crash => exact absurd rfl hcrash
  | _ => rfl

theorem Engine.Persists.logsBack {key : TsKey} {e : Engine} {a : EngineAction} (h : e.Persists key a) :
    e.LogsBack a := by
  cases a with
  | logFlush => exact h
  | commit cleanup_obsolete held => exact h.1
  | shutdown held => exact h
  | _ => exact fun b hb => by contradiction

/-- The crash itself: what memory, log and disk had of the key is what comes back. -/
theorem durableInv_crash {key : TsKey} {e : Engine} (h : DurableInv key e)
    (hok : e.Persists key .crash) : DurableInv key e.crash := by
  obtain ⟨hsettled, hunapplied, hreopens, hclean⟩ := hok
  obtain ⟨hinv, hdisk⟩ := engineInv_crash h.read.engine h.disk hreopens
  obtain ⟨hcalls, log, hlog⟩ := h.held
  obtain ⟨hidle, himm, hnone⟩ := crash_idle e
  have hlast : e.crash.lastApplied key = e.lastApplied key :=
    (lastApplied_crash e key).trans (lastCompleted_eq hsettled)
  have hmem : e.crash.memVersions key = (lastIn log key).toList := by
    rw [Engine.memVersions, hidle, himm, crash_getEntry hlog.wal hlog.short]
    simp [FlushThread.memtable]
  have hnewest : (lastIn log key).or (e.crash.store.met key).head? = e.lastApplied key := by
    have hbefore := hlog.newest
    rw [hunapplied, List.nil_append, Option.head?_toList] at hbefore
    rw [← hbefore]
    cases hfound : lastIn log key with
    | some entry => rw [Option.some_or, Option.some_or]
    | none =>
      have hempty : e.memVersions key = [] := by
        by_contra hne
        refine hlog.covers (fun hnil => hne ?_) hfound
        exact (List.append_eq_nil_iff.mp hnil).1
      rw [crash_met h.read.engine h.disk hreopens hclean hempty]
  have hunapplied' : e.crash.unapplied key [] = [] := by
    rw [Engine.unapplied, hnone]
    rfl
  refine ⟨⟨hinv, noTtl_crash e, ?_⟩, ⟨⟨?_, ?_⟩, log, ?_, hlog.short, ?_, ?_, ?_⟩, hdisk⟩
  · rw [Engine.Newest, Engine.sources, hmem, hlast, ← hnewest, List.head?_append, Option.head?_toList]
  · rw [hnone]
    exact List.nodup_nil
  · rw [hnone]
    intro c hc
    contradiction
  · rw [crash_wal hlog.wal hlog.short]
    exact hlog.wal
  · rw [hmem, hunapplied', List.append_nil]
    intro hne hfound
    rw [hfound] at hne
    exact hne rfl
  · rw [hunapplied']
    exact Nat.zero_le 1
  · rw [hunapplied', hnewest, hlast, List.nil_append, Option.head?_toList]

theorem durableInv_step {key : TsKey} {e e' : Engine} {a : EngineAction} (h : DurableInv key e)
    (hok : e.Persists key a) (hs : e.step a = some e') : DurableInv key e' := by
  by_cases hcrash : a = .crash
  · subst hcrash
    rw [step_crash hs]
    exact durableInv_crash h hok
  · have hretains := hok.retains hcrash
    refine ⟨readInv_step h.read hretains hs, ?_,
      engineDisk_step h.disk h.read.engine hok.logsBack hs hcrash⟩
    have hframe : a.operations = none → (∀ id, a ≠ .resume id) → a ≠ .finishFlush → LogHeld key e' :=
      fun hops hresume hfinish => logHeld_frame h.held h.read.engine hs hops hresume hfinish hcrash
        (hretains.not_drops h.read.ttl)
    cases step_kind hs with
    | noop => exact h.held
    | enter hops =>
      refine logHeld_enter h.held ?_
      cases a <;> first | contradiction | (obtain rfl := Option.some.inj hops; exact hok)
    | resume hr => exact logHeld_resume h.held hok hr
    | finishFlush hf =>
      obtain ⟨hmem, hunapplied, hkey⟩ := hok
      exact logHeld_finishFlush h.held h.read.engine h.read.newest hf hmem hunapplied hkey
    | store hb _ =>
      apply hframe <;> cases a <;> first | contradiction | rfl | (intros; simp)
    | closing hc _ =>
      apply hframe <;> cases a <;> first | contradiction | rfl | (intros; simp)
    | _ => exact hframe rfl (by simp) (by simp)

theorem durableInv_start (db_dir : Bytes) (limit : Int64) (target : ℕ) (key : TsKey) :
    DurableInv key (Engine.start db_dir limit target) := by
  refine ⟨⟨engineInv_start db_dir limit target, noTtl_start db_dir limit target, ?_⟩, ?_,
    engineDisk_start db_dir limit target⟩
  · rw [Engine.Newest, sources_start, lastApplied_start]
    rfl
  · rw [start_open]
    refine ⟨⟨List.nodup_nil, fun c hc => by contradiction⟩, [], rfl, fun op hop => by contradiction,
      fun hne => absurd rfl hne, Nat.zero_le 1, ?_⟩
    rw [lastIn_nil, Option.none_or]
    exact congrArg List.head? (met_start db_dir target key)

/-- An opened engine reads the last write that had returned. -/
theorem get_crash {key : TsKey} {e : Engine} (h : DurableInv key e) (hok : e.Persists key .crash) :
    e.crash.get key = (e.lastCompleted key).bind InternalEntry.read := by
  obtain ⟨hread, -, -⟩ := durableInv_crash h hok
  obtain ⟨hidle, -, -⟩ := crash_idle e
  rw [hread.get (by rw [hidle]; rfl) (shown_of_idle hidle key), lastApplied_crash]

end MiniTsdb
