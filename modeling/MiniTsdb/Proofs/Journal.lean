import MiniTsdb.Proofs.EngineViews
import MiniTsdb.Proofs.Provenance

/-! What a process that dies can lose. The log in its file is a prefix of the operations
appended since the last flush, and holds all of them up to the last `Sync`; what is opened
next is what those operations and the tables have. -/

namespace MiniTsdb
open Lib

variable {e e' : Engine}

theorem tornBytes_cut (ops : List Operation) (kept : ℕ) :
    (WAL.mk ((encodeLog ops).take kept)).tornBytes = tornTail ops kept := by
  obtain ⟨tail, htake, htail⟩ := encodeLog_take ops kept
  have hstop := (replayLoop_cut ops kept).valid_offset
  rw [WAL.tornBytes, hstop, htake, List.length_append, htail]
  omega

/-- A cut behind the operations in `safe` leaves them and the first of those that follow. -/
theorem completeOps_behind {safe : List Operation} {kept : ℕ} (hkept : (encodeLog safe).length ≤ kept)
    (ops : List Operation) :
    ∃ survived, survived <+: ops ∧ completeOps (safe ++ ops) kept = safe ++ survived := by
  obtain ⟨n, rfl⟩ := Nat.exists_eq_add_of_le hkept
  exact ⟨completeOps ops n, prefix_completeOps ops n, completeOps_append safe ops n⟩

theorem replayed_whole (ops : List Operation) :
    (WAL.mk (encodeLog ops)).replayEntries.1 = ops.map Operation.replayed := by
  have hall := replayEntries_cut ops (encodeLog ops).length
  rw [List.take_length, completeOps_all ops le_rfl] at hall
  rw [hall]

/-- What a restart reads depends on the operations that replay finds alone. -/
theorem recover_congr (e : Engine) {wal wal' : WAL}
    (h : wal.replayEntries.1 = wal'.replayEntries.1) (key : TsKey) :
    (e.recover wal).get key = (e.recover wal').get key := by
  have hmemory : ((e.recover wal).mem, (e.recover wal).ttl_map) =
      ((e.recover wal').mem, (e.recover wal').ttl_map) := by
    rw [Engine.recover, Engine.recover, crash_memory, crash_memory, h]
  obtain ⟨hmem, httl⟩ := Prod.mk.inj hmemory
  have hview : (e.recover wal).captureReadView = (e.recover wal').captureReadView := by
    rw [Engine.captureReadView, hmem, httl]
    rfl
  rw [Engine.get, hview, ← Engine.get]

/-- Of a key, restarts from logs with the same last operation on it read the same. -/
theorem recover_same (e : Engine) {ops ops' : List Operation} (hops : Logs ops) (hops' : Logs ops')
    {key : TsKey} (h : lastIn ops key = lastIn ops' key) :
    (e.recover ⟨encodeLog ops⟩).get key = (e.recover ⟨encodeLog ops'⟩).get key := by
  have hview : ∀ {ops : List Operation}, Logs ops → (e.recover ⟨encodeLog ops⟩).get key =
      ((lastIn ops key).or (getFromSSTables e.crash.store.captureLevels key)).bind InternalEntry.read := by
    intro ops hops
    have hmem : (e.recover ⟨encodeLog ops⟩).mem.getEntry key = lastIn ops key :=
      crash_getEntry rfl hops key
    have himm : (e.recover ⟨encodeLog ops⟩).imm = none := (crash_idle _).2.1
    have hexpired := (noTtl_crash { e with wal := ⟨encodeLog ops⟩ }).now.not_expired
    have hstore : (e.recover ⟨encodeLog ops⟩).store = e.crash.store := by
      rw [Engine.recover, crash_store, crash_store]
    rw [Engine.get, ReadView.get, Engine.captureReadView]
    dsimp only
    rw [hmem, himm, hstore, Engine.recover, hexpired, if_neg Bool.false_ne_true]
    cases lastIn ops key with
    | some entry => rfl
    | none => cases getFromSSTables e.crash.store.captureLevels key <;> rfl
  rw [hview hops, hview hops', h]

/-- A restart from whole records reads their last operation on the key, else its tables. -/
theorem recover_get (hinv : EngineInv e) (hdisk : EngineDisk e) (hok : e.Reopens)
    {ops : List Operation} (hshort : Logs ops) (key : TsKey) :
    (e.recover ⟨encodeLog ops⟩).get key =
      ((lastIn ops key).or (e.crash.store.met key).head?).bind InternalEntry.read := by
  have hengine : EngineInv { e with wal := ⟨encodeLog ops⟩ } := ⟨hinv.store, hinv.flush, hinv.imm, hinv.low⟩
  have hd : EngineDisk { e with wal := ⟨encodeLog ops⟩ } := ⟨hdisk.disk, hdisk.above, hdisk.logged⟩
  obtain ⟨hcrashed, -⟩ := engineInv_crash hengine hd hok
  obtain ⟨-, himm, -⟩ := crash_idle { e with wal := ⟨encodeLog ops⟩ }
  have hmem : (e.recover ⟨encodeLog ops⟩).mem.getEntry key = lastIn ops key :=
    crash_getEntry rfl hshort key
  have hstore : (e.recover ⟨encodeLog ops⟩).store = e.crash.store := by
    rw [Engine.recover, crash_store, crash_store]
  rw [Engine.recover] at hmem hstore ⊢
  rw [get_eq hcrashed, (noTtl_crash _).now.not_expired, if_neg Bool.false_ne_true, Engine.viewed, himm,
    hmem, hstore]
  cases lastIn ops key <;> simp

section
variable (P : TsKey × InternalEntry → Prop)

/-- The log has the operations in `safe`, which are in its file, and those in `risky`, which may
be in the buffer. -/
structure Journaled.Split (sync_on_write : Bool) (j : Journaled) (safe risky : List Operation) : Prop where
  wal : j.engine.wal = ⟨encodeLog (safe ++ risky)⟩
  written : j.written = (encodeLog safe).length
  ops : Written P (safe ++ risky)
  synced : sync_on_write = true → risky = []

structure JournalInv (sync_on_write : Bool) (j : Journaled) : Prop where
  engine : EngineInv j.engine
  disk : EngineDisk j.engine
  held : Held P j.engine
  filed : Filed P j.engine.store.dir
  log : ∃ safe risky, j.Split P sync_on_write safe risky

end

/-- Where a run may go on: what is written to the manifest parses back, measurements are as long
as the log can have them, and a death leaves no part of a record, or one that replay cuts off. -/
def Journaled.Sound (j : Journaled) : JournalAction → Prop
  | .engine a => j.engine.LogsBack a ∧ ∀ ops ∈ a.operations, Logs ops
  | .die during kept =>
    (j.engine.Reopens ∧ ∀ ops ∈ during.operations, Logs ops) ∧
      ((j.leaves (j.engine.appends during) kept).tornBytes = 0 ∨
        9 ≤ (j.leaves (j.engine.appends during) kept).tornBytes)

/-- Where every `Put` is synced, every step that appends is. -/
theorem syncs_of_sync {j : Journaled} (a : EngineAction) : j.syncs true a = true := by
  cases a <;> rfl

variable {P : TsKey × InternalEntry → Prop} {sync_on_write : Bool} {j j' : Journaled}
  {safe risky : List Operation}

/-- The new operations are at risk until the next `Sync`, which may be their own. -/
theorem Journaled.Split.step {a : EngineAction} (h : j.Split P sync_on_write safe risky)
    (hinv : EngineInv j.engine) (hs : j.engine.step a = some e') (hcrash : a ≠ .crash)
    (hnew : Written P (j.engine.appends a)) (batches : List ℕ) :
    ∃ safe' risky', Journaled.Split P sync_on_write
      ⟨e', j.writtenAfter sync_on_write a e'.wal, batches⟩ safe' risky' := by
  by_cases hfinish : a = .finishFlush
  · subst hfinish
    obtain ⟨m, -, rfl⟩ := finishFlush_eq (step_finishFlush hs)
    exact ⟨[], [], rfl, rfl, fun op hop => by contradiction, fun _ => rfl⟩
  have hwal : e'.wal = ⟨encodeLog (safe ++ (risky ++ j.engine.appends a))⟩ := by
    rw [step_wal hinv hs hfinish hcrash, h.wal, encodeLog_appendAll, List.append_assoc]
  have hops : Written P (safe ++ (risky ++ j.engine.appends a)) := by
    rw [← List.append_assoc]
    exact List.forall_mem_append.mpr ⟨h.ops, hnew⟩
  have hwhole : j.writtenAfter sync_on_write a e'.wal = e'.wal.file.length →
      Journaled.Split P sync_on_write ⟨e', j.writtenAfter sync_on_write a e'.wal, batches⟩
        (safe ++ (risky ++ j.engine.appends a)) [] := by
    intro hwritten
    refine ⟨?_, ?_, ?_, fun _ => rfl⟩
    · rw [List.append_nil]
      exact hwal
    · rw [hwritten, hwal]
    · rw [List.append_nil]
      exact hops
  by_cases hclose : ∃ held, a = .shutdown held
  · obtain ⟨held, rfl⟩ := hclose
    exact ⟨_, _, hwhole rfl⟩
  have hwritten : j.writtenAfter sync_on_write a e'.wal =
      if !(j.engine.appends a).isEmpty && j.syncs sync_on_write a then e'.wal.file.length
      else j.written := by
    cases a <;> first | rfl | exact absurd rfl hfinish | exact absurd ⟨_, rfl⟩ hclose
  by_cases hsync : (!(j.engine.appends a).isEmpty && j.syncs sync_on_write a) = true
  · rw [if_pos hsync] at hwritten
    exact ⟨_, _, hwhole hwritten⟩
  · rw [if_neg hsync] at hwritten
    refine ⟨safe, risky ++ j.engine.appends a, hwal, hwritten.trans h.written, hops, fun hon => ?_⟩
    subst hon
    rw [h.synced rfl, List.nil_append]
    simpa [syncs_of_sync] using hsync

/-- A death keeps what is in the file and the first of the operations at risk. -/
theorem Journaled.Split.cut (h : j.Split P sync_on_write safe risky) {ops : List Operation}
    (hops : Written P ops) {kept : ℕ} (hkept : j.written ≤ kept) :
    j.leaves ops kept = ⟨(encodeLog (safe ++ (risky ++ ops))).take kept⟩ ∧
      ∃ survived, survived <+: risky ++ ops ∧ Written P (safe ++ survived) ∧
        completeOps (safe ++ (risky ++ ops)) kept = safe ++ survived := by
  obtain ⟨survived, hprefix, hcomplete⟩ := completeOps_behind (h.written ▸ hkept) (risky ++ ops)
  have hall : Written P (safe ++ (risky ++ ops)) := by
    rw [← List.append_assoc]
    exact List.forall_mem_append.mpr ⟨h.ops, hops⟩
  refine ⟨?_, survived, hprefix, fun op hop => ?_, hcomplete⟩
  · rw [Journaled.leaves, h.wal, encodeLog_appendAll, List.append_assoc]
  · exact hall op (((List.prefix_append_right_inj safe).mpr hprefix).subset hop)

theorem Journaled.Split.die (h : j.Split P sync_on_write safe risky) {during : EngineAction} {kept : ℕ}
    (hkept : j.written ≤ kept) (hnew : Written P (j.engine.appends during))
    (htorn : (j.leaves (j.engine.appends during) kept).tornBytes = 0 ∨
      9 ≤ (j.leaves (j.engine.appends during) kept).tornBytes) :
    ∃ safe', (j.die during kept).Split P sync_on_write safe' [] := by
  obtain ⟨hleaves, survived, -, hops, hcomplete⟩ := h.cut hnew hkept
  have hwal : (j.die during kept).engine.wal = ⟨encodeLog (safe ++ survived)⟩ := by
    change (j.leaves (j.engine.appends during) kept).replayEntries.2 = _
    obtain ⟨tail, htake, htail⟩ := encodeLog_take (safe ++ (risky ++ j.engine.appends during)) kept
    rw [hleaves, tornBytes_cut] at htorn
    rw [hleaves, replayEntries_cut, hcomplete]
    rcases htorn with hzero | hlong
    · -- nothing is torn: the cut is at the end of a record
      rw [hzero, List.length_eq_zero_iff] at htail
      rw [if_neg (by omega), htake, hcomplete, htail, List.append_nil]
    · rw [if_pos hlong]
  refine ⟨safe ++ survived, ?_, ?_, ?_, fun _ => rfl⟩
  · rw [List.append_nil]
    exact hwal
  · change (j.die during kept).engine.wal.file.length = _
    rw [hwal]
  · rw [List.append_nil]
    exact hops

theorem journal_engine {a : EngineAction} (hs : j.step sync_on_write (.engine a) = some j') :
    a ≠ .crash ∧ ∃ e, j.engine.step a = some e ∧
      j' = ⟨e, j.writtenAfter sync_on_write a e.wal, j.batchesAfter a⟩ := by
  rw [Journaled.step] at hs
  split_ifs at hs with hnone
  obtain ⟨e, he, rfl⟩ := Option.map_eq_some_iff.mp hs
  refine ⟨?_, e, he, rfl⟩
  rintro rfl
  exact hnone rfl

theorem journal_die {during : EngineAction} {kept : ℕ}
    (hs : j.step sync_on_write (.die during kept) = some j') :
    j.written ≤ kept ∧ j' = j.die during kept := by
  rw [Journaled.step] at hs
  split_ifs at hs with hdies
  exact ⟨of_decide_eq_true (Bool.and_eq_true_iff.mp hdies).2, (Option.some.inj hs).symm⟩

def JournalAction.operations : JournalAction → Option (List Operation)
  | .engine a => a.operations
  | .die during _ => during.operations

theorem journal_step (hshort : ∀ x, P x → Short x) {a : JournalAction}
    (h : JournalInv P sync_on_write j) (hok : j.Sound a) (hops : ∀ ops ∈ a.operations, Written P ops)
    (hs : j.step sync_on_write a = some j') : JournalInv P sync_on_write j' := by
  obtain ⟨safe, risky, hsplit⟩ := h.log
  cases a with
  | engine a =>
    obtain ⟨hcrash, e, he, rfl⟩ := journal_engine hs
    exact ⟨engineInv_step h.engine he hcrash, engineDisk_step h.disk h.engine hok.1 he hcrash,
      held_step h.held hops he hcrash, filed_engine h.filed h.engine h.held he hcrash,
      hsplit.step h.engine he hcrash (appends_written h.held hops) _⟩
  | die during kept =>
    obtain ⟨⟨hreopens, -⟩, htorn⟩ := hok
    obtain ⟨hkept, rfl⟩ := journal_die hs
    have hinv : EngineInv { j.engine with wal := j.leaves (j.engine.appends during) kept } :=
      ⟨h.engine.store, h.engine.flush, h.engine.imm, h.engine.low⟩
    have hdisk : EngineDisk { j.engine with wal := j.leaves (j.engine.appends during) kept } :=
      ⟨h.disk.disk, h.disk.above, h.disk.logged⟩
    obtain ⟨hcrashed, hon⟩ := engineInv_crash hinv hdisk hreopens
    have hnew : Written P (j.engine.appends during) := appends_written h.held hops
    obtain ⟨safe', hdie⟩ := hsplit.die hkept hnew htorn
    obtain ⟨hleaves, survived, -, hkeeps, hcomplete⟩ := hsplit.cut hnew hkept
    refine ⟨hcrashed, hon, held_crash hkeeps ?_,
      h.filed.keep (crash_dir hinv hdisk hreopens).2, safe', [], hdie⟩
    rw [hleaves, replayEntries_cut, hcomplete]
    exact List.map_congr_left fun op hop => replayed_eq op (hshort _ (hkeeps op hop))

theorem journal_start (db_dir : Bytes) (limit : Int64) (target : ℕ) :
    JournalInv P sync_on_write (.start db_dir limit target) := by
  refine ⟨engineInv_start db_dir limit target, engineDisk_start db_dir limit target,
    held_start db_dir limit target, filed_start db_dir limit target, [], [], ?_, rfl,
    fun op hop => by contradiction, fun _ => rfl⟩
  rw [Journaled.start, start_open]
  rfl

theorem Journaled.Sound.logs {a : JournalAction} (h : j.Sound a) : ∀ ops ∈ a.operations, Logs ops := by
  cases a with
  | engine a => exact h.2
  | die during kept => exact h.1.2

/-- However writers, flushes, compactions and deaths follow each other in a sound run, the log is
whole operations: those up to the last `Sync`, which are in its file, and behind them some at
risk, none where every write is synced. Where the process dies, at the log or between two steps,
what is opened next is what a crash with the first ones and some first of the others would leave:
a key reads the last of these, else its newest version in the tables, and a key with no operation
at risk what it would have read had nothing been lost. -/
theorem death_keeps_synced (sync_on_write : Bool) (db_dir : Bytes) (limit : Int64) (target : ℕ)
    {j : Journaled}
    (h : Reach (Journaled.step sync_on_write) Journaled.Sound (.start db_dir limit target) j) :
    ∃ safe risky, j.engine.wal = ⟨encodeLog (safe ++ risky)⟩ ∧ j.written = (encodeLog safe).length ∧
      (sync_on_write = true → risky = []) ∧
      ∀ during kept j', j.step sync_on_write (.die during kept) = some j' →
        (∀ ops ∈ during.operations, Logs ops) → ∃ survived, survived <+: risky ++ j.engine.appends during ∧
          ∀ key, j'.engine.get key = (j.engine.recover ⟨encodeLog (safe ++ survived)⟩).get key ∧
            (j.engine.Reopens → j'.engine.get key =
              ((lastIn (safe ++ survived) key).or (j.engine.crash.store.met key).head?).bind
                InternalEntry.read) ∧
            (lastIn (risky ++ j.engine.appends during) key = none →
              j'.engine.get key = j.engine.crash.get key) := by
  have hinv : JournalInv Short sync_on_write j := h.invariant (I := JournalInv Short sync_on_write)
    (journal_start db_dir limit target) fun _ _ _ hi hok hs =>
      journal_step (fun _ => id) hi hok hok.logs hs
  obtain ⟨safe, risky, hsplit⟩ := hinv.log
  refine ⟨safe, risky, hsplit.wal, hsplit.written, hsplit.synced, fun during kept j' hs hops => ?_⟩
  obtain ⟨hkept, rfl⟩ := journal_die hs
  obtain ⟨hleaves, survived, hprefix, hshort, hcomplete⟩ :=
    hsplit.cut (appends_written hinv.held hops) hkept
  refine ⟨survived, hprefix, fun key => ?_⟩
  have hsame : (j.die during kept).engine.get key =
      (j.engine.recover ⟨encodeLog (safe ++ survived)⟩).get key := by
    refine recover_congr j.engine ?_ key
    rw [hleaves, replayEntries_cut, hcomplete, replayed_whole]
  refine ⟨hsame, fun hreopens => ?_, fun hquiet => ?_⟩
  · rw [hsame, recover_get hinv.engine hinv.disk hreopens hshort]
  · have hwhole : j.engine.crash = j.engine.recover ⟨encodeLog (safe ++ risky)⟩ := by
      rw [Engine.recover, ← hsplit.wal]
    obtain ⟨hnew, hrisky⟩ := Option.or_eq_none_iff.mp ((lastIn_append _ _ key).symm.trans hquiet)
    obtain ⟨rest, hrest⟩ := hprefix
    rw [← hrest, lastIn_append] at hquiet
    rw [hsame, hwhole]
    refine recover_same j.engine hshort hsplit.ops ?_
    rw [lastIn_append, lastIn_append, hrisky, (Option.or_eq_none_iff.mp hquiet).2]

/-- `Sound` where the version has a table. -/
def Journaled.soundFlushed (j : Journaled) : JournalAction → Bool
  | .engine a => decide (j.engine.LogsBack a ∧ ∀ ops ∈ a.operations, Logs ops)
  | .die during kept =>
    decide (((j.engine.store.vmgr.current.level_files 0).length ≠ 0 ∧
        ∀ ops ∈ during.operations, Logs ops) ∧
      ((j.leaves (j.engine.appends during) kept).tornBytes = 0 ∨
        9 ≤ (j.leaves (j.engine.appends during) kept).tornBytes))

theorem sound_of_flushed {a : JournalAction} (hok : j.soundFlushed a = true) : j.Sound a := by
  cases a with
  | engine a => simpa [Journaled.soundFlushed, Journaled.Sound] using hok
  | die during kept =>
    obtain ⟨⟨hlive, hops⟩, htorn⟩ := of_decide_eq_true hok
    refine ⟨⟨Or.inl fun hempty => hlive ?_, hops⟩, htorn⟩
    rw [hempty 0]
    rfl

/-- Behind a flush, a `Put` that the `Sync` of a batch saves and one that a death tears; then one
more. -/
def tornOnce : List JournalAction :=
  ([.put (ascii "cpu") 5 (ascii "v"), .flush, .takeImm, .buildSST, .logFlush, .finishFlush,
    .put (ascii "cpu") 6 (ascii "w"), .write [.put (ascii "cpu") 7 (ascii "x")],
    .put (ascii "cpu") 8 (ascii "y")] : List EngineAction).map .engine ++
  [.die .crash 65, .engine (.put (ascii "cpu") 9 (ascii "z"))]

/-- The next death leaves the first operation of a batch, and all that was ahead of it. -/
theorem death_keeps_synced_tornOnce : ∃ j j' safe risky survived,
    Reach (Journaled.step false) Journaled.Sound (.start (ascii "db") 1000 0) j ∧
      j.step false (.die (.write [.delete (ascii "cpu") 7, .put (ascii "cpu") 8 (ascii "y")]) 113) =
        some j' ∧
      [5, 6, 7, 8, 9].map (fun t => j'.engine.get ⟨ascii "cpu", t⟩) =
        [some (ascii "v"), some (ascii "w"), none, none, some (ascii "z")] ∧
      j.engine.wal = ⟨encodeLog (safe ++ risky)⟩ ∧ j.written = 52 ∧ survived <+: risky ++
        j.engine.appends (.write [.delete (ascii "cpu") 7, .put (ascii "cpu") 8 (ascii "y")]) ∧
      ∀ key, j'.engine.get key = (j.engine.recover ⟨encodeLog (safe ++ survived)⟩).get key := by
  have hrun : ((tornOnce.foldlM (guarded (Journaled.step false) fun j a => j.soundFlushed a = true)
      (Journaled.start (ascii "db") 1000 0)).bind fun j =>
        (j.step false (.die (.write [.delete (ascii "cpu") 7, .put (ascii "cpu") 8 (ascii "y")]) 113)).map
          fun j' => (j.written, [5, 6, 7, 8, 9].map fun t => j'.engine.get ⟨ascii "cpu", t⟩)) =
      some (52, [some (ascii "v"), some (ascii "w"), none, none, some (ascii "z")]) := by decide +kernel
  obtain ⟨j, hj, hlast⟩ := Option.bind_eq_some_iff.mp hrun
  obtain ⟨j', hj', hstate⟩ := Option.map_eq_some_iff.mp hlast
  obtain ⟨hwritten, hreads⟩ := Prod.mk.inj hstate
  have hreach : Reach (Journaled.step false) Journaled.Sound (.start (ascii "db") 1000 0) j :=
    (reach_of_foldlM hj).mono fun _ _ => sound_of_flushed
  obtain ⟨safe, risky, hwal, -, -, hdies⟩ := death_keeps_synced false (ascii "db") 1000 0 hreach
  obtain ⟨survived, hprefix, hkeys⟩ := hdies _ 113 j' hj' (by decide)
  exact ⟨j, j', safe, risky, survived, hreach, hj', hreads, hwal, hwritten, hprefix, fun key => (hkeys key).1⟩

/-- Some call among the actions had the entry for the key. -/
def HandedIn (actions : Set JournalAction) (x : TsKey × InternalEntry) : Prop :=
  ∃ a ∈ actions, ∃ ops ∈ a.operations, ∃ op ∈ ops, op.stored = x

theorem HandedIn.put {actions : Set JournalAction} {key : TsKey} {value : Bytes}
    (h : HandedIn actions (key, ⟨value, .kValue⟩)) :
    ∃ a ∈ actions, ∃ ops ∈ a.operations, .put key.measurement key.timestamp value ∈ ops := by
  obtain ⟨a, ha, ops, hops, op, hop, hstored⟩ := h
  cases op with
  | put measurement timestamp v =>
    obtain ⟨rfl, hentry⟩ := Prod.mk.inj hstored
    obtain rfl := congrArg InternalEntry.value hentry
    exact ⟨a, ha, ops, hops, hop⟩
  | delete measurement timestamp =>
    have hkind := congrArg (fun x : TsKey × InternalEntry => x.2.type) hstored
    contradiction

/-- Where a sound run takes its actions from `actions`, every value that it reads, by `Get` or in a range
of open files, was put under its key by one of them, and every entry of every table in the
directory, live, orphaned or not yet in the version, was handed in under its key: rotations,
flushes, compactions, deaths that tear the log and restarts make up nothing, and mix no value of
one key, or of one entry, with another. -/
theorem reads_were_put (sync_on_write : Bool) (db_dir : Bytes) (limit : Int64) (target : ℕ)
    (actions : Set JournalAction) {j : Journaled}
    (h : Reach (Journaled.step sync_on_write) (fun j a => j.Sound a ∧ a ∈ actions)
      (.start db_dir limit target) j) :
    (∀ key value, j.engine.get key = some value →
      ∃ a ∈ actions, ∃ ops ∈ a.operations, .put key.measurement key.timestamp value ∈ ops) ∧
    (∀ view : FileView, view.Shows j.engine → ∀ m t_start t_end, ∀ r ∈ view.rangeQuery m t_start t_end,
      ∃ a ∈ actions, ∃ ops ∈ a.operations, .put r.measurement r.timestamp r.value ∈ ops) ∧
    ∀ f ∈ j.engine.store.dir, ∀ t, f.2 = some t → ∀ x ∈ t.entries, HandedIn actions x := by
  have hinv : JournalInv (fun x => HandedIn actions x ∧ Short x) sync_on_write j :=
    h.invariant (I := JournalInv (fun x => HandedIn actions x ∧ Short x) sync_on_write)
      (journal_start db_dir limit target) fun _ a _ hi hok hs =>
        journal_step (fun _ => And.right) hi hok.1
          (fun ops hops op hop => ⟨⟨a, hok.2, ops, hops, op, hop, rfl⟩, hok.1.logs ops hops op hop⟩) hs
  have hget : ∀ key value, j.engine.get key = some value → HandedIn actions (key, ⟨value, .kValue⟩) :=
    fun key value hread => (get_written hinv.engine hinv.held hinv.filed hread).1
  refine ⟨fun key value hread => (hget key value hread).put, fun view hview m t_start t_end r hr => ?_,
    fun f hf t ht x hx => (hinv.filed.entries f hf t ht x hx).1⟩
  obtain ⟨t, v, rfl, -, -, hread⟩ := (mem_rangeQuery_iff_get hview.intact m t_start t_end r).mp hr
  rw [hview.get] at hread
  exact (hget ⟨m, t⟩ v (Option.some.inj hread)).put

theorem reads_were_put_tornOnce : ∃ j,
    Reach (Journaled.step false) (fun j a => j.Sound a ∧ a ∈ {a | a ∈ tornOnce})
      (.start (ascii "db") 1000 0) j ∧
    j.engine.get ⟨ascii "cpu", 7⟩ = some (ascii "x") ∧
    ∃ a ∈ tornOnce, ∃ ops ∈ a.operations, .put (ascii "cpu") 7 (ascii "x") ∈ ops := by
  have hrun : (tornOnce.foldlM (guarded (Journaled.step false) fun j a => j.soundFlushed a = true)
      (Journaled.start (ascii "db") 1000 0)).map (fun j => j.engine.get ⟨ascii "cpu", 7⟩) =
      some (some (ascii "x")) := by decide +kernel
  obtain ⟨j, hj, hread⟩ := Option.map_eq_some_iff.mp hrun
  have hreach : Reach (Journaled.step false) (fun j a => j.Sound a ∧ a ∈ {a | a ∈ tornOnce})
      (.start (ascii "db") 1000 0) j := by
    have hguarded : Reach (guarded (Journaled.step false) fun j a => j.soundFlushed a = true)
        (fun _ a => a ∈ tornOnce) (.start (ascii "db") 1000 0) j := reach_foldlM (fun _ ha _ => ha) hj
    exact hguarded.of_guarded.mono fun _ _ hok => ⟨sound_of_flushed hok.1, hok.2⟩
  obtain ⟨hput, -, -⟩ := reads_were_put false (ascii "db") 1000 0 {a | a ∈ tornOnce} hreach
  exact ⟨j, hreach, hread, hput ⟨ascii "cpu", 7⟩ (ascii "x") hread⟩

end MiniTsdb
