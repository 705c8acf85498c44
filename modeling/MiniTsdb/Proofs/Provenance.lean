import MiniTsdb.Proofs.BatchWrite
import MiniTsdb.Proofs.CleanClose
import MiniTsdb.Spec.Journal

/-! Where data comes from. What holds of the entry of every operation that is issued holds of
every entry in memory, in the log, in waiting calls and in the tables, across compactions and
crashes; so reads return nothing that was not written. -/

namespace MiniTsdb
open Lib

variable {e e' : Engine}

theorem makeRoom_next_call (e : Engine) (n : ℕ) :
    Engine.makeRoomForWrite { e with next_call := n } =
      e.makeRoomForWrite.map fun e => { e with next_call := n } := by
  simp only [Engine.makeRoomForWrite, apply_ite (Option.map _), Option.map_none, Option.map_some]
  rfl

theorem enter_wal (e : Engine) (ops : List Operation) :
    (e.enter ops).wal = e.wal.appendAll (if e.makeRoomForWrite.isSome then ops else []) := by
  rw [Engine.enter]
  dsimp only
  rw [makeRoom_next_call]
  cases hr : e.makeRoomForWrite with
  | none => rfl
  | some e₁ =>
    have hsame := room_wal (makeRoom_cases hr)
    simp [Engine.logAndApplyOps, applyOps_wal, hsame]

theorem resume_wal {id : ℕ} (hs : e.resume id = some e') :
    e'.wal = e.wal.appendAll (e.appends (.resume id)) := by
  unfold Engine.resume at hs
  unfold Engine.appends
  split at hs
  · contradiction
  · rename_i c hc
    obtain ⟨e₁, hr, rfl⟩ := Option.map_eq_some_iff.mp hs
    have hsame := room_wal (wakeUp_cases hr)
    simp only [hc]
    split_ifs
    · rw [applyOps_wal, hsame]
      rfl
    · simp [Engine.logAndApplyOps, applyOps_wal, hsame]

/-- Only the end of a flush does anything else to the log. -/
theorem step_wal {a : EngineAction} (hinv : EngineInv e) (hs : e.step a = some e')
    (hfinish : a ≠ .finishFlush) (hcrash : a ≠ .crash) : e'.wal = e.wal.appendAll (e.appends a) := by
  by_cases hresume : ∃ id, a = .resume id
  · obtain ⟨id, rfl⟩ := hresume
    exact resume_wal (step_resume hs)
  by_cases hops : a.operations = none
  · have hframe := frame_step hinv hs hops (fun id ha => hresume ⟨id, ha⟩) hfinish hcrash ⟨[], 0⟩
    rw [hframe.1]
    cases a <;> simp_all [EngineAction.operations, Engine.appends, WAL.appendAll]
  · cases step_kind hs with
    | noop => simp [Engine.appends, WAL.appendAll]
    | enter henter =>
      rw [enter_wal]
      cases a <;> simp_all [EngineAction.operations, Engine.appends]
    | resume hr => exact absurd ⟨_, rfl⟩ hresume
    | finishFlush _ => exact absurd rfl hfinish
    | crash => exact absurd rfl hcrash
    | store hb _ => cases a <;> contradiction
    | closing hc _ => cases a <;> contradiction
    | _ => exact absurd rfl hops

theorem step_finishFlush (hs : e.step .finishFlush = some e') : e.finishFlush = some e' := by
  cases step_kind hs with
  | finishFlush hf => exact hf
  | enter hops => contradiction
  | store hb => contradiction
  | closing hc => contradiction

def Operation.stored (op : Operation) : TsKey × InternalEntry := (op.key, op.entry)

variable (P : TsKey × InternalEntry → Prop)

def Written (ops : List Operation) : Prop := ∀ op ∈ ops, P op.stored

def MemTable.All (m : MemTable) : Prop := ∀ x ∈ m.table, P x

variable {P}

theorem MemTable.All.new : MemTable.new.All P := fun x hx => by contradiction

theorem MemTable.All.apply {m : MemTable} (h : m.All P) {op : Operation} (hop : P op.stored) :
    (m.apply op).All P := by
  intro x hx
  cases op with
  | put measurement timestamp value =>
    rcases mem_insertEntry hx with rfl | hx
    · exact hop
    · exact h x hx
  | delete measurement timestamp =>
    rcases mem_insertEntry hx with rfl | hx
    · exact hop
    · exact h x hx

theorem MemTable.All.foldl {m : MemTable} (h : m.All P) {ops : List Operation} (hops : Written P ops) :
    (ops.foldl MemTable.apply m).All P := by
  induction ops generalizing m with
  | nil => exact h
  | cons op ops ih =>
    obtain ⟨hop, hops⟩ := List.forall_mem_cons.mp hops
    exact ih (h.apply hop) hops

theorem MemTable.All.iterate {m : MemTable} (h : m.All P) : ∀ x ∈ m.iterateEntries, P x :=
  fun x hx => h x ((List.dropWhile_sublist _).subset hx)

def Short (x : TsKey × InternalEntry) : Prop := x.1.measurement.length < 2 ^ 32

variable (P) in
structure Held (e : Engine) : Prop where
  mem : e.mem.All P
  imm : ∀ m, e.imm = some m → m.All P
  flush : ∀ m, e.flush.memtable = some m → m.All P
  calls : ∀ c ∈ e.calls, Written P c.ops

theorem Held.rotate (h : Held P e) : Held P e.rotate := by
  refine ⟨.new, fun m hm => ?_, h.flush, h.calls⟩
  obtain rfl := Option.some.inj hm
  exact h.mem

theorem Held.room (h : Held P e) (hr : e' = e ∨ e' = e.rotate ∧ e.imm = none ∧ e.flush = .idle) :
    Held P e' := by
  rcases hr with rfl | ⟨rfl, -, -⟩
  · exact h
  · exact h.rotate

theorem held_applyOps (h : Held P e) (id : ℕ) {ops : List Operation} (hops : Written P ops) :
    Held P (e.applyOps id ops) := by
  refine applyOps_induct (P := fun e rest => Held P e ∧ Written P rest) ?_ ?_ ?_ ?_ ⟨h, hops⟩
  · rintro e op rest ⟨h, hrest⟩
    obtain ⟨hop, hrest⟩ := List.forall_mem_cons.mp hrest
    exact ⟨⟨h.mem.apply hop, h.imm, h.flush, h.calls⟩, hrest⟩
  · rintro e e' rest ⟨h, hrest⟩ hr
    exact ⟨h.room (makeRoom_cases hr), hrest⟩
  · rintro e rest ⟨h, hrest⟩
    exact ⟨h.mem, h.imm, h.flush, List.forall_mem_cons.mpr ⟨hrest, h.calls⟩⟩
  · rintro e ⟨h, -⟩
    exact h

theorem held_logAndApply (h : Held P e) (id : ℕ) {ops : List Operation} (hops : Written P ops) :
    Held P (e.logAndApplyOps id ops) :=
  held_applyOps (e := { e with wal := e.wal.appendAll ops }) ⟨h.mem, h.imm, h.flush, h.calls⟩ id hops

theorem held_enter (h : Held P e) {ops : List Operation} (hops : Written P ops) : Held P (e.enter ops) := by
  have hnumber : Held P { e with next_call := e.next_call + 1 } := ⟨h.mem, h.imm, h.flush, h.calls⟩
  rw [Engine.enter]
  dsimp only
  cases hr : Engine.makeRoomForWrite { e with next_call := e.next_call + 1 } with
  | none => exact ⟨h.mem, h.imm, h.flush, List.forall_mem_cons.mpr ⟨hops, h.calls⟩⟩
  | some e₁ => exact held_logAndApply (hnumber.room (makeRoom_cases hr)) _ hops

theorem held_resume (h : Held P e) {id : ℕ} (hs : e.resume id = some e') : Held P e' := by
  unfold Engine.resume at hs
  split at hs
  · contradiction
  · rename_i c hc
    have hops := h.calls c (List.mem_of_find?_eq_some hc)
    obtain ⟨e₁, hr, rfl⟩ := Option.map_eq_some_iff.mp hs
    have hroom := h.room (wakeUp_cases hr)
    have hrest : Held P { e₁ with calls := e₁.calls.filter fun c => c.id != id } :=
      ⟨hroom.mem, hroom.imm, hroom.flush, fun c hc => hroom.calls c (List.mem_of_mem_filter hc)⟩
    dsimp only
    split_ifs
    · exact held_applyOps hrest id hops
    · exact held_logAndApply hrest id hops

/-- A memtable goes from `mem_` to `imm_`, on to the flush thread and is dropped. -/
theorem held_step (h : Held P e) {a : EngineAction} (hops : ∀ ops ∈ a.operations, Written P ops)
    (hs : e.step a = some e') (hcrash : a ≠ .crash) : Held P e' := by
  cases step_kind hs with
  | noop => exact h
  | enter henter => exact held_enter h (hops _ henter)
  | resume hr => exact held_resume h hr
  | rotate hr =>
    obtain ⟨rfl, -, -⟩ := flushMem_eq hr
    exact h.rotate
  | takeImm ht =>
    obtain ⟨m, himm, -, rfl⟩ := takeImm_eq ht
    refine ⟨h.mem, fun m' hm' => by contradiction, fun m' hm' => ?_, h.calls⟩
    obtain rfl := Option.some.inj hm'
    exact h.imm m himm
  | buildSST hb =>
    obtain ⟨m, s, hflush, -, rfl⟩ := buildSST_eq hb
    exact ⟨h.mem, h.imm, fun m' hm' => h.flush m' (by rw [hflush]; exact hm'), h.calls⟩
  | logFlush hl =>
    obtain ⟨m, s, hflush, -, rfl⟩ := logFlush_eq hl
    exact ⟨h.mem, h.imm, fun m' hm' => h.flush m' (by rw [hflush]; exact hm'), h.calls⟩
  | finishFlush hf =>
    obtain ⟨m, -, rfl⟩ := finishFlush_eq hf
    exact ⟨h.mem, h.imm, fun m' hm' => by contradiction, h.calls⟩
  | closing _ hc =>
    rw [closing_eq hc]
    exact ⟨h.mem, h.imm, h.flush, h.calls⟩
  | shutdown _ hd =>
    obtain ⟨s, -, rfl⟩ := shutdown_spec hd
    exact ⟨h.mem, h.imm, h.flush, h.calls⟩
  | crash => exact absurd rfl hcrash
  | _ => exact ⟨h.mem, h.imm, h.flush, h.calls⟩

theorem held_crash {ops : List Operation} (hops : Written P ops)
    (hreplay : e.wal.replayEntries.1 = ops.map Operation.walEntry) : Held P e.crash := by
  obtain ⟨hidle, himm, hcalls⟩ := crash_idle e
  have hmem : e.crash.mem = ops.foldl MemTable.apply .new := by
    have hmemory := congrArg Prod.fst (crash_memory e)
    rw [hreplay, foldl_replayHandler] at hmemory
    exact hmemory
  refine ⟨?_, fun m hm => ?_, fun m hm => ?_, fun c hc => ?_⟩
  · rw [hmem]
    exact MemTable.All.new.foldl hops
  · rw [himm] at hm
    contradiction
  · rw [hidle] at hm
    contradiction
  · rw [hcalls] at hc
    contradiction

theorem held_start (db_dir : Bytes) (limit : Int64) (target : ℕ) : Held P (Engine.start db_dir limit target) := by
  rw [start_open]
  exact ⟨.new, fun m hm => by contradiction, fun m hm => by contradiction, fun c hc => by contradiction⟩

theorem appends_written (h : Held P e) {a : EngineAction} (hops : ∀ ops ∈ a.operations, Written P ops) :
    Written P (e.appends a) := by
  have hnil : Written P [] := fun op hop => by contradiction
  have hroom : ∀ ops, Written P ops → Written P (if e.makeRoomForWrite.isSome then ops else []) := by
    intro ops hops
    split_ifs
    · exact hops
    · exact hnil
  cases a with
  | put measurement timestamp value => exact hroom _ (hops _ rfl)
  | delete measurement timestamp => exact hroom _ (hops _ rfl)
  | write batch => exact hroom _ (hops _ rfl)
  | resume id =>
    simp only [Engine.appends]
    split
    · rename_i c hc
      split_ifs
      · exact hnil
      · exact h.calls c (List.mem_of_find?_eq_some hc)
    · exact hnil
  | _ => exact hnil

def SSTable.Finished (t : SSTable) : Prop := finishTable t.entries = some t

variable (P) in
structure Filed (dir : SstDir) : Prop where
  finished : ∀ f ∈ dir, ∀ t, f.2 = some t → t.Finished
  ascending : ∀ f ∈ dir, ∀ t, f.2 = some t → Ascending Prod.fst t.entries
  entries : ∀ f ∈ dir, ∀ t, f.2 = some t → ∀ x ∈ t.entries, P x

theorem Filed.keep {dir dir' : SstDir} (h : Filed P dir) (hsub : dir'.Sublist dir) : Filed P dir' :=
  ⟨fun f hf => h.finished f (hsub.subset hf), fun f hf => h.ascending f (hsub.subset hf),
    fun f hf => h.entries f (hsub.subset hf)⟩

theorem Filed.write {dir : SstDir} (h : Filed P dir) (name : Bytes) {t : SSTable} (ht : t.Finished)
    (hasc : Ascending Prod.fst t.entries) (hentries : ∀ x ∈ t.entries, P x) :
    Filed P (writeTable dir name t) := by
  have hcase : ∀ f ∈ writeTable dir name t, ∀ t', f.2 = some t' → f ∈ dir ∨ t' = t := by
    intro f hf t' ht'
    rcases List.mem_append.mp hf with hf | hf
    · exact Or.inl (List.mem_of_mem_filter hf)
    · obtain rfl := List.mem_singleton.mp hf
      exact Or.inr (Option.some.inj ht').symm
  constructor
  · intro f hf t' ht'
    rcases hcase f hf t' ht' with hf | rfl
    · exact h.finished f hf t' ht'
    · exact ht
  · intro f hf t' ht'
    rcases hcase f hf t' ht' with hf | rfl
    · exact h.ascending f hf t' ht'
    · exact hasc
  · intro f hf t' ht'
    rcases hcase f hf t' ht' with hf | rfl
    · exact h.entries f hf t' ht'
    · exact hentries

theorem finished_of_finish {entries : List (TsKey × InternalEntry)} {t : SSTable}
    (h : finishTable entries = some t) : t.Finished := by
  rw [SSTable.Finished, finishTable_entries h, h]

/-- A compaction writes entries of live tables only. -/
theorem filed_step {scanned : TsKey → Bool} {s s' : Store} {b : StoreAction} (h : Filed P s.dir)
    (hinv : StoreInv scanned s) (hscans : StoreScans scanned s b)
    (hbuild : ∀ entries, b = .build entries → ∀ x ∈ entries, P x) (hs : s.step b = some s') :
    Filed P s'.dir := by
  cases store_kind hs with
  | build _ ht =>
    have hentries := finishTable_entries ht
    exact h.write _ (finished_of_finish ht) (hentries ▸ hscans) (hentries ▸ hbuild _ rfl)
  | output hrun hrest _ ht =>
    obtain ⟨hasc, hsource⟩ := output_sourced (a := .output) hinv hrun hrest ht
    refine h.write _ (finished_of_finish ht) hasc fun x hx => ?_
    rcases hsource with hbad | hsource
    · contradiction
    · obtain ⟨l, f, hf, hget⟩ := hsource x.1 x.2 (hasc.lookup_eq_some hx)
      obtain ⟨g, hg, ht⟩ := openTable_mem (hinv.live l f hf).disk
      exact h.entries g hg _ ht x (mem_of_lookup hget)
  | commitFlush hc =>
    obtain ⟨n, t, -, rfl⟩ := commitFlush_eq hinv hc
    exact h
  | commit hrun hc =>
    obtain ⟨-, -, rfl⟩ := commitCompaction_eq hinv hrun hc
    split_ifs
    · exact h.keep (cleaned _ _).dir
    · exact h
  | skip => exact h.keep (cleaned_tryDelete _ _).dir
  | cleanup => exact h.keep (cleaned _ _).dir
  | shutdown => exact h.keep (cleaned _ _).dir
  | _ => exact h

/-- The flush thread hands its memtable to the builder, and nothing else comes to it. -/
theorem store_built {a : EngineAction} (hs : e.step a = some e') (hcrash : a ≠ .crash) :
    e'.store = e.store ∨ ∃ b, StoreScans sstScanned e.store b ∧
      (∀ entries, b = .build entries → ∃ m, e.flush.memtable = some m ∧ entries = m.iterateEntries) ∧
      e.store.step b = some e'.store := by
  cases step_kind hs with
  | noop => exact Or.inl rfl
  | enter _ => exact Or.inl ((callRule_store e.store).enter rfl _)
  | resume hr => exact Or.inl ((callRule_store e.store).resume rfl hr)
  | rotate hr =>
    obtain ⟨rfl, -, -⟩ := flushMem_eq hr
    exact Or.inl rfl
  | takeImm ht =>
    obtain ⟨m, -, -, rfl⟩ := takeImm_eq ht
    exact Or.inl rfl
  | buildSST hb =>
    obtain ⟨m, s, hflush, hstep, rfl⟩ := buildSST_eq hb
    refine Or.inr ⟨.build m.iterateEntries, ascending_iterateEntries m, fun entries hb => ?_, hstep⟩
    exact ⟨m, by rw [hflush]; rfl, (StoreAction.build.inj hb).symm⟩
  | logFlush hl =>
    obtain ⟨m, s, -, hstep, rfl⟩ := logFlush_eq hl
    exact Or.inr ⟨.commitFlush, trivial, fun entries hb => by contradiction, hstep⟩
  | finishFlush hf =>
    obtain ⟨m, -, rfl⟩ := finishFlush_eq hf
    exact Or.inl rfl
  | store hb hstep =>
    refine Or.inr ⟨_, storeAction_scans hb, fun entries hbuild => ?_, hstep⟩
    subst hbuild
    cases a <;> simp [Engine.storeAction] at hb
  | @commit cleanup_obsolete held s _ hstep =>
    exact Or.inr ⟨.commit cleanup_obsolete held, trivial, fun entries hb => by contradiction, hstep⟩
  | setTTL => exact Or.inl rfl
  | closing _ hc =>
    rw [closing_eq hc]
    exact Or.inl rfl
  | @shutdown held _ _ hd =>
    obtain ⟨s, hstep, rfl⟩ := shutdown_spec hd
    exact Or.inr ⟨.shutdown held, trivial, fun entries hb => by contradiction, hstep⟩
  | crash => exact absurd rfl hcrash

theorem filed_engine (h : Filed P e.store.dir) (hinv : EngineInv e) (hheld : Held P e) {a : EngineAction}
    (hs : e.step a = some e') (hcrash : a ≠ .crash) : Filed P e'.store.dir := by
  rcases store_built hs hcrash with hsame | ⟨b, hscans, hbuild, hstep⟩
  · rw [hsame]
    exact h
  · refine filed_step h hinv.store hscans (fun entries hb => ?_) hstep
    obtain ⟨m, hflush, rfl⟩ := hbuild entries hb
    exact (hheld.flush m hflush).iterate

theorem filed_start (db_dir : Bytes) (limit : Int64) (target : ℕ) :
    Filed P (Engine.start db_dir limit target).store.dir := by
  have hstore : Store.start db_dir target =
      Startup.store ⟨(VersionManager.init db_dir fun _ => none).1, [], fun _ => none, []⟩ target := by
    rw [Store.start, start_eq]
  rw [start_open, hstore]
  exact ⟨fun f hf => by contradiction, fun f hf => by contradiction, fun f hf => by contradiction⟩

theorem crash_dir (hinv : EngineInv e) (hdisk : EngineDisk e) (hreopens : e.Reopens) :
    e.crash.store.vmgr.db_dir = e.store.vmgr.db_dir ∧ e.crash.store.dir.Sublist e.store.dir := by
  rw [crash_store]
  change e.store.reopened.vm.db_dir = _ ∧ e.store.reopened.dir.Sublist _
  by_cases hempty : e.store.vmgr.current.IsEmpty
  · have hr := reopen_scan hdisk.disk hdisk.logged hempty (hreopens.resolve_left (not_not.mpr hempty)).1
    exact ⟨hr.db_dir, hr.dir ▸ List.Sublist.refl _⟩
  · have hr := reopen_version hinv.store hdisk.logged hempty
    refine ⟨hr.recovered.dir_eq, ?_⟩
    rw [hr.dir]
    exact List.filter_sublist

theorem MemTable.All.getEntry {m : MemTable} (h : m.All P) {key : TsKey} {entry : InternalEntry}
    (hget : m.getEntry key = some entry) : P (key, entry) := by
  rw [getEntry_eq_lookup] at hget
  exact h _ (mem_of_lookup hget)

theorem filed_met {scanned : TsKey → Bool} {s : Store} (hinv : StoreInv scanned s) (h : Filed P s.dir)
    {key : TsKey} {entry : InternalEntry} (hmet : entry ∈ s.met key) : P (key, entry) := by
  obtain ⟨l, -, hversions⟩ := List.mem_flatMap.mp hmet
  obtain ⟨t, ht, hget⟩ := List.mem_filterMap.mp hversions
  obtain ⟨f, hf, rfl⟩ := List.mem_map.mp (List.mem_reverse.mp ht)
  obtain ⟨x, hx, htable⟩ := openTable_mem (hinv.live l f hf).disk
  exact h.entries x hx _ htable _ (mem_of_lookup hget)

theorem get_written (hinv : EngineInv e) (hheld : Held P e) (hfiled : Filed P e.store.dir) {key : TsKey}
    {value : Bytes} (h : e.get key = some value) : P (key, ⟨value, .kValue⟩) := by
  rw [get_eq hinv] at h
  split_ifs at h
  obtain ⟨entry, hhead, hread⟩ := Option.bind_eq_some_iff.mp h
  have hentry : P (key, entry) := by
    rcases List.mem_append.mp (List.mem_of_head? hhead) with hmem | hrest
    · exact hheld.mem.getEntry (Option.mem_toList.mp hmem)
    rcases List.mem_append.mp hrest with himm | hmet
    · obtain ⟨m, hm, hget⟩ := Option.bind_eq_some_iff.mp (Option.mem_toList.mp himm)
      exact (hheld.imm m hm).getEntry hget
    · exact filed_met hinv.store hfiled hmet
  obtain ⟨v, kind⟩ := entry
  cases kind with
  | kValue =>
    obtain rfl := Option.some.inj hread
    exact hentry
  | kDeletion => contradiction

end MiniTsdb
