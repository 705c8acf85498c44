import MiniTsdb.Proofs.Durability
import MiniTsdb.Proofs.CloseJoin
import MiniTsdb.Proofs.TtlReads

/-! A clean `Close`. Whatever the flush thread does to the log while writers go on, once `Close`
returns every key is on disk, and the log has nothing that memory did not have. -/

namespace MiniTsdb
open Lib

structure LogTail (key : TsKey) (e : Engine) (log rest : List Operation) : Prop where
  wal : e.wal = ⟨encodeLog log⟩
  short : ∀ op ∈ log, op.measurement.length < 2 ^ 32
  held : lastIn log key ≠ none → e.memVersions key ++ e.unapplied key rest ≠ []

section
variable {key : TsKey} {e e' : Engine} {log rest : List Operation}

theorem LogTail.applyOp {op : Operation} {ops : List Operation} (h : LogTail key e log (op :: ops))
    (id : ℕ) : LogTail key (e.applyOp id op) log ops := by
  have hbefore : e.unapplied key (op :: ops) = ((lastIn ops key).or
      (if key = op.key then some op.entry else none)).toList ++
        e.calls.filterMap (Call.pending key) := by
    rw [Engine.unapplied, lastIn_cons]
  have hafter : (e.applyOp id op).unapplied key ops = (lastIn ops key).toList ++
      e.calls.filterMap (Call.pending key) := rfl
  refine ⟨h.wal, h.short, fun hlog => ?_⟩
  have hheld := h.held hlog
  rw [hbefore] at hheld
  rw [hafter, memVersions_applyOp]
  by_cases hk : key = op.key
  · simp [hk]
  · simpa [hk] using hheld

theorem LogTail.room (h : LogTail key e log rest)
    (hr : e' = e ∨ e' = e.rotate ∧ e.imm = none ∧ e.flush = .idle) : LogTail key e' log rest := by
  rcases hr with rfl | ⟨rfl, himm, -⟩
  · exact h
  · refine ⟨h.wal, h.short, fun hlog => ?_⟩
    rw [memVersions_rotate himm]
    exact h.held hlog

theorem LogTail.wait (h : LogTail key e log rest) (id : ℕ) :
    LogTail key { e with calls := ⟨id, true, rest⟩ :: e.calls } log [] := by
  have hsame : Engine.unapplied { e with calls := ⟨id, true, rest⟩ :: e.calls } key [] =
      e.unapplied key rest := by
    rw [Engine.unapplied, Engine.unapplied, List.filterMap_cons, Call.pending]
    cases hlast : lastIn rest key with
    | none => rfl
    | some entry => rfl
  refine ⟨h.wal, h.short, fun hlog => ?_⟩
  rw [hsame]
  exact h.held hlog

theorem LogTail.append {ops : List Operation} (h : LogTail key e log [])
    (hshort : ∀ op ∈ ops, op.measurement.length < 2 ^ 32) :
    LogTail key { e with wal := e.wal.appendAll ops } (log ++ ops) ops := by
  have hunapplied : Engine.unapplied { e with wal := e.wal.appendAll ops } key ops =
      (lastIn ops key).toList ++ e.unapplied key [] := rfl
  refine ⟨?_, ?_, fun hlog => ?_⟩
  · rw [h.wal]
    exact encodeLog_appendAll log ops
  · intro op hop
    rcases List.mem_append.mp hop with hop | hop
    · exact h.short op hop
    · exact hshort op hop
  · rw [lastIn_append] at hlog
    rw [hunapplied]
    cases hlast : lastIn ops key with
    | some entry => simp
    | none =>
      rw [hlast, Option.none_or] at hlog
      exact h.held hlog

end

/-- The measurements of operations, as long as the log can have them. -/
def Logs (ops : List Operation) : Prop := ∀ op ∈ ops, op.measurement.length < 2 ^ 32

instance (ops : List Operation) : Decidable (Logs ops) :=
  inferInstanceAs (Decidable (∀ op ∈ ops, op.measurement.length < 2 ^ 32))

structure TailHeld (key : TsKey) (e : Engine) : Prop where
  calls : CallsInv e
  logs : ∀ c ∈ e.calls, Logs c.ops
  log : ∃ log, LogTail key e log []

/-- The same inside call `id`, with `rest` to apply. -/
structure TailHeldIn (key : TsKey) (id : ℕ) (e : Engine) (rest : List Operation) : Prop where
  calls : CallsInv e
  inside : ∀ c ∈ e.calls, c.id ≠ id
  old : id < e.next_call
  logs : ∀ c ∈ e.calls, Logs c.ops
  left : Logs rest
  log : ∃ log, LogTail key e log rest

variable {key : TsKey} {e e' : Engine}

theorem TailHeldIn.room {id : ℕ} {rest : List Operation} (h : TailHeldIn key id e rest)
    (hr : e' = e ∨ e' = e.rotate ∧ e.imm = none ∧ e.flush = .idle) : TailHeldIn key id e' rest := by
  obtain ⟨hcalls, hid, hold, hlogs, hrest, log, hlog⟩ := h
  obtain ⟨hsame, hnext⟩ := room_calls hr
  refine ⟨⟨?_, ?_⟩, ?_, ?_, ?_, hrest, log, hlog.room hr⟩
  · rw [hsame]
    exact hcalls.ids
  · rw [hsame, hnext]
    exact hcalls.fresh
  · rw [hsame]
    exact hid
  · rw [hnext]
    exact hold
  · rw [hsame]
    exact hlogs

theorem tailHeld_applyOps {id : ℕ} {ops : List Operation} (h : TailHeldIn key id e ops) :
    TailHeld key (e.applyOps id ops) := by
  refine applyOps_induct (P := TailHeldIn key id) ?_ ?_ ?_ ?_ h
  · rintro e op ops ⟨hcalls, hid, hold, hlogs, hrest, log, hlog⟩
    exact ⟨⟨hcalls.ids, hcalls.fresh⟩, hid, hold, hlogs, (List.forall_mem_cons.mp hrest).2, log,
      hlog.applyOp id⟩
  · intro e e' ops hin hr
    exact hin.room (makeRoom_cases hr)
  · rintro e ops ⟨hcalls, hid, hold, hlogs, hrest, log, hlog⟩
    exact ⟨hcalls.wait hid hold true ops, List.forall_mem_cons.mpr ⟨hrest, hlogs⟩, log, hlog.wait id⟩
  · rintro e ⟨hcalls, -, -, hlogs, -, log, hlog⟩
    exact ⟨hcalls, hlogs, log, hlog⟩

theorem tailHeld_logAndApply {id : ℕ} {ops : List Operation} (h : TailHeldIn key id e [])
    (hops : Logs ops) : TailHeld key (e.logAndApplyOps id ops) := by
  obtain ⟨hcalls, hid, hold, hlogs, -, log, hlog⟩ := h
  exact tailHeld_applyOps ⟨⟨hcalls.ids, hcalls.fresh⟩, hid, hold, hlogs, hops, log ++ ops, hlog.append hops⟩

theorem tailHeld_enter {ops : List Operation} (h : TailHeld key e) (hops : Logs ops) :
    TailHeld key (e.enter ops) := by
  obtain ⟨hcalls, hlogs, log, hlog⟩ := h
  have hin : TailHeldIn key e.next_call { e with next_call := e.next_call + 1 } [] :=
    ⟨⟨hcalls.ids, fun c hc => Nat.lt_succ_of_lt (hcalls.fresh c hc)⟩,
      fun c hc => (hcalls.fresh c hc).ne, Nat.lt_succ_self _, hlogs, fun op hop => by contradiction, log,
      hlog.wal, hlog.short, hlog.held⟩
  rw [Engine.enter]
  dsimp only
  cases hr : Engine.makeRoomForWrite { e with next_call := e.next_call + 1 } with
  | none =>
    exact ⟨hin.calls.wait hin.inside hin.old false ops, List.forall_mem_cons.mpr ⟨hops, hlogs⟩, log,
      hlog.wal, hlog.short, hlog.held⟩
  | some e₁ => exact tailHeld_logAndApply (hin.room (makeRoom_cases hr)) hops

/-- A call that goes on hands over what it has left, or logs its operations now. -/
theorem tailHeld_resume {id : ℕ} (h : TailHeld key e) (hs : e.resume id = some e') : TailHeld key e' := by
  obtain ⟨hcalls, hlogs, log, hlog⟩ := h
  unfold Engine.resume at hs
  split at hs
  · contradiction
  · rename_i c hc
    have hmem := List.mem_of_find?_eq_some hc
    obtain rfl : c.id = id := by simpa using List.find?_some hc
    obtain ⟨e₁, hr, rfl⟩ := Option.map_eq_some_iff.mp hs
    obtain ⟨hsame, hnext⟩ := room_calls (wakeUp_cases hr)
    have hroom := hlog.room (wakeUp_cases hr)
    have hsub : (e₁.calls.filter fun c' => c'.id != c.id).Sublist e.calls := by
      rw [hsame]
      exact List.filter_sublist
    have hperm : (e₁.unapplied key []).Perm ((c.pending key).toList ++
        Engine.unapplied { e₁ with calls := e₁.calls.filter fun c' => c'.id != c.id } key []) := by
      rw [← hsame] at hmem
      exact filterMap_remove (by rw [hsame]; exact hcalls.ids) hmem key
    have hin : ∀ rest, Logs rest → lastIn rest key = c.pending key →
        TailHeldIn key c.id { e₁ with calls := e₁.calls.filter fun c' => c'.id != c.id } rest := by
      intro rest hrest hpending
      refine ⟨⟨hcalls.ids.sublist (hsub.map _), fun c' hc' => ?_⟩, fun c' hc' => ?_, ?_,
        fun c' hc' => hlogs c' (hsub.subset hc'), hrest, log, hroom.wal, hroom.short, fun hfound => ?_⟩
      · change c'.id < e₁.next_call
        rw [hnext]
        exact hcalls.fresh c' (hsub.subset hc')
      · simpa using (List.mem_filter.mp hc').2
      · change c.id < e₁.next_call
        rw [hnext]
        exact hcalls.fresh c hmem
      · have hheld := hroom.held hfound
        have hsplit : Engine.unapplied { e₁ with calls := e₁.calls.filter fun c' => c'.id != c.id } key rest =
            (c.pending key).toList ++
              Engine.unapplied { e₁ with calls := e₁.calls.filter fun c' => c'.id != c.id } key [] := by
          rw [← hpending]
          rfl
        rw [hsplit]
        exact fun hnil => hheld ((hperm.append_left _).trans (List.Perm.of_eq hnil)).eq_nil
    dsimp only
    split_ifs with hlogged
    · exact tailHeld_applyOps (hin c.ops (hlogs c hmem) (by rw [Call.pending, if_pos hlogged]))
    · refine tailHeld_logAndApply (hin [] (fun op hop => by contradiction) ?_) (hlogs c hmem)
      rw [Call.pending, if_neg hlogged]
      rfl

/-- A step that writes nothing keeps the log, the calls and what is in memory. -/
theorem tailHeld_frame (h : TailHeld key e) (hinv : EngineInv e) {a : EngineAction}
    (hs : e.step a = some e') (hops : a.operations = none) (hresume : ∀ id, a ≠ .resume id)
    (hfinish : a ≠ .finishFlush) (hcrash : a ≠ .crash) : TailHeld key e' := by
  obtain ⟨hcalls, hlogs, log, hlog⟩ := h
  obtain ⟨hwal, hsame, hnext, hmem⟩ := frame_step hinv hs hops hresume hfinish hcrash key
  refine ⟨⟨hsame ▸ hcalls.ids, ?_⟩, hsame ▸ hlogs, log, hwal ▸ hlog.wal, hlog.short, fun hfound => ?_⟩
  · rw [hsame, hnext]
    exact hcalls.fresh
  · rw [hmem, Engine.unapplied, hsame]
    exact hlog.held hfound

theorem tailHeld_finishFlush (h : TailHeld key e) (hs : e.finishFlush = some e') : TailHeld key e' := by
  obtain ⟨m, -, rfl⟩ := finishFlush_eq hs
  exact ⟨⟨h.calls.ids, h.calls.fresh⟩, h.logs, [], rfl, fun op hop => by contradiction,
    fun hfound => absurd rfl hfound⟩

theorem tailHeld_step (h : TailHeld key e) (hinv : EngineInv e) {a : EngineAction}
    (hshort : ∀ ops, a.operations = some ops → Logs ops) (hs : e.step a = some e') (hcrash : a ≠ .crash) :
    TailHeld key e' := by
  have hframe : a.operations = none → (∀ id, a ≠ .resume id) → a ≠ .finishFlush → TailHeld key e' :=
    fun hops hresume hfinish => tailHeld_frame h hinv hs hops hresume hfinish hcrash
  cases step_kind hs with
  | noop => exact h
  | enter hops => exact tailHeld_enter h (hshort _ hops)
  | resume hr => exact tailHeld_resume h hr
  | finishFlush hf => exact tailHeld_finishFlush h hf
  | store hb _ => apply hframe <;> cases a <;> first | contradiction | rfl | (intros; simp)
  | closing hc _ => apply hframe <;> cases a <;> first | contradiction | rfl | (intros; simp)
  | _ => exact hframe rfl (by simp) (by simp)

theorem tailHeld_start (db_dir : Bytes) (limit : Int64) (target : ℕ) (key : TsKey) :
    TailHeld key (Engine.start db_dir limit target) := by
  rw [start_open]
  exact ⟨⟨List.nodup_nil, fun c hc => by contradiction⟩, fun c hc => by contradiction, [], rfl,
    fun op hop => by contradiction, fun hfound => absurd rfl hfound⟩

/-- A step of a run that is closed in peace: writers are through when `Close` is called and no
others come, a key is not expired where a compaction is picked, and what is written parses back. -/
structure Engine.ClosesWell (key : TsKey) (e : Engine) (a : EngineAction) : Prop where
  spares : e.Spares {key} a
  logsBack : e.LogsBack a
  logs : ∀ ops, a.operations = some ops → Logs ops ∧ e.closing = .opened
  quiet : a = .close → e.calls = []

def CloseStage.afterFlush : CloseStage → Bool
  | opened | flushing => false
  | _ => true

structure CloseInv (key : TsKey) (e : Engine) : Prop where
  spared : SparedInv {key} e
  disk : EngineDisk e
  tail : TailHeld key e
  calls : e.closing ≠ .opened → e.calls = []
  memory : e.closing.afterFlush = true → e.memVersions key = []

/-- How a step moves the stage of `Close`. -/
inductive StageStep (e : Engine) : EngineAction → CloseStage → Prop
  | same (a : EngineAction) : StageStep e a e.closing
  | close (h : e.closing = .opened) : StageStep e .close .flushing
  | closeFlushed (h : e.closing = .flushing) (hmem : e.mem.isEmpty = true) (himm : e.imm = none)
      (hidle : e.flush = .idle) : StageStep e .closeFlushed .flushed
  | stop (h : e.closing = .flushed) : StageStep e .stop .joining
  | shutdown {held : List Bytes} (h : e.closing = .joining) : StageStep e (.shutdown held) .done

theorem stage_step {a : EngineAction} (hs : e.step a = some e') (hcrash : a ≠ .crash) :
    StageStep e a e'.closing := by
  have hsame : e'.closing = e.closing → StageStep e a e'.closing := fun h => h ▸ .same a
  cases step_kind hs with
  | noop => exact .same _
  | enter hops => exact hsame ((callRule_closing e).enter ⟨rfl, rfl, rfl⟩ _).2.1
  | resume hr => exact hsame ((callRule_closing e).resume ⟨rfl, rfl, rfl⟩ hr).2.1
  | rotate hr =>
    obtain ⟨rfl, -, -⟩ := flushMem_eq hr
    exact .same _
  | takeImm ht =>
    obtain ⟨m, -, -, rfl⟩ := takeImm_eq ht
    exact .same _
  | buildSST hb =>
    obtain ⟨m, t, -, -, rfl⟩ := buildSST_eq hb
    exact .same _
  | logFlush hl =>
    obtain ⟨m, t, -, -, rfl⟩ := logFlush_eq hl
    exact .same _
  | finishFlush hf =>
    obtain ⟨m, -, rfl⟩ := finishFlush_eq hf
    exact .same _
  | store hb hstep => exact .same _
  | commit _ hstep => exact .same _
  | setTTL => exact .same _
  | closing hcloses _ =>
    unfold Engine.step at hs
    split_ifs at hs
    cases a with
    | exitFlush =>
      simp only [Engine.exitFlush] at hs
      split_ifs at hs
      rw [← Option.some.inj hs]
      exact .same _
    | close =>
      simp only [Engine.close] at hs
      split_ifs at hs with hopen
      · rw [← Option.some.inj hs]
        exact .close hopen
      · rw [← Option.some.inj hs]
        exact .same _
    | closeFlushed =>
      simp only [Engine.closeFlushed] at hs
      split_ifs at hs with hfree
      obtain ⟨hflushing, hmem, himm, hidle⟩ := hfree
      rw [← Option.some.inj hs]
      exact .closeFlushed hflushing hmem (Option.isNone_iff_eq_none.mp himm)
        (inProgress_eq_false.mp (by simpa using hidle))
    | stop =>
      simp only [Engine.stop] at hs
      split_ifs at hs with hflushed
      rw [← Option.some.inj hs]
      exact .stop hflushed
    | _ => contradiction
  | shutdown _ hd =>
    have hstage : e.closing = .joining := by
      unfold Engine.shutdown at hd
      split_ifs at hd with h
      exact h.1
    obtain ⟨t, -, rfl⟩ := shutdown_spec hd
    exact .shutdown hstage
  | crash => exact absurd rfl hcrash

/-- A flush with nothing left in memory is a flush of every key that tables can have. -/
theorem memVersions_of_flushed (hkey : TsKey.default ≤ key) (hmem : e.mem.isEmpty = true)
    (himm : e.imm = none) (hidle : e.flush = .idle) : e.memVersions key = [] := by
  have hnone : e.mem.getEntry key = none := by
    have hiter : e.mem.iterateEntries = [] := List.isEmpty_iff.mp hmem
    have hlookup := lookup_iterateEntries e.mem key
    rw [hiter, if_pos hkey] at hlookup
    exact hlookup.symm
  simp [Engine.memVersions, hnone, himm, hidle, FlushThread.memtable]

theorem closeInv_step {a : EngineAction} (h : CloseInv key e) (hkey : key.Stored)
    (hok : e.ClosesWell key a) (hs : e.step a = some e') : CloseInv key e' := by
  have hcrash : a ≠ .crash := by
    rintro rfl
    exact absurd hok.spares.1 (by decide)
  have hinv := h.spared.engine
  have hspared := sparedInv_step h.spared (fun _ hk => hk ▸ hkey) hok.spares hs
  have hstage := stage_step hs hcrash
  -- once `Close` is called, no write comes and none waits
  have hquiet : e.closing ≠ .opened → e'.calls = [] ∧ (e.memVersions key = [] → e'.memVersions key = []) := by
    intro hclosing
    have hcalls := h.calls hclosing
    have hops : a.operations = none := by
      cases hops : a.operations with
      | none => rfl
      | some ops => exact absurd (hok.logs ops hops).2 hclosing
    have hresume : ∀ id, a ≠ .resume id := by
      rintro id rfl
      have hr := step_resume hs
      simp [Engine.resume, hcalls] at hr
    by_cases hfinish : a = .finishFlush
    · subst hfinish
      cases step_kind hs with
      | finishFlush hf =>
        obtain ⟨m, hflush, hmem, hbefore, -, -⟩ := sources_finishFlush hinv hf key
        obtain ⟨m', -, rfl⟩ := finishFlush_eq hf
        refine ⟨hcalls, fun hnil => ?_⟩
        rw [hbefore] at hnil
        rw [hmem]
        exact (List.append_eq_nil_iff.mp hnil).1
      | store hb => contradiction
      | enter hops => contradiction
      | closing hc => contradiction
    · obtain ⟨-, hsame, -, hmem⟩ := frame_step hinv hs hops hresume hfinish hcrash key
      exact ⟨hsame.trans hcalls, fun hnil => hmem.trans hnil⟩
  refine ⟨hspared, engineDisk_step h.disk hinv hok.logsBack hs hcrash,
    tailHeld_step h.tail hinv (fun ops hops => (hok.logs ops hops).1) hs hcrash, fun hclosing => ?_,
    fun hafter => ?_⟩
  · by_cases hopen : e.closing = .opened
    · generalize hnext : e'.closing = next at hstage
      cases hstage with
      | same => exact absurd (hnext.trans hopen) hclosing
      | close =>
        obtain ⟨-, hsame, -, -⟩ := frame_step hinv hs rfl (by simp) (by simp) hcrash key
        exact hsame.trans (hok.quiet rfl)
      | closeFlushed hflushing => exact absurd (hopen.symm.trans hflushing) (by simp)
      | stop hflushed => exact absurd (hopen.symm.trans hflushed) (by simp)
      | shutdown hjoining => exact absurd (hopen.symm.trans hjoining) (by simp)
    · exact (hquiet hopen).1
  · have hkeeps : e.closing.afterFlush = true → e'.memVersions key = [] := by
      intro hbefore
      refine (hquiet ?_).2 (h.memory hbefore)
      intro hopen
      rw [hopen] at hbefore
      contradiction
    generalize hnext : e'.closing = next at hstage hafter
    cases hstage with
    | same => exact hkeeps hafter
    | close => contradiction
    | closeFlushed hflushing hmem himm hidle =>
      refine (hquiet ?_).2 (memVersions_of_flushed hkey.1 hmem himm hidle)
      rw [hflushing]
      simp
    | stop hflushed => exact hkeeps (by rw [hflushed]; rfl)
    | shutdown hjoining => exact hkeeps (by rw [hjoining]; rfl)

theorem closeInv_start (db_dir : Bytes) (limit : Int64) (target : ℕ) (key : TsKey) :
    CloseInv key (Engine.start db_dir limit target) := by
  have hopened : (Engine.start db_dir limit target).closing = .opened := by rw [start_open]
  refine ⟨sparedInv_start _ db_dir limit target, engineDisk_start db_dir limit target,
    tailHeld_start db_dir limit target key, fun hne => absurd hopened hne, fun hafter => ?_⟩
  rw [hopened] at hafter
  contradiction

/-- What is opened after a clean `Close` has its last writes from the tables alone. -/
theorem get_reopened (hinv : EngineInv e) (hdisk : EngineDisk e) (hnewest : e.Newest key)
    (hcalls : e.calls = []) (hmemory : e.memVersions key = []) {log : List Operation}
    (hlog : LogTail key e log [])
    (hfound : ¬ e.store.vmgr.current.IsEmpty ∨ (e.lastApplied key).isSome) :
    e.crash.get key = (e.lastApplied key).bind InternalEntry.read := by
  have hmet : (e.store.met key).head? = e.lastApplied key := by
    rw [← hnewest, Engine.sources, hmemory, List.nil_append]
  have hlive : ¬ e.store.vmgr.current.IsEmpty := by
    rcases hfound with hlive | hsome
    · exact hlive
    · intro hempty
      have hnone : e.store.met key = [] := by
        refine List.flatMap_eq_nil_iff.mpr fun l _ => ?_
        rw [hempty l, versionsIn_nil]
      rw [← hmet, hnone] at hsome
      contradiction
  have hreopens : e.Reopens := Or.inl hlive
  obtain ⟨hcrashed, -⟩ := engineInv_crash hinv hdisk hreopens
  obtain ⟨hidle, himm, -⟩ := crash_idle e
  have hlost : lastIn log key = none := by
    by_contra hne
    refine hlog.held hne ?_
    rw [hmemory, Engine.unapplied, hcalls]
    rfl
  have hmem : e.crash.memVersions key = [] := by
    rw [Engine.memVersions, hidle, himm, crash_getEntry hlog.wal hlog.short, hlost]
    rfl
  have hcompleted : e.lastCompleted key = e.lastApplied key := by
    refine lastCompleted_eq fun a _ _ => ?_
    rw [Engine.inside, hcalls]
    rfl
  have hread : ReadInv key e.crash := by
    refine ⟨hcrashed, noTtl_crash e, ?_⟩
    rw [Engine.Newest, Engine.sources, hmem, List.nil_append,
      crash_met hinv hdisk hreopens (Or.inl hlive) hmemory, hmet, lastApplied_crash, hcompleted]
  rw [hread.get (by rw [hidle]; rfl) (shown_of_idle hidle key), lastApplied_crash, hcompleted]

/-- Two flushes, with a write in between that the log loses; `Close` puts it on disk. -/
def closedAfterTwo : List EngineAction :=
  [.put (ascii "cpu") 5 (ascii "v"), .flush, .takeImm, .put (ascii "cpu") 6 (ascii "w"), .buildSST,
    .logFlush, .finishFlush, .close, .flush, .takeImm, .buildSST, .logFlush, .finishFlush,
    .closeFlushed, .stop, .exitFlush, .shutdown []]

end MiniTsdb
