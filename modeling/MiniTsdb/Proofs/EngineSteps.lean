import MiniTsdb.Proofs.EngineInv

/-! The steps of the engine by kind, and what each kind does to the versions of a key in
memory and on disk. -/

namespace MiniTsdb
open Lib

/-- Every step but `SetTTL` and a crash. -/
def EngineAction.ordinary : EngineAction → Bool
  | .setTTL _ _ => false
  | .crash => false
  | _ => true

def EngineAction.operations : EngineAction → Option (List Operation)
  | .put measurement timestamp value => some [.put measurement timestamp value]
  | .delete measurement timestamp => some [.delete measurement timestamp]
  | .write batch => some batch
  | _ => none

/-- The store action behind an action that leaves the version as it is. -/
def Engine.storeAction (e : Engine) : EngineAction → Option StoreAction
  | .pick force => some (.pick force e.ttl_map)
  | .skip force held => some (.skip force e.ttl_map held)
  | .readInputs => some (.read e.store.makeSSTReader)
  | .writeOutput => some .output
  | .cleanup held => some (.cleanup held)
  | _ => none

/-- The actions that move `closing` and nothing of the data. -/
def EngineAction.closes : EngineAction → Bool
  | .exitFlush | .close | .closeFlushed | .stop => true
  | _ => false

inductive StepKind (e : Engine) : EngineAction → Engine → Prop
  | noop : StepKind e (.write []) e
  | enter {a : EngineAction} {ops : List Operation} (h : a.operations = some ops) :
      StepKind e a (e.enter ops)
  | resume {id : ℕ} {e' : Engine} (h : e.resume id = some e') : StepKind e (.resume id) e'
  | rotate {e' : Engine} (h : e.flushMem = some e') : StepKind e .flush e'
  | takeImm {e' : Engine} (h : e.takeImm = some e') : StepKind e .takeImm e'
  | buildSST {e' : Engine} (h : e.buildSST = some e') : StepKind e .buildSST e'
  | logFlush {e' : Engine} (h : e.logFlush = some e') : StepKind e .logFlush e'
  | finishFlush {e' : Engine} (h : e.finishFlush = some e') : StepKind e .finishFlush e'
  | store {a : EngineAction} {b : StoreAction} {s : Store} (ha : e.storeAction a = some b)
      (h : e.store.step b = some s) : StepKind e a { e with store := s }
  | commit {cleanup_obsolete : Bool} {held : List Bytes} {s : Store} (hfree : e.flush.locks = false)
      (h : e.store.step (.commit cleanup_obsolete held) = some s) :
      StepKind e (.commit cleanup_obsolete held) { e with store := s }
  | setTTL {measurement : Bytes} {ttl_seconds : Int64} :
      StepKind e (.setTTL measurement ttl_seconds)
        { e with ttl_map := MiniTsdb.setTTL e.ttl_map measurement ttl_seconds }
  | closing {a : EngineAction} {e' : Engine} (ha : a.closes = true)
      (h : e.exitFlush = some e' ∨ e.close = e' ∨ e.closeFlushed = some e' ∨ e.stop = some e') :
      StepKind e a e'
  | shutdown {held : List Bytes} {e' : Engine} (hfree : e.flush.locks = false)
      (h : e.shutdown held = some e') : StepKind e (.shutdown held) e'
  | crash : StepKind e .crash e.crash

theorem step_kind {e e' : Engine} {a : EngineAction} (hs : e.step a = some e') : StepKind e a e' := by
  unfold Engine.step at hs
  split_ifs at hs with hlock hdone
  cases a with
  | put measurement timestamp value =>
    rw [← Option.some.inj hs]
    exact .enter rfl
  | delete measurement timestamp =>
    rw [← Option.some.inj hs]
    exact .enter rfl
  | write batch =>
    rw [← Option.some.inj hs]
    cases batch with
    | nil => exact .noop
    | cons op batch => exact .enter rfl
  | resume id => exact .resume hs
  | flush => exact .rotate hs
  | takeImm => exact .takeImm hs
  | buildSST => exact .buildSST hs
  | logFlush => exact .logFlush hs
  | finishFlush => exact .finishFlush hs
  | commit cleanup_obsolete held =>
    obtain ⟨s, hstep, rfl⟩ := Option.map_eq_some_iff.mp hs
    exact .commit (by simpa [EngineAction.unlocked] using hlock) hstep
  | setTTL measurement ttl_seconds =>
    rw [← Option.some.inj hs]
    exact .setTTL
  | exitFlush => exact .closing rfl (Or.inl hs)
  | close => exact .closing rfl (Or.inr (Or.inl (Option.some.inj hs)))
  | closeFlushed => exact .closing rfl (Or.inr (Or.inr (Or.inl hs)))
  | stop => exact .closing rfl (Or.inr (Or.inr (Or.inr hs)))
  | shutdown held => exact .shutdown (by simpa [EngineAction.unlocked] using hlock) hs
  | crash =>
    rw [← Option.some.inj hs]
    exact .crash
  | _ =>
    obtain ⟨s, hstep, rfl⟩ := Option.map_eq_some_iff.mp hs
    exact .store rfl hstep

theorem step_resume {e e' : Engine} {id : ℕ} (hs : e.step (.resume id) = some e') :
    e.resume id = some e' := by
  cases step_kind hs with
  | resume hr => exact hr
  | enter hops => contradiction
  | store hb => contradiction
  | closing hc => contradiction

theorem step_crash {e e' : Engine} (hs : e.step .crash = some e') : e' = e.crash := by
  cases step_kind hs with
  | enter hops => contradiction
  | store hb => contradiction
  | closing hc => contradiction
  | crash => rfl

theorem closes_operations {a : EngineAction} (ha : a.closes = true) : a.operations = none := by
  cases a <;> first | rfl | contradiction

section
variable {e : Engine} {a : EngineAction} {b : StoreAction} (ha : e.storeAction a = some b)
include ha

theorem storeAction_background : b.background = true := by
  cases a <;> first | contradiction | (obtain rfl := Option.some.inj ha; rfl)

theorem storeAction_scans : StoreScans sstScanned e.store b := by
  cases a with
  | readInputs =>
    obtain rfl := Option.some.inj ha
    exact fun run _ => readerScans_makeSSTReader e.store run.work.job
  | _ => first | contradiction | (obtain rfl := Option.some.inj ha; trivial)

theorem storeAction_met {s : Store} (h : Met sstScanned e.store s b) (key : TsKey) :
    s.met key = e.store.met key := by
  cases a <;> first | contradiction | (obtain rfl := Option.some.inj ha; exact h.2.2 key)

end

theorem engineInv_step {e e' : Engine} {a : EngineAction} (h : EngineInv e) (hs : e.step a = some e')
    (ha : a ≠ .crash) : EngineInv e' := by
  cases step_kind hs with
  | noop => exact h
  | enter hops => exact callRule_engineInv.enter h _
  | resume hr => exact callRule_engineInv.resume h hr
  | rotate hr =>
    obtain ⟨rfl, himm, hidle⟩ := flushMem_eq hr
    exact callRule_engineInv.rotate e h himm hidle
  | takeImm ht => exact engineInv_takeImm h ht
  | buildSST hb => exact engineInv_buildSST h hb
  | logFlush hl => exact engineInv_logFlush h hl
  | finishFlush hf => exact engineInv_finishFlush h hf
  | store hb hstep =>
    have hmet := met_step h.store hstep
    exact engineInv_background h (storeAction_background hb) hmet
      (storeInv_step h.store (storeAction_scans hb) hstep) fun _ => storeAction_met hb hmet
  | @commit cleanup_obsolete held s hfree hstep =>
    have hscans : StoreScans sstScanned e.store (.commit cleanup_obsolete held) := trivial
    refine engineInv_background h rfl (met_step h.store hstep)
      (storeInv_step h.store hscans hstep) fun hlocks => ?_
    rw [hfree] at hlocks
    contradiction
  | setTTL => exact ⟨h.store, h.flush, h.imm, h.low⟩
  | closing _ hc =>
    rw [closing_eq hc]
    exact ⟨h.store, h.flush, h.imm, h.low⟩
  | @shutdown held _ hfree hd =>
    obtain ⟨s, hstep, rfl⟩ := shutdown_spec hd
    have hscans : StoreScans sstScanned e.store (.shutdown held) := trivial
    have hnext := engineInv_background h rfl (met_step h.store hstep)
      (storeInv_step h.store hscans hstep) fun hlocks => by
        rw [hfree] at hlocks
        contradiction
    exact ⟨hnext.store, hnext.flush, hnext.imm, hnext.low⟩
  | crash => exact absurd rfl ha

theorem memVersions_applyOp (e : Engine) (id : ℕ) (op : Operation) (key : TsKey) :
    (e.applyOp id op).memVersions key = if key = op.key then
      op.entry :: (e.memVersions key).drop (e.mem.getEntry key).toList.length
      else e.memVersions key := by
  unfold Engine.memVersions Engine.applyOp
  dsimp only
  rw [getEntry_apply, List.drop_left]
  split_ifs <;> rfl

theorem head?_sources_applyOp (e : Engine) (id : ℕ) (op : Operation) (key : TsKey) :
    (key = op.key → ((e.applyOp id op).sources key).head? = some op.entry) ∧
      (key ≠ op.key → (e.applyOp id op).sources key = e.sources key) := by
  refine ⟨fun hk => ?_, fun hk => ?_⟩
  · rw [Engine.sources, memVersions_applyOp, if_pos hk]
    rfl
  · rw [Engine.sources, memVersions_applyOp, if_neg hk]
    rfl

theorem memVersions_takeImm {e e' : Engine} (hs : e.takeImm = some e') (key : TsKey) :
    e'.memVersions key = e.memVersions key := by
  obtain ⟨m, himm, hidle, rfl⟩ := takeImm_eq hs
  simp [Engine.memVersions, FlushThread.memtable, himm, hidle]

theorem sources_buildSST {e e' : Engine} (h : EngineInv e) (hs : e.buildSST = some e')
    (key : TsKey) : e'.memVersions key = e.memVersions key ∧ e'.sources key = e.sources key := by
  obtain ⟨m, s, hflush, hb, rfl⟩ := buildSST_eq hs
  obtain ⟨-, -, -, hmet⟩ := met_step h.store hb
  have hmem : Engine.memVersions { e with store := s, flush := .built m } key = e.memVersions key := by
    simp [Engine.memVersions, FlushThread.memtable, hflush]
  refine ⟨hmem, ?_⟩
  rw [Engine.sources, hmem, hmet key]
  rfl

/-- The commit of a flush repeats on disk what is in memory. -/
theorem sources_logFlush {e e' : Engine} (h : EngineInv e) (hs : e.logFlush = some e')
    (key : TsKey) : e'.memVersions key = e.memVersions key ∧
      (e'.sources key = e.sources key ∨
        e.memVersions key ≠ [] ∧ (e'.sources key).head? = (e.sources key).head?) := by
  obtain ⟨m, s, hflush, -, he, hmet⟩ := logFlush_spec h hs
  have hmem : e'.memVersions key = e.memVersions key := by
    rw [he]
    simp [Engine.memVersions, FlushThread.memtable, hflush]
  have hstore : e'.store = s := by rw [he]
  refine ⟨hmem, ?_⟩
  rw [Engine.sources, Engine.sources, hmem, hstore, hmet key, lookup_iterateEntries]
  cases hm : m.getEntry key with
  | none =>
    left
    rw [ite_self]
    rfl
  | some entry =>
    right
    have hne : e.memVersions key ≠ [] := by
      simp [Engine.memVersions, FlushThread.memtable, hflush, hm]
    obtain ⟨first, rest, heq⟩ := List.exists_cons_of_ne_nil hne
    rw [heq]
    exact ⟨by simp, rfl⟩

/-- The end of a flush leaves memory and disk, in this order. -/
theorem sources_finishFlush {e e' : Engine} (h : EngineInv e) (hs : e.finishFlush = some e')
    (key : TsKey) : ∃ m, e.flush = .logged m ∧
      e'.memVersions key = (e.mem.getEntry key).toList ∧
      e.memVersions key = (e.mem.getEntry key).toList ++ (m.getEntry key).toList ∧
      e'.store.met key = e.store.met key ∧
      (TsKey.default ≤ key → ∀ entry, m.getEntry key = some entry →
        (e.store.met key).head? = some entry) := by
  obtain ⟨m, hflush, rfl⟩ := finishFlush_eq hs
  have himm := h.imm (by rw [hflush]; simp)
  have hinv := h.flush
  unfold FlushInv at hinv
  rw [hflush] at hinv
  refine ⟨m, hflush, ?_, ?_, rfl, fun hle entry hentry => hinv.2 key entry ?_⟩
  · simp [Engine.memVersions, FlushThread.memtable, himm]
  · simp [Engine.memVersions, FlushThread.memtable, himm, hflush]
  · rw [lookup_iterateEntries, if_pos hle]
    exact hentry

end MiniTsdb
