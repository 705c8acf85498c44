import MiniTsdb.Proofs.EngineSteps

/-! The steps at which a file operation fails, by kind. -/

namespace MiniTsdb
open Lib

inductive FaultKind (e : Engine) : FaultAction → Engine → Prop
  | engine {a : EngineAction} {e' : Engine} (h : e.step a = some e') : FaultKind e (.engine a) e'
  | finishError {m : MemTable} {s : Store} (hflush : e.flush = .taken m)
      (h : e.store.failFinish = some s) :
      FaultKind e .finishError { e with store := s, flush := .idle }
  | openError {readable : Bool} {m : MemTable} {s : Store} (hflush : e.flush = .built m)
      (h : e.store.failOpen readable = some s) :
      FaultKind e (.openError readable) { e with store := s, flush := .idle }
  | logFlushError {failure : LogFailure} {m : MemTable} {s : Store} (hflush : e.flush = .built m)
      (h : e.store.failCommitFlush failure = some s) :
      FaultKind e (.logFlushError failure) { e with store := s, wal := e.wal.rotate, flush := .idle }
  | runError {run : CompactionRun} {s : Store} (hrun : e.store.compaction = some run)
      (h : e.store.failRun run = some s) : FaultKind e .runError { e with store := s }
  | commitError {failure : LogFailure} {run : CompactionRun} {s : Store}
      (hrun : e.store.compaction = some run) (h : e.store.failCommit run failure = some s) :
      FaultKind e (.commitError failure) { e with store := s }

theorem fault_kind {e e' : Engine} {a : FaultAction} (hs : e.faultStep a = some e') :
    FaultKind e a e' := by
  unfold Engine.faultStep at hs
  split_ifs at hs
  cases a with
  | engine a => exact .engine hs
  | finishError =>
    simp only [Engine.fail] at hs
    split at hs
    · rename_i m hflush
      obtain ⟨s, h, rfl⟩ := Option.map_eq_some_iff.mp hs
      exact .finishError hflush h
    · contradiction
  | openError readable =>
    simp only [Engine.fail] at hs
    split at hs
    · rename_i m hflush
      obtain ⟨s, h, rfl⟩ := Option.map_eq_some_iff.mp hs
      exact .openError hflush h
    · contradiction
  | logFlushError failure =>
    simp only [Engine.fail] at hs
    split at hs
    · rename_i m hflush
      obtain ⟨s, h, rfl⟩ := Option.map_eq_some_iff.mp hs
      exact .logFlushError hflush h
    · contradiction
  | runError =>
    obtain ⟨s, hsome, rfl⟩ := Option.map_eq_some_iff.mp hs
    obtain ⟨run, hrun, h⟩ := Option.bind_eq_some_iff.mp hsome
    exact .runError hrun h
  | commitError failure =>
    obtain ⟨s, hsome, rfl⟩ := Option.map_eq_some_iff.mp hs
    obtain ⟨run, hrun, h⟩ := Option.bind_eq_some_iff.mp hsome
    exact .commitError hrun h

def FaultAction.disk : FaultAction → Option DiskAction
  | .engine _ => none
  | .finishError => some .finishError
  | .openError readable => some (.openError readable)
  | .logFlushError failure => some (.logFlushError failure)
  | .runError => some .runError
  | .commitError failure => some (.commitError failure)

/-- The steps that end a flush attempt; the others end a compaction. -/
def DiskAction.endsFlush : DiskAction → Bool
  | .finishError | .openError _ | .logFlushError _ => true
  | _ => false

/-- The end of a flush attempt or of a compaction with an error. -/
structure Fault (e e' : Engine) (b : DiskAction) : Prop where
  store : FailStep e.store b e'.store
  frame : e' = { e with store := e'.store, wal := e'.wal, flush := e'.flush }
  flush : b.endsFlush = true ∧ e'.flush = .idle ∧ e.flush ≠ .idle ∧ e'.store.built = none ∨
    b.endsFlush = false ∧ e'.flush = e.flush ∧ e'.store.built = e.store.built
  wal : e'.wal = e.wal ∨ e'.wal = e.wal.rotate ∧ ∃ failure, b = .logFlushError failure

inductive FaultCases (e : Engine) (e' : Engine) : FaultAction → Prop
  | engine {a : EngineAction} (h : e.step a = some e') : FaultCases e e' (.engine a)
  | fails {a : FaultAction} {b : DiskAction} (hb : a.disk = some b) (h : Fault e e' b) :
      FaultCases e e' a

theorem fault_cases {e e' : Engine} {a : FaultAction} (hs : e.faultStep a = some e') :
    FaultCases e e' a := by
  cases fault_kind hs with
  | engine hs => exact .engine hs
  | finishError hflush hfail =>
    have hstep := fail_step (a := .finishError) (fun b hb => by contradiction) hfail
    refine .fails rfl ⟨hstep, rfl, Or.inl ⟨rfl, rfl, by simp [hflush], ?_⟩, Or.inl rfl⟩
    cases hstep with
    | finish hbuilt => exact hbuilt
  | @openError readable _ _ hflush hfail =>
    have hstep := fail_step (a := .openError readable) (fun b hb => by contradiction) hfail
    refine .fails rfl ⟨hstep, rfl, Or.inl ⟨rfl, rfl, by simp [hflush], ?_⟩, Or.inl rfl⟩
    cases hstep with
    | openTable hbuilt => rfl
  | @logFlushError failure _ _ hflush hfail =>
    have hstep := fail_step (a := .logFlushError failure) (fun b hb => by contradiction) hfail
    refine .fails rfl ⟨hstep, rfl, Or.inl ⟨rfl, rfl, by simp [hflush], ?_⟩, Or.inr ⟨rfl, failure, rfl⟩⟩
    cases hstep with
    | logFlush hbuilt => rfl
  | runError hrun hfail =>
    have hstep := fail_step (a := .runError) (fun b hb => by contradiction)
      (Option.bind_eq_some_iff.mpr ⟨_, hrun, hfail⟩)
    refine .fails rfl ⟨hstep, rfl, Or.inr ⟨rfl, rfl, ?_⟩, Or.inl rfl⟩
    cases hstep with
    | run hrun hrest => rfl
  | @commitError failure _ _ hrun hfail =>
    have hstep := fail_step (a := .commitError failure) (fun b hb => by contradiction)
      (Option.bind_eq_some_iff.mpr ⟨_, hrun, hfail⟩)
    refine .fails rfl ⟨hstep, rfl, Or.inr ⟨rfl, rfl, ?_⟩, Or.inl rfl⟩
    cases hstep with
    | commit hrun hrest hvalid => rfl

end MiniTsdb
