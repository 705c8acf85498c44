import MiniTsdb.Lib.Runs
import MiniTsdb.Proofs.NoTtl

/-! Reads between any two steps of writers, flush thread and compactions, while no TTL is
set: where a read finds the last write of its key. -/

namespace MiniTsdb
open Lib

/-- Steps that do not lose the newest version of a key: the flush thread leaves out keys
below `TsKey{}`, the record reader of a compaction those beyond its scan. -/
def Engine.Retains (key : TsKey) (e : Engine) : EngineAction → Prop
  | .finishFlush => TsKey.default ≤ key ∨ ∀ m, e.flush = .logged m →
      m.getEntry key = none ∨ e.mem.getEntry key ≠ none
  | .commit _ _ => sstScanned key = true ∨ ∀ run, e.store.compaction = some run →
      e.store.inputVersions run.work.job key = [] ∨
        e.memVersions key ++ e.store.newer run.work.job key ≠ []
  | a => a.ordinary = true

theorem Engine.Retains.ordinary {key : TsKey} {e : Engine} {a : EngineAction} (h : e.Retains key a) :
    a.ordinary = true := by
  cases a <;> first | rfl | exact h

theorem Engine.Retains.not_drops {key : TsKey} {e : Engine} {a : EngineAction} (h : e.Retains key a)
    (httl : NoTtl e) : ¬ e.Drops key a := by
  intro hdrops
  cases a with
  | finishFlush =>
    obtain ⟨m, hflush, hlow, hm, hmem⟩ := hdrops
    rcases h with hle | hlacks
    · exact hlow hle
    · exact (hlacks m hflush).elim hm fun hne => hne hmem
  | commit cleanup_obsolete held =>
    obtain ⟨run, hrun, hkeep, hinputs, hfirst⟩ := hdrops
    rcases h with hscan | hlacks
    · rw [CompactionRun.keeps, hscan, (httl.snapshot run hrun).keepsKey] at hkeep
      contradiction
    · exact (hlacks run hrun).elim hinputs fun hne => hne hfirst
  | _ => exact hdrops

/-- The newest version of a key is its last write. -/
def Engine.Newest (key : TsKey) (e : Engine) : Prop := (e.sources key).head? = e.lastApplied key

theorem callRule_newest (key : TsKey) : CallRule (Engine.Newest key) := by
  refine ⟨fun e wal calls n h => h, fun e h himm _ => ?_, fun e id op h => ?_⟩
  · rw [Engine.Newest, Engine.sources, memVersions_rotate himm]
    exact h
  · obtain ⟨hsame, hother⟩ := head?_sources_applyOp e id op key
    rw [Engine.Newest, lastApplied_applyOp]
    split_ifs with hk
    · exact hsame hk
    · rw [hother hk]
      exact h

/-- What every run keeps. -/
structure ReadInv (key : TsKey) (e : Engine) : Prop where
  engine : EngineInv e
  ttl : NoTtl e
  newest : e.Newest key

theorem readInv_step {key : TsKey} {e e' : Engine} {a : EngineAction} (h : ReadInv key e)
    (hok : e.Retains key a) (hs : e.step a = some e') : ReadInv key e' := by
  have hordinary := hok.ordinary
  have hcrash : a ≠ .crash := by
    rintro rfl
    contradiction
  have hset : ∀ measurement ttl_seconds, a ≠ .setTTL measurement ttl_seconds := by
    rintro measurement ttl_seconds rfl
    contradiction
  refine ⟨engineInv_step h.engine hs hcrash, noTtl_step h.ttl h.engine hs hset hcrash, ?_⟩
  refine newest_step key (callRule_newest key) h.engine h.newest hs hcrash fun happlied hsources => ?_
  rcases hsources with hhead | ⟨hdrops, -⟩
  · rw [Engine.Newest, hhead, Engine.lastApplied, happlied]
    exact h.newest
  · exact absurd hdrops (hok.not_drops h.ttl)

/-- In a view that shows a key, a read finds the last write. -/
theorem ReadInv.get {key : TsKey} {e : Engine} (h : ReadInv key e) (hfree : e.flush.locks = false)
    (hshown : e.Shown key) : e.get key = (e.lastApplied key).bind InternalEntry.read := by
  rw [get_eq h.engine, h.ttl.now.not_expired, if_neg Bool.false_ne_true,
    head?_viewed h.engine hfree hshown, h.newest]

/-- One value, through the flush thread to the end of its flush. -/
def flushedOne : Option Engine :=
  [EngineAction.put (ascii "cpu") 5 (ascii "v"), .flush, .takeImm, .buildSST, .logFlush,
    .finishFlush].foldlM Engine.step (Engine.start (ascii "db") 1000 0)

end MiniTsdb
