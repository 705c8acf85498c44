import MiniTsdb.Proofs.EngineReads

/-! Runs in which no TTL is set: nothing expires, and a compaction keeps every record it
reads. -/

namespace MiniTsdb
open Lib

def TtlMap.Unset (ttl_map : TtlMap) : Prop :=
  ∀ measurement rule, ttl_map measurement = some rule → rule.ttl_seconds = 0

theorem TtlMap.Unset.not_expired {ttl_map : TtlMap} (h : ttl_map.Unset) (measurement : Bytes)
    (timestamp : Int64) : isExpiredInMap ttl_map measurement timestamp = false := by
  unfold isExpiredInMap
  cases hr : ttl_map measurement with
  | none => rfl
  | some rule => simp [isExpiredByRule, h measurement rule hr]

theorem TtlMap.Unset.keepsKey {ttl_map : TtlMap} (h : ttl_map.Unset) (key : TsKey) :
    keepsKey ttl_map key = true := by
  unfold MiniTsdb.keepsKey keepRecordForCompaction
  cases hr : ttl_map key.measurement with
  | none => rfl
  | some rule => simp [isExpiredByRule, h key.measurement rule hr]

theorem TtlMap.Unset.updateLatestTimestamp {ttl_map : TtlMap} (h : ttl_map.Unset)
    (measurement : Bytes) (timestamp : Int64) :
    (updateLatestTimestamp ttl_map measurement timestamp).Unset := by
  have hold : ((ttl_map measurement).getD .default).ttl_seconds = 0 := by
    cases hr : ttl_map measurement with
    | none => rfl
    | some rule => exact h measurement rule hr
  intro other rule hrule
  unfold MiniTsdb.updateLatestTimestamp at hrule
  by_cases ho : other = measurement
  · rw [ho, Function.update_self] at hrule
    rw [← Option.some.inj hrule]
    split_ifs <;> exact hold
  · rw [Function.update_of_ne ho] at hrule
    exact h other rule hrule

/-- A step keeps the rules of a compaction, or starts one with the present rules. -/
theorem snapshot_step {scanned : TsKey → Bool} {s s' : Store} {a : StoreAction}
    (h : StoreInv scanned s) (hs : s.step a = some s') {run : CompactionRun}
    (hrun : s'.compaction = some run) :
    (∃ old, s.compaction = some old ∧ run.work = old.work) ∨
      ∃ force, a = .pick force run.work.ttl_snapshot := by
  cases store_kind hs with
  | build => exact Or.inl ⟨run, hrun, rfl⟩
  | commitFlush hc =>
    obtain ⟨n, t, -, rfl⟩ := commitFlush_eq h hc
    exact Or.inl ⟨run, hrun, rfl⟩
  | @pick force ttl_map work hwork =>
    obtain rfl := Option.some.inj hrun
    exact Or.inr ⟨force, by rw [(pick_shape h hwork).2.1]⟩
  | skip => exact Or.inl ⟨run, hrun, rfl⟩
  | refused => contradiction
  | read hold =>
    obtain rfl := Option.some.inj hrun
    exact Or.inl ⟨_, hold, rfl⟩
  | output hold =>
    obtain rfl := Option.some.inj hrun
    exact Or.inl ⟨_, hold, rfl⟩
  | @commit old cleanup_obsolete held _ hold hc =>
    obtain ⟨-, -, rfl⟩ := commitCompaction_eq h hold hc
    cases cleanup_obsolete with
    | true =>
      rw [if_pos rfl, (cleaned (s.afterCompaction old) held).compaction] at hrun
      contradiction
    | false => contradiction
  | @cleanup held =>
    rw [(cleaned s held).compaction] at hrun
    exact Or.inl ⟨run, hrun, rfl⟩
  | @shutdown held =>
    rw [shutdown_eq h] at hrun
    exact Or.inl ⟨run, (cleaned s held).compaction.symm.trans hrun, rfl⟩

/-- No TTL is set, and none was when the compaction that runs was picked. -/
structure NoTtl (e : Engine) : Prop where
  now : e.ttl_map.Unset
  snapshot : ∀ run, e.store.compaction = some run → run.work.ttl_snapshot.Unset

theorem callRule_noTtl : CallRule NoTtl :=
  ⟨fun _ _ _ _ h => ⟨h.now, h.snapshot⟩, fun _ h _ _ => ⟨h.now, h.snapshot⟩,
    fun _ _ _ h => ⟨h.now.updateLatestTimestamp _ _, h.snapshot⟩⟩

theorem noTtl_store {e : Engine} (h : NoTtl e) (hinv : EngineInv e) {b : StoreAction} {s : Store}
    (hpick : ∀ force ttl_map, b = .pick force ttl_map → ttl_map = e.ttl_map)
    (hs : e.store.step b = some s) {run : CompactionRun} (hrun : s.compaction = some run) :
    run.work.ttl_snapshot.Unset := by
  rcases snapshot_step hinv.store hs hrun with ⟨old, hold, hwork⟩ | ⟨force, hb⟩
  · rw [hwork]
    exact h.snapshot old hold
  · rw [hpick force _ hb]
    exact h.now

theorem noTtl_step {e e' : Engine} {a : EngineAction} (h : NoTtl e) (hinv : EngineInv e)
    (hs : e.step a = some e') (hset : ∀ measurement ttl_seconds, a ≠ .setTTL measurement ttl_seconds)
    (hcrash : a ≠ .crash) : NoTtl e' := by
  cases step_kind hs with
  | noop => exact h
  | enter hops => exact callRule_noTtl.enter h _
  | resume hr => exact callRule_noTtl.resume h hr
  | rotate hr =>
    obtain ⟨rfl, himm, hidle⟩ := flushMem_eq hr
    exact callRule_noTtl.rotate e h himm hidle
  | takeImm ht =>
    obtain ⟨m, -, -, rfl⟩ := takeImm_eq ht
    exact ⟨h.now, h.snapshot⟩
  | buildSST hb =>
    obtain ⟨m, s, -, hstep, rfl⟩ := buildSST_eq hb
    exact ⟨h.now, fun run => noTtl_store h hinv (fun _ _ hpick => by contradiction) hstep⟩
  | logFlush hl =>
    obtain ⟨m, s, -, hc, rfl, -⟩ := logFlush_spec hinv hl
    exact ⟨h.now, fun run => noTtl_store h hinv (fun _ _ hpick => by contradiction) hc⟩
  | finishFlush hf =>
    obtain ⟨m, -, rfl⟩ := finishFlush_eq hf
    exact ⟨h.now, h.snapshot⟩
  | store hb hstep =>
    refine ⟨h.now, fun run => noTtl_store h hinv (fun force ttl_map heq => ?_) hstep⟩
    cases a with
    | pick force' =>
      obtain rfl := Option.some.inj hb
      exact (StoreAction.pick.inj heq).2.symm
    | _ => first | contradiction | (obtain rfl := Option.some.inj hb; contradiction)
  | commit hfree hstep =>
    exact ⟨h.now, fun run => noTtl_store h hinv (fun _ _ hpick => by contradiction) hstep⟩
  | setTTL => exact absurd rfl (hset _ _)
  | closing _ hc =>
    rw [closing_eq hc]
    exact ⟨h.now, h.snapshot⟩
  | shutdown _ hd =>
    obtain ⟨s, hstep, rfl⟩ := shutdown_spec hd
    exact ⟨h.now, fun run => noTtl_store h hinv (fun _ _ hpick => by contradiction) hstep⟩
  | crash => exact absurd rfl hcrash

theorem noTtl_start (db_dir : Bytes) (limit : Int64) (target : ℕ) :
    NoTtl (Engine.start db_dir limit target) := by
  rw [start_open]
  refine ⟨fun measurement rule hrule => by contradiction, fun run hrun => ?_⟩
  rw [Store.start, start_eq] at hrun
  contradiction

end MiniTsdb
