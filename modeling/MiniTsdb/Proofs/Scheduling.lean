import MiniTsdb.Lib.Runs
import MiniTsdb.Proofs.EngineSteps
import MiniTsdb.Spec.Scheduling

/-! Compactions are not forgotten: what is due is pending, or the thread that sees to it has
not come to it yet. The one notification that can get lost is the one `Close` sends. -/

namespace MiniTsdb
open Lib

theorem pickLevel_isSome (s : Store) (ttl_map : TtlMap) :
    (s.pickLevel ttl_map).isSome = ([1, 2, 3, 4, 5] : List (Fin kMaxLevel)).any fun level =>
      decide (((s.vmgr.current.level_files level).map FileMeta.file_size).sum >
        kLevelSizeBase * 2 ^ level.val) := by
  rw [Store.pickLevel, Bool.eq_iff_iff, List.findSome?_isSome_iff, List.any_eq_true]
  refine exists_congr fun level => and_congr_right fun _ => ?_
  dsimp only
  split_ifs with h
  · simpa using h
  · simpa using h

/-- A compaction is due exactly if one would be picked. -/
theorem pick_isSome (s : Store) (ttl_map : TtlMap) :
    (s.pickCompactionWork false ttl_map).isSome = s.shouldScheduleCompaction := by
  unfold Store.pickCompactionWork Store.shouldScheduleCompaction Store.l0NonCompactingFileCount
  split_ifs with hprogress hdue
  · rfl
  · cases hl0 : (s.vmgr.current.level_files 0).filter fun f =>
      !s.compacting_files.contains f.file_number with
    | nil =>
      rw [hl0] at hdue
      contradiction
    | cons front rest =>
      rw [hl0] at hdue
      dsimp only
      rw [if_pos (Or.inr hdue), Option.isSome_some]
  · cases hl0 : (s.vmgr.current.level_files 0).filter fun f =>
      !s.compacting_files.contains f.file_number with
    | nil => exact pickLevel_isSome s ttl_map
    | cons front rest =>
      rw [hl0] at hdue
      dsimp only
      rw [if_neg (by simpa using hdue)]
      exact pickLevel_isSome s ttl_map

/-- The parts of the store that decide what is due. -/
structure SameDue (s s' : Store) : Prop where
  current : s'.vmgr.current = s.vmgr.current
  in_progress : s'.compaction_in_progress = s.compaction_in_progress
  compacting : s'.compacting_files = s.compacting_files

theorem SameDue.refl (s : Store) : SameDue s s := ⟨rfl, rfl, rfl⟩

theorem SameDue.should {s s' : Store} (h : SameDue s s') :
    s'.shouldScheduleCompaction = s.shouldScheduleCompaction := by
  unfold Store.shouldScheduleCompaction Store.l0NonCompactingFileCount
  rw [h.current, h.in_progress, h.compacting]

theorem sameDue_cleaned {s s' : Store} (h : Cleaned s s') : SameDue s s' :=
  ⟨by rw [h.vmgr], h.in_progress, h.compacting⟩

/-- The flags of a compaction go with the compaction. -/
structure Jobs (s : Store) : Prop where
  in_progress : s.compaction_in_progress = s.compaction.isSome
  compacting : s.compacting_files = (s.compaction.map fun run => run.work.job.numbers).getD []
  level : ∀ run, s.compaction = some run → run.work.job.output_level < kMaxLevel

theorem Jobs.idle {s : Store} (h : Jobs s) (hidle : s.compaction_in_progress = false) :
    s.compaction = none ∧ s.compacting_files = [] := by
  rw [h.in_progress] at hidle
  have hrun : s.compaction = none := by simpa using hidle
  refine ⟨hrun, ?_⟩
  rw [h.compacting, hrun]
  rfl

theorem Jobs.same {s s' : Store} (h : Jobs s) (hd : SameDue s s')
    (hwork : s'.compaction.map CompactionRun.work = s.compaction.map CompactionRun.work) : Jobs s' := by
  have hjobs : ∀ o : Option CompactionRun, (o.map fun run => run.work.job.numbers) =
      (o.map CompactionRun.work).map fun work => work.job.numbers := fun o => by
    rw [Option.map_map]
    rfl
  refine ⟨?_, ?_, fun run hrun => ?_⟩
  · rw [hd.in_progress, h.in_progress, ← Option.isSome_map (f := CompactionRun.work), ← hwork,
      Option.isSome_map]
  · rw [hd.compacting, h.compacting, hjobs, hjobs, hwork]
  · rw [hrun] at hwork
    obtain ⟨old, hold, heq⟩ := Option.map_eq_some_iff.mp hwork.symm
    rw [← heq]
    exact h.level old hold

theorem jobs_finish {s : Store} {job : CompactionJob} (h : s.compacting_files = job.numbers) :
    Jobs (s.finishCompaction job) := by
  refine ⟨rfl, ?_, fun run hrun => by contradiction⟩
  simp [Store.finishCompaction, h]

theorem jobs_commit {s s' : Store} (h : Jobs s) {run : CompactionRun} {cleanup_obsolete : Bool}
    {held : List Bytes} (hrun : s.compaction = some run)
    (hs : s.commitCompaction run cleanup_obsolete held = some s') :
    Jobs s' ∧ s'.compaction_in_progress = false := by
  have hnumbers : s.compacting_files = run.work.job.numbers := by rw [h.compacting, hrun]; rfl
  have hjobs := jobs_finish hnumbers
  have hpublished : Jobs (s.publishRun run) := jobs_finish hnumbers
  obtain ⟨-, ⟨-, rfl⟩ | ⟨-, rfl⟩⟩ := commitCompaction_cases hs
  · split_ifs
    · have hc := cleaned (s.publishRun run) held
      exact ⟨hpublished.same (sameDue_cleaned hc) (by rw [hc.compaction]), hc.in_progress⟩
    · exact ⟨hpublished, rfl⟩
  · exact ⟨⟨hjobs.in_progress, hjobs.compacting, hjobs.level⟩, rfl⟩

/-- The actions that change neither the version nor the compactions. -/
def StoreAction.keepsDue : StoreAction → Bool
  | .commitFlush | .pick _ _ | .commit _ _ => false
  | _ => true

theorem jobs_step {s s' : Store} {a : StoreAction} (h : Jobs s) (hs : s.step a = some s') :
    Jobs s' ∧ (a.keepsDue = true → SameDue s s') := by
  have hsame : SameDue s s' → s'.compaction.map CompactionRun.work = s.compaction.map CompactionRun.work →
      Jobs s' ∧ (a.keepsDue = true → SameDue s s') := fun hd hwork => ⟨h.same hd hwork, fun _ => hd⟩
  cases store_kind hs with
  | build => exact hsame ⟨rfl, rfl, rfl⟩ rfl
  | commitFlush hc =>
    refine ⟨?_, fun hk => by contradiction⟩
    unfold Store.commitFlush at hc
    split at hc
    · contradiction
    · rw [← Option.some.inj hc]
      exact ⟨h.in_progress, h.compacting, h.level⟩
  | @pick force ttl_map work hwork =>
    obtain ⟨hidle, hlevel⟩ := pick_level hwork
    refine ⟨⟨rfl, ?_, fun run hrun => ?_⟩, fun hk => by contradiction⟩
    · simp [Store.afterPick, (h.idle hidle).2]
    · rw [← Option.some.inj hrun]
      exact hlevel
  | @skip force ttl_map held =>
    have hc := cleaned_tryDelete s held
    exact hsame (sameDue_cleaned hc) (by rw [hc.compaction])
  | refused hrun _ hlevel => exact absurd (h.level _ hrun) (not_lt.mpr hlevel)
  | read hrun => exact hsame ⟨rfl, rfl, rfl⟩ (by rw [hrun]; rfl)
  | output hrun => exact hsame ⟨rfl, rfl, rfl⟩ (by rw [hrun]; rfl)
  | commit hrun hc => exact ⟨(jobs_commit h hrun hc).1, fun hk => by contradiction⟩
  | @cleanup held =>
    have hc := cleaned s held
    exact hsame (sameDue_cleaned hc) (by rw [hc.compaction])
  | @shutdown held =>
    have hc := cleaned s held
    have hd := sameDue_cleaned hc
    refine hsame ⟨hd.current, hd.in_progress, hd.compacting⟩ ?_
    show (s.cleanupObsoleteFiles held).compaction.map CompactionRun.work = _
    rw [hc.compaction]

variable {e e' : Engine}

/-- The actions that change neither what is due nor `running_`, nor give `mu_` back. -/
def EngineAction.quiet : EngineAction → Bool
  | logFlush | finishFlush | pick _ | commit _ _ | stop | shutdown _ | crash => false
  | _ => true

theorem callRule_threads (e : Engine) :
    CallRule fun f => f.store = e.store ∧ f.flush = e.flush ∧ f.closing = e.closing :=
  ⟨fun _ _ _ _ h => h, fun _ h _ _ => h, fun _ _ _ h => h⟩

theorem jobs_engineStep {a : EngineAction} (h : Jobs e.store) (hs : e.step a = some e')
    (hcrash : a ≠ .crash) : Jobs e'.store := by
  cases step_kind hs with
  | noop => exact h
  | enter hops => exact ((callRule_threads e).enter ⟨rfl, rfl, rfl⟩ _).1 ▸ h
  | resume hr => exact ((callRule_threads e).resume ⟨rfl, rfl, rfl⟩ hr).1 ▸ h
  | rotate hr =>
    obtain ⟨rfl, -, -⟩ := flushMem_eq hr
    exact h
  | takeImm ht =>
    obtain ⟨m, -, -, rfl⟩ := takeImm_eq ht
    exact h
  | buildSST hb =>
    obtain ⟨m, s, -, hstep, rfl⟩ := buildSST_eq hb
    exact (jobs_step h hstep).1
  | logFlush hl =>
    obtain ⟨m, s, -, hstep, rfl⟩ := logFlush_eq hl
    exact (jobs_step h hstep).1
  | finishFlush hf =>
    obtain ⟨m, -, rfl⟩ := finishFlush_eq hf
    exact h
  | store hb hstep => exact (jobs_step h hstep).1
  | commit _ hstep => exact (jobs_step h hstep).1
  | setTTL => exact h
  | closing _ hc =>
    rw [closing_eq hc]
    exact h
  | shutdown _ hd =>
    obtain ⟨s, hstep, rfl⟩ := shutdown_spec hd
    exact (jobs_step h hstep).1
  | crash => exact absurd rfl hcrash

theorem quiet_step {a : EngineAction} (h : Jobs e.store) (hs : e.step a = some e')
    (hquiet : a.quiet = true) :
    SameDue e.store e'.store ∧ (e.flush.locks = true → e'.flush.locks = true) := by
  have hsame : e'.store = e.store → e'.flush = e.flush →
      SameDue e.store e'.store ∧ (e.flush.locks = true → e'.flush.locks = true) := by
    intro hstore hflush
    rw [hstore, hflush]
    exact ⟨.refl _, id⟩
  cases step_kind hs with
  | noop => exact hsame rfl rfl
  | enter hops =>
    obtain ⟨hstore, hflush, -⟩ := (callRule_threads e).enter ⟨rfl, rfl, rfl⟩ _
    exact hsame hstore hflush
  | resume hr =>
    obtain ⟨hstore, hflush, -⟩ := (callRule_threads e).resume ⟨rfl, rfl, rfl⟩ hr
    exact hsame hstore hflush
  | rotate hr =>
    obtain ⟨rfl, -, -⟩ := flushMem_eq hr
    exact hsame rfl rfl
  | takeImm ht =>
    obtain ⟨m, -, hidle, rfl⟩ := takeImm_eq ht
    refine ⟨.refl _, fun hlocks => ?_⟩
    rw [hidle] at hlocks
    contradiction
  | buildSST hb =>
    obtain ⟨m, s, hflush, hstep, rfl⟩ := buildSST_eq hb
    refine ⟨(jobs_step h hstep).2 rfl, fun hlocks => ?_⟩
    rw [hflush] at hlocks
    contradiction
  | logFlush hl => contradiction
  | finishFlush hf => contradiction
  | store hb hstep =>
    refine ⟨(jobs_step h hstep).2 ?_, id⟩
    cases a <;> first | contradiction | (obtain rfl := Option.some.inj hb; rfl)
  | commit _ hstep => contradiction
  | setTTL => exact hsame rfl rfl
  | closing _ hc =>
    rw [closing_eq hc]
    exact ⟨.refl _, id⟩
  | shutdown _ hd => contradiction
  | crash => contradiction

theorem flush_of_unlocked {a : EngineAction} (hs : e.step a = some e') (hquiet : a.quiet = true)
    (hunlocked : a.unlocked = true) : e'.flush = e.flush := by
  cases step_kind hs with
  | enter hops => cases a <;> contradiction
  | store hb hstep => rfl
  | closing _ hc => rw [closing_eq hc]
  | _ => contradiction

/-- The actions of `Close` that turn `running_` off, or come after that. -/
def EngineAction.stops : EngineAction → Bool
  | stop | shutdown _ | crash => true
  | _ => false

theorem running_step {a : EngineAction} (hs : e.step a = some e') (ha : a.stops = false) :
    e'.closing.running = e.closing.running := by
  cases step_kind hs with
  | noop => rfl
  | enter hops => rw [((callRule_threads e).enter ⟨rfl, rfl, rfl⟩ _).2.2]
  | resume hr => rw [((callRule_threads e).resume ⟨rfl, rfl, rfl⟩ hr).2.2]
  | rotate hr =>
    obtain ⟨rfl, -, -⟩ := flushMem_eq hr
    rfl
  | takeImm ht =>
    obtain ⟨m, -, -, rfl⟩ := takeImm_eq ht
    rfl
  | buildSST hb =>
    obtain ⟨m, s, -, -, rfl⟩ := buildSST_eq hb
    rfl
  | logFlush hl =>
    obtain ⟨m, s, -, -, rfl⟩ := logFlush_eq hl
    rfl
  | finishFlush hf =>
    obtain ⟨m, -, rfl⟩ := finishFlush_eq hf
    rfl
  | store hb hstep => rfl
  | commit _ hstep => rfl
  | setTTL => rfl
  | closing hcloses _ =>
    unfold Engine.step at hs
    split_ifs at hs
    cases a with
    | exitFlush =>
      simp only [Engine.exitFlush] at hs
      split_ifs at hs
      rw [← Option.some.inj hs]
    | close =>
      simp only [Engine.close] at hs
      split_ifs at hs with hopen
      · rw [← Option.some.inj hs, hopen]
        rfl
      · rw [← Option.some.inj hs]
    | closeFlushed =>
      simp only [Engine.closeFlushed] at hs
      split_ifs at hs with hflushing
      rw [← Option.some.inj hs, hflushing.1]
      rfl
    | _ => contradiction
  | shutdown _ hd => contradiction
  | crash => contradiction

theorem stop_running (hs : e.step .stop = some e') : e'.closing = .joining ∧ e'.store = e.store ∧
    e'.flush = e.flush := by
  unfold Engine.step at hs
  split_ifs at hs
  simp only [Engine.stop] at hs
  split_ifs at hs
  rw [← Option.some.inj hs]
  exact ⟨rfl, rfl, rfl⟩

/-- What is due is pending, up to a thread that has not come to it. A thread that sleeps, or
goes to sleep, has nothing to do, but for a `Close` whose notification it has missed. -/
structure ScheduledInv (s : Scheduled) : Prop where
  jobs : Jobs s.engine.store
  due : s.running = true → s.engine.store.shouldScheduleCompaction = true →
    s.compaction_pending = true ∨ s.scheduling = true ∨ s.engine.flush.locks = true ∨ s.fresh = true
  checked : s.compactor = .checked → s.compaction_pending = false ∧ s.engine.flush.locks = false ∧
    (s.running = true ∨ s.missed = true)
  asleep : s.compactor = .asleep → s.compaction_pending = false ∧ (s.running = true ∨ s.missed = true)

theorem scheduledInv_start {e : Engine} (h : Jobs e.store) : ScheduledInv (.start e) :=
  ⟨h, fun _ _ => Or.inr (Or.inr (Or.inr rfl)), fun hc => by contradiction, fun hc => by contradiction⟩

variable {s s' : Scheduled}

@[simp] theorem notify_eq_asleep (c : Compactor) : c.notify = .asleep ↔ False := by
  cases c <;> simp [Compactor.notify]

@[simp] theorem notify_eq_checked (c : Compactor) : c.notify = .checked ↔ c = .checked := by
  cases c <;> simp [Compactor.notify]

theorem not_checked_of_free (h : s.locked = false) : s.compactor ≠ .checked := by
  simp only [Scheduled.locked, Bool.or_eq_false_iff, beq_eq_false_iff_ne] at h
  exact h.2

theorem flush_free_of_free (h : s.locked = false) : s.engine.flush.locks = false := by
  simp only [Scheduled.locked, Bool.or_eq_false_iff] at h
  exact h.1

theorem scheduledInv_schedule (h : Jobs s.engine.store) (hfree : s.compactor ≠ .checked) :
    ScheduledInv s.schedule := by
  refine ⟨h, fun _ _ => Or.inl rfl, fun hc => ?_, fun hc => ?_⟩
  · simp [Scheduled.schedule, hfree] at hc
  · simp [Scheduled.schedule] at hc

theorem scheduledInv_maybe (h : ScheduledInv s) (hfree : s.locked = false) :
    ScheduledInv { s.maybeScheduleCompaction with scheduling := false } := by
  have hchecked := not_checked_of_free hfree
  unfold Scheduled.maybeScheduleCompaction
  split_ifs with hdue
  · have hnext := scheduledInv_schedule h.jobs hchecked
    exact ⟨hnext.jobs, fun _ _ => Or.inl rfl, hnext.checked, hnext.asleep⟩
  · refine ⟨h.jobs, fun _ hshould => ?_, h.checked, h.asleep⟩
    simp only [Bool.or_eq_true, not_or] at hdue
    exact absurd hshould hdue.1

/-- The end of a compaction sees to whatever is due by then. -/
theorem scheduledInv_finish (h : Jobs s.engine.store) (hchecked : s.compactor ≠ .checked)
    (hasleep : s.compactor = .asleep → s.compaction_pending = false ∧
      (s.running = true ∨ s.missed = true)) : ScheduledInv s.finishWork := by
  have hreleased : ∀ t : Scheduled, t.engine = s.engine → t.compactor =
      (if s.compactor = .working then .awake else s.compactor) →
      t.compaction_pending = s.compaction_pending → t.missed = s.missed →
      ScheduledInv (if t.running && (t.compaction_pending || t.engine.store.shouldScheduleCompaction)
        then t.schedule else t) := by
    intro t hengine hcompactor hpending hmissed
    have hjobs : Jobs t.engine.store := hengine ▸ h
    have hfree : t.compactor ≠ .checked := by
      rw [hcompactor]
      split_ifs
      · simp
      · exact hchecked
    split_ifs with hdue
    · exact scheduledInv_schedule hjobs hfree
    · refine ⟨hjobs, fun hrunning hshould => ?_, fun hc => absurd hc hfree, fun hc => ?_⟩
      · simp [hrunning, hshould] at hdue
      · rw [hcompactor] at hc
        split_ifs at hc
        obtain ⟨hold, halive⟩ := hasleep hc
        rw [Scheduled.running, hengine, hpending, hmissed]
        exact ⟨hold, halive⟩
  exact hreleased _ rfl rfl rfl rfl

theorem scheduledInv_check (h : ScheduledInv s) (hs : s.check = some s') : ScheduledInv s' := by
  unfold Scheduled.check at hs
  split_ifs at hs with hawake hstopped hpending
  · rw [← Option.some.inj hs]
    exact ⟨h.jobs, h.due, fun hc => by contradiction, fun hc => by contradiction⟩
  · have hflush := flush_free_of_free hawake.2
    have hrunning : s.running = true := by simpa using hstopped
    rw [← Option.some.inj hs]
    refine ⟨h.jobs, h.due, fun _ => ⟨?_, hflush, Or.inl hrunning⟩, fun hc => by contradiction⟩
    simpa using hpending
  · have hrunning : s.running = true := by simpa using hstopped
    have hdone : s.engine.closing ≠ .done := by
      intro hdone
      rw [Scheduled.running, hdone] at hrunning
      contradiction
    have hpick : s.engine.step (.pick false) = s.engine.storeStep (.pick false s.engine.ttl_map) := by
      simp [Engine.step, flush_free_of_free hawake.2, hdone]
    cases hp : s.engine.step (.pick false) with
    | none =>
      simp only [hp, Option.some.injEq] at hs
      rw [← hs]
      refine ⟨h.jobs, fun _ hshould => ?_, fun hc => ?_, fun hc => ?_⟩
      · rw [hpick] at hp
        have hstart := Option.map_eq_none_iff.mp hp
        dsimp only [Store.step] at hstart
        rw [← pick_isSome _ s.engine.ttl_map] at hshould
        obtain ⟨work, hwork⟩ := Option.isSome_iff_exists.mp hshould
        simp [Store.startCompaction, hwork] at hstart
      · exact absurd (hawake.1.symm.trans hc) (by simp)
      · exact absurd (hawake.1.symm.trans hc) (by simp)
    | some e =>
      simp only [hp, Option.some.injEq] at hs
      rw [← hs]
      refine ⟨jobs_engineStep h.jobs hp (by simp), fun _ hshould => ?_, fun hc => by contradiction,
        fun hc => by contradiction⟩
      rw [hpick] at hp
      obtain ⟨t, ht, rfl⟩ := Option.map_eq_some_iff.mp hp
      obtain ⟨work, -, rfl⟩ := startCompaction_eq ht
      simp [Store.shouldScheduleCompaction, Store.afterPick] at hshould

theorem scheduledInv_compact {force : Bool} {held : List Bytes} (h : ScheduledInv s)
    (hs : s.compact force held = some s') : ScheduledInv s' := by
  unfold Scheduled.compact at hs
  split_ifs at hs with hwaits hprogress
  · rw [← Option.some.inj hs]
    exact h
  · have hfree : s.locked = false := by
      simp only [Bool.or_eq_true, not_or] at hwaits
      simpa using hwaits.1
    have hchecked := not_checked_of_free hfree
    cases hp : s.engine.step (.pick force) with
    | none =>
      simp only [hp] at hs
      obtain ⟨e, he, rfl⟩ := Option.map_eq_some_iff.mp hs
      obtain ⟨hsame, hlocks⟩ := quiet_step h.jobs he rfl
      have hrunning := running_step he rfl
      refine ⟨jobs_engineStep h.jobs he (by simp), fun hr hshould => ?_, fun hc => absurd hc hchecked,
        fun hc => ?_⟩
      · rw [hsame.should] at hshould
        rcases h.due (hrunning.symm.trans hr) hshould with hpending | hsched | hlocked | hfresh
        · exact Or.inl hpending
        · exact Or.inr (Or.inl hsched)
        · exact Or.inr (Or.inr (Or.inl (hlocks hlocked)))
        · exact Or.inr (Or.inr (Or.inr hfresh))
      · obtain ⟨hpending, halive⟩ := h.asleep hc
        exact ⟨hpending, halive.imp_left fun hr => hrunning.trans hr⟩
    | some e =>
      simp only [hp, Option.some.injEq] at hs
      rw [← hs]
      have hrunning := running_step hp rfl
      refine ⟨jobs_engineStep h.jobs hp (by simp), fun _ hshould => ?_, fun hc => absurd hc hchecked,
        fun hc => ⟨rfl, (h.asleep hc).2.imp_left fun hr => hrunning.trans hr⟩⟩
      cases step_kind hp with
      | enter hops => contradiction
      | closing hc => contradiction
      | store hb hstep =>
        obtain rfl := Option.some.inj hb
        obtain ⟨work, -, rfl⟩ := startCompaction_eq hstep
        simp [Store.shouldScheduleCompaction, Store.afterPick] at hshould

/-- An action that leaves threads and store to themselves. -/
theorem scheduledInv_quiet (h : ScheduledInv s) {a : EngineAction} {e : Engine}
    (he : s.engine.step a = some e) (hquiet : a.quiet = true)
    (hlocked : s.compactor = .checked → a.unlocked = true) :
    ScheduledInv { s with engine := e } := by
  obtain ⟨hsame, hlocks⟩ := quiet_step h.jobs he hquiet
  have hstops : a.stops = false := by cases a <;> first | rfl | contradiction
  have hrunning := running_step he hstops
  have hcrash : a ≠ .crash := by
    rintro rfl
    contradiction
  refine ⟨jobs_engineStep h.jobs he hcrash, fun hr hshould => ?_, fun hc => ?_, fun hc => ?_⟩
  · rw [hsame.should] at hshould
    rcases h.due (hrunning.symm.trans hr) hshould with hpending | hsched | hlocked | hfresh
    · exact Or.inl hpending
    · exact Or.inr (Or.inl hsched)
    · exact Or.inr (Or.inr (Or.inl (hlocks hlocked)))
    · exact Or.inr (Or.inr (Or.inr hfresh))
  · obtain ⟨hpending, hfree, halive⟩ := h.checked hc
    refine ⟨hpending, ?_, halive.imp_left fun hr => hrunning.trans hr⟩
    rw [flush_of_unlocked he hquiet (hlocked hc)]
    exact hfree
  · obtain ⟨hpending, halive⟩ := h.asleep hc
    exact ⟨hpending, halive.imp_left fun hr => hrunning.trans hr⟩

theorem scheduledInv_step {a : ScheduledAction} (h : ScheduledInv s) (hs : s.step a = some s') :
    ScheduledInv s' := by
  cases a with
  | engine a =>
    simp only [Scheduled.step] at hs
    split_ifs at hs with hblocked
    obtain ⟨hscheduled, hblocks⟩ : a.scheduled = false ∧ s.blocks a = false := by simpa using hblocked
    obtain ⟨e, he, rfl⟩ := Option.map_eq_some_iff.mp hs
    cases a with
    | pick force => contradiction
    | skip force held => contradiction
    | crash => contradiction
    | finishFlush =>
      have hjobs := jobs_engineStep h.jobs he (by simp)
      have hrunning := running_step he rfl
      refine ⟨hjobs, fun _ _ => Or.inr (Or.inl rfl), fun hc => ?_, fun hc => ?_⟩
      · -- the flush thread cannot hold the lock here
        obtain ⟨-, hfree, -⟩ := h.checked hc
        cases step_kind he with
        | finishFlush hf =>
          obtain ⟨m, hflush, -⟩ := finishFlush_eq hf
          rw [hflush] at hfree
          contradiction
        | _ => contradiction
      · obtain ⟨hpending, halive⟩ := h.asleep hc
        exact ⟨hpending, halive.imp_left fun hr => hrunning.trans hr⟩
    | stop =>
      obtain ⟨hclosing, hstore, hflush⟩ := stop_running he
      have hstopped : e.closing.running = false := by rw [hclosing]; rfl
      refine ⟨hstore ▸ h.jobs, fun hr => ?_, fun hc => ?_, fun hc => ?_⟩
      · exact absurd (hstopped.symm.trans hr) (by simp)
      · have hold : s.compactor = .checked := (notify_eq_checked _).mp hc
        obtain ⟨hpending, hfree, -⟩ := h.checked hold
        refine ⟨hpending, hflush ▸ hfree, Or.inr ?_⟩
        simp [Scheduled.after, hold]
      · exact absurd hc (by simp [Scheduled.after])
    | commit cleanup_obsolete held =>
      have hchecked := not_checked_of_free (Bool.or_eq_false_iff.mp hblocks).1
      have hrunning := running_step he rfl
      apply scheduledInv_finish
      · exact jobs_engineStep h.jobs he (by simp)
      · exact hchecked
      · intro hc
        obtain ⟨hpending, halive⟩ := h.asleep hc
        exact ⟨hpending, halive.imp_left fun hr => hrunning.trans hr⟩
    | shutdown held =>
      have hexited : s.compactor = .exited := by simpa [Scheduled.blocks] using hblocks
      have hjobs := jobs_engineStep h.jobs he (by simp)
      refine ⟨hjobs, fun hr => ?_, fun hc => ?_, fun hc => ?_⟩
      · cases step_kind he with
        | shutdown _ hd =>
          obtain ⟨t, -, rfl⟩ := shutdown_spec hd
          contradiction
        | enter hops => contradiction
        | store hb => contradiction
        | closing hcloses => contradiction
      · exact absurd (hexited.symm.trans hc) (by simp)
      · exact absurd (hexited.symm.trans hc) (by simp)
    | logFlush =>
      have hjobs := jobs_engineStep h.jobs he (by simp)
      have hrunning := running_step he rfl
      cases step_kind he with
      | enter hops => contradiction
      | store hb => contradiction
      | closing hcloses => contradiction
      | logFlush hl =>
        obtain ⟨m, t, -, -, rfl⟩ := logFlush_eq hl
        refine ⟨hjobs, fun _ _ => Or.inr (Or.inr (Or.inl rfl)), fun hc => ?_, fun hc => ?_⟩
        · have hc : s.compactor = .checked := hc
          simp [Scheduled.blocks, hc, EngineAction.unlocked] at hblocks
        · exact h.asleep hc
    | _ =>
      refine scheduledInv_quiet h he rfl fun hc => ?_
      simp [Scheduled.blocks, hc] at hblocks
      exact hblocks.1
  | maybeSchedule =>
    simp only [Scheduled.step] at hs
    split_ifs at hs with hfree
    rw [← Option.some.inj hs]
    exact scheduledInv_maybe h (by simpa using (Bool.and_eq_true_iff.mp hfree).2)
  | check => exact scheduledInv_check h hs
  | sleep =>
    simp only [Scheduled.step] at hs
    split_ifs at hs with hchecked
    rw [← Option.some.inj hs]
    obtain ⟨hpending, -, halive⟩ := h.checked hchecked
    exact ⟨h.jobs, h.due, fun hc => by contradiction, fun _ => ⟨hpending, halive⟩⟩
  | wake =>
    simp only [Scheduled.step] at hs
    split_ifs at hs with hasleep
    rw [← Option.some.inj hs]
    exact ⟨h.jobs, h.due, fun hc => by contradiction, fun hc => by contradiction⟩
  | compact force held => exact scheduledInv_compact h hs

/-- No level asks for a compaction. -/
def Store.WithinLimits (s : Store) : Prop :=
  (s.vmgr.current.level_files 0).length < kL0CompactionTrigger ∧
    ∀ level ∈ ([1, 2, 3, 4, 5] : List (Fin kMaxLevel)),
      ((s.vmgr.current.level_files level).map FileMeta.file_size).sum ≤ kLevelSizeBase * 2 ^ level.val

theorem within_of_not_due {s : Store} (h : Jobs s) (hidle : s.compaction_in_progress = false)
    (hdue : s.shouldScheduleCompaction = false) : s.WithinLimits := by
  simp only [Store.shouldScheduleCompaction, Store.l0NonCompactingFileCount, hidle, (h.idle hidle).2,
    Bool.false_eq_true, if_false, List.contains_nil, Bool.not_false, List.filter_true] at hdue
  split_ifs at hdue with hl0
  refine ⟨not_le.mp hl0, fun level hmem => ?_⟩
  have hlevel := List.any_eq_false.mp hdue level hmem
  simpa using hlevel

theorem jobs_open (db_dir : Bytes) (files : Files) (dir : SstDir) (wal : WAL) (limit : Int64)
    (target : ℕ) : Jobs (Engine.open (startup db_dir files dir) wal limit target).store :=
  ⟨rfl, rfl, fun run hrun => by contradiction⟩

/-- From any directory, in every reachable state in which `mu_` is free and the flush thread is
not about to look: once a flush or a compaction has ended, what is due is pending, and while
the compaction thread sleeps and no compaction runs, every level is within its limit. -/
theorem due_compactions_pending (db_dir : Bytes) (files : Files) (dir : SstDir) (wal : WAL)
    (limit : Int64) (target : ℕ) {s : Scheduled}
    (h : Reach Scheduled.step (fun _ _ => True)
      (.start (Engine.open (startup db_dir files dir) wal limit target)) s)
    (hfree : s.locked = false) (hrunning : s.running = true) (hsched : s.scheduling = false)
    (hfresh : s.fresh = false) :
    (s.engine.store.shouldScheduleCompaction = true → s.compaction_pending = true) ∧
      (s.compactor = .asleep → s.engine.store.compaction_in_progress = false →
        s.engine.store.WithinLimits) := by
  have hinv : ScheduledInv s :=
    h.invariant (scheduledInv_start (jobs_open db_dir files dir wal limit target))
      fun _ _ _ hi _ hs => scheduledInv_step hi hs
  have hpending : s.engine.store.shouldScheduleCompaction = true → s.compaction_pending = true := by
    intro hdue
    rcases hinv.due hrunning hdue with hp | hs | hl | hf
    · exact hp
    · simp [hsched] at hs
    · simp [flush_free_of_free hfree] at hl
    · simp [hfresh] at hf
  refine ⟨hpending, fun hasleep hidle => within_of_not_due hinv.jobs hidle ?_⟩
  rw [Bool.eq_false_iff]
  intro hdue
  have hnot := (hinv.asleep hasleep).1
  rw [hpending hdue] at hnot
  contradiction

/-- One point through the flush thread, which then looks whether a compaction is due. -/
def flushedAt (t : Int64) : List ScheduledAction :=
  [.engine (.put (ascii "cpu") t (ascii "v")), .engine .flush, .engine .takeImm, .engine .buildSST,
    .engine .logFlush, .engine .finishFlush, .maybeSchedule]

/-- Four flushes, the compaction they ask for, and the sleep of its thread. -/
def compactedToRest : Option Scheduled :=
  let actions : List ScheduledAction := ([1, 2, 3, 4] : List Int64).flatMap flushedAt ++
    [.check, .engine .readInputs, .engine .writeOutput, .engine (.commit true []), .check, .sleep]
  actions.foldlM Scheduled.step
    (.start (Engine.open (startup (ascii "db") (fun _ => none) []) ⟨[]⟩ 1000 0))

theorem due_compactions_pending_compactedToRest : ∃ s, compactedToRest = some s ∧
    (s.engine.store.vmgr.current.level_files 1).length = 1 ∧ s.engine.store.WithinLimits := by
  have hrun : (compactedToRest.map fun s => ((s.locked, s.running, s.scheduling, s.fresh), s.compactor,
      s.engine.store.compaction_in_progress, (s.engine.store.vmgr.current.level_files 1).length)) =
        some ((false, true, false, false), .asleep, false, 1) := by decide +kernel
  obtain ⟨s, hs, hstate⟩ := Option.map_eq_some_iff.mp hrun
  obtain ⟨⟨hfree, hrunning, hsched, hfresh⟩, hasleep, hidle, hlength⟩ := by
    simpa only [Prod.mk.injEq] using hstate
  have hreach : Reach _ (fun _ _ => True) _ s := reach_foldlM (fun _ _ _ => trivial) hs
  exact ⟨s, hs, hlength, (due_compactions_pending (ascii "db") (fun _ => none) [] ⟨[]⟩ 1000 0 hreach
    hfree hrunning hsched hfresh).2 hasleep hidle⟩

end MiniTsdb
