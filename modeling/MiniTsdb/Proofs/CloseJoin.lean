import MiniTsdb.Proofs.Scheduling

/-! The end of `Close`: it joins the compaction thread, which it has notified without `mu_`. -/

namespace MiniTsdb
open Lib

variable {e e' : Engine} {s s' : Scheduled}

theorem callRule_closing (e : Engine) : CallRule fun f =>
    f.flush = e.flush ∧ f.closing = e.closing ∧ f.flush_exited = e.flush_exited :=
  ⟨fun _ _ _ _ h => h, fun _ h _ _ => h, fun _ _ _ h => h⟩

/-- The flush thread has ended, and `Close` waits for the compaction thread. -/
structure Engine.Joining (e : Engine) : Prop where
  closing : e.closing = .joining
  exited : e.flush_exited = true
  idle : e.flush = .idle

theorem Engine.Joining.same (h : e.Joining)
    (heq : e'.flush = e.flush ∧ e'.closing = e.closing ∧ e'.flush_exited = e.flush_exited) :
    e'.Joining :=
  ⟨heq.2.1.trans h.closing, heq.2.2.trans h.exited, heq.1.trans h.idle⟩

theorem joining_step {a : EngineAction} (h : e.Joining) (hs : e.step a = some e')
    (hcrash : a ≠ .crash) (hshutdown : ∀ held, a ≠ .shutdown held) :
    e'.Joining ∧ a ≠ .finishFlush ∧ a ≠ .stop := by
  have hflush : ∀ f, f ≠ FlushThread.idle → e.flush ≠ f := fun f hne heq => hne (heq.symm.trans h.idle)
  cases step_kind hs with
  | noop => exact ⟨h, by simp, by simp⟩
  | enter hops =>
    refine ⟨h.same ((callRule_closing e).enter ⟨rfl, rfl, rfl⟩ _), ?_, ?_⟩
    · rintro rfl
      contradiction
    · rintro rfl
      contradiction
  | resume hr => exact ⟨h.same ((callRule_closing e).resume ⟨rfl, rfl, rfl⟩ hr), by simp, by simp⟩
  | rotate hr =>
    obtain ⟨rfl, -, -⟩ := flushMem_eq hr
    exact ⟨⟨h.closing, h.exited, h.idle⟩, by simp, by simp⟩
  | takeImm ht =>
    simp [Engine.takeImm, h.exited] at ht
  | buildSST hb =>
    obtain ⟨m, t, hbuilt, -⟩ := buildSST_eq hb
    exact absurd hbuilt (hflush _ (by simp))
  | logFlush hl =>
    obtain ⟨m, t, hbuilt, -⟩ := logFlush_eq hl
    exact absurd hbuilt (hflush _ (by simp))
  | finishFlush hf =>
    obtain ⟨m, hlogged, -⟩ := finishFlush_eq hf
    exact absurd hlogged (hflush _ (by simp))
  | store hb hstep =>
    refine ⟨⟨h.closing, h.exited, h.idle⟩, ?_, ?_⟩
    · rintro rfl
      contradiction
    · rintro rfl
      contradiction
  | commit _ hstep => exact ⟨⟨h.closing, h.exited, h.idle⟩, by simp, by simp⟩
  | setTTL => exact ⟨⟨h.closing, h.exited, h.idle⟩, by simp, by simp⟩
  | closing hcloses _ =>
    unfold Engine.step at hs
    split_ifs at hs
    cases a with
    | exitFlush =>
      simp only [Engine.exitFlush] at hs
      split_ifs at hs
      rw [← Option.some.inj hs]
      exact ⟨⟨h.closing, rfl, h.idle⟩, by simp, by simp⟩
    | close =>
      simp only [Engine.close, h.closing] at hs
      rw [← Option.some.inj hs]
      exact ⟨h, by simp, by simp⟩
    | closeFlushed => simp [Engine.closeFlushed, h.closing] at hs
    | stop => simp [Engine.stop, h.closing] at hs
    | _ => contradiction
  | @shutdown held _ _ _ => exact absurd rfl (hshutdown held)
  | crash => exact absurd rfl hcrash

/-- A flush thread that has ended holds nothing. -/
def Engine.Ended (e : Engine) : Prop := e.flush_exited = true → e.flush = .idle

theorem ended_step {a : EngineAction} (h : e.Ended) (hs : e.step a = some e') (hcrash : a ≠ .crash) :
    e'.Ended := by
  have hsame : e'.flush = e.flush ∧ e'.closing = e.closing ∧ e'.flush_exited = e.flush_exited →
      e'.Ended := fun heq hexited => heq.1.trans (h (heq.2.2.symm.trans hexited))
  cases step_kind hs with
  | noop => exact h
  | enter hops => exact hsame ((callRule_closing e).enter ⟨rfl, rfl, rfl⟩ _)
  | resume hr => exact hsame ((callRule_closing e).resume ⟨rfl, rfl, rfl⟩ hr)
  | rotate hr =>
    obtain ⟨rfl, -, -⟩ := flushMem_eq hr
    exact h
  | takeImm ht =>
    intro hexited
    obtain ⟨m, -, -, rfl⟩ := takeImm_eq ht
    have hexited : e.flush_exited = true := hexited
    simp [Engine.takeImm, hexited] at ht
  | buildSST hb =>
    obtain ⟨m, t, hbuilt, -, rfl⟩ := buildSST_eq hb
    intro hexited
    have hidle := h hexited
    rw [hbuilt] at hidle
    contradiction
  | logFlush hl =>
    obtain ⟨m, t, hbuilt, -, rfl⟩ := logFlush_eq hl
    intro hexited
    have hidle := h hexited
    rw [hbuilt] at hidle
    contradiction
  | finishFlush hf =>
    obtain ⟨m, -, rfl⟩ := finishFlush_eq hf
    exact fun _ => rfl
  | store hb hstep => exact h
  | commit _ hstep => exact h
  | setTTL => exact h
  | closing hcloses _ =>
    unfold Engine.step at hs
    split_ifs at hs
    cases a with
    | exitFlush =>
      simp only [Engine.exitFlush] at hs
      split_ifs at hs with hfree
      rw [← Option.some.inj hs]
      intro _
      apply inProgress_eq_false.mp
      simp only [Bool.and_eq_true] at hfree
      simpa using hfree.2.2
    | close =>
      simp only [Engine.close] at hs
      split_ifs at hs <;> rw [← Option.some.inj hs] <;> exact h
    | closeFlushed =>
      simp only [Engine.closeFlushed] at hs
      split_ifs at hs
      rw [← Option.some.inj hs]
      exact h
    | stop =>
      simp only [Engine.stop] at hs
      split_ifs at hs
      rw [← Option.some.inj hs]
      exact h
    | _ => contradiction
  | shutdown _ hd =>
    obtain ⟨t, -, rfl⟩ := shutdown_spec hd
    exact h
  | crash => exact absurd rfl hcrash

theorem finishWork_engine (s : Scheduled) : s.finishWork.engine = s.engine := by
  unfold Scheduled.finishWork
  dsimp only
  split_ifs <;> rfl

theorem maybeSchedule_engine (s : Scheduled) : s.maybeScheduleCompaction.engine = s.engine := by
  unfold Scheduled.maybeScheduleCompaction
  split_ifs <;> rfl

theorem after_engine (s : Scheduled) (e : Engine) (a : EngineAction) : (s.after e a).engine = e := by
  cases a with
  | commit cleanup_obsolete held => exact finishWork_engine _
  | _ => rfl

theorem engine_of_step {b : ScheduledAction} (hs : s.step b = some s') :
    s'.engine = s.engine ∨ ∃ a, a ≠ .crash ∧ s.engine.step a = some s'.engine := by
  cases b with
  | engine a =>
    simp only [Scheduled.step] at hs
    split_ifs at hs with hblocked
    obtain ⟨e, he, rfl⟩ := Option.map_eq_some_iff.mp hs
    refine Or.inr ⟨a, ?_, by rw [after_engine]; exact he⟩
    rintro rfl
    simp [EngineAction.scheduled] at hblocked
  | maybeSchedule =>
    simp only [Scheduled.step] at hs
    split_ifs at hs
    rw [← Option.some.inj hs]
    exact Or.inl (maybeSchedule_engine s)
  | check =>
    simp only [Scheduled.step, Scheduled.check] at hs
    split_ifs at hs
    · rw [← Option.some.inj hs]
      exact Or.inl rfl
    · rw [← Option.some.inj hs]
      exact Or.inl rfl
    · cases hp : s.engine.step (.pick false) with
      | none =>
        simp only [hp, Option.some.injEq] at hs
        rw [← hs]
        exact Or.inl rfl
      | some e =>
        simp only [hp, Option.some.injEq] at hs
        rw [← hs]
        exact Or.inr ⟨.pick false, by simp, hp⟩
  | sleep =>
    simp only [Scheduled.step] at hs
    split_ifs at hs
    rw [← Option.some.inj hs]
    exact Or.inl rfl
  | wake =>
    simp only [Scheduled.step] at hs
    split_ifs at hs
    rw [← Option.some.inj hs]
    exact Or.inl rfl
  | compact force held =>
    simp only [Scheduled.step, Scheduled.compact] at hs
    split_ifs at hs
    · rw [← Option.some.inj hs]
      exact Or.inl rfl
    · cases hp : s.engine.step (.pick force) with
      | none =>
        simp only [hp] at hs
        obtain ⟨e, he, rfl⟩ := Option.map_eq_some_iff.mp hs
        exact Or.inr ⟨.skip force held, by simp, he⟩
      | some e =>
        simp only [hp, Option.some.injEq] at hs
        rw [← hs]
        exact Or.inr ⟨.pick force, by simp, hp⟩

/-- `Close` waits for a thread that sleeps. -/
structure Stuck (s : Scheduled) : Prop where
  engine : s.engine.Joining
  asleep : s.compactor = .asleep
  scheduling : s.scheduling = false

/-- Nothing but the condition variable itself wakes the thread. -/
theorem stuck_step {b : ScheduledAction} (h : Stuck s) (hb : b ≠ .wake) (hs : s.step b = some s') :
    Stuck s' := by
  cases b with
  | engine a =>
    simp only [Scheduled.step] at hs
    split_ifs at hs with hblocked
    obtain ⟨hscheduled, hblocks⟩ : a.scheduled = false ∧ s.blocks a = false := by simpa using hblocked
    obtain ⟨e, he, rfl⟩ := Option.map_eq_some_iff.mp hs
    have hcrash : a ≠ .crash := by
      rintro rfl
      contradiction
    have hshutdown : ∀ held, a ≠ .shutdown held := by
      rintro held rfl
      simp [Scheduled.blocks, h.asleep] at hblocks
    obtain ⟨hjoining, hfinish, hstop⟩ := joining_step h.engine he hcrash hshutdown
    have hquiet : s.after e a = { s with engine := e } → Stuck (s.after e a) := by
      intro heq
      rw [heq]
      exact ⟨hjoining, h.asleep, h.scheduling⟩
    cases a with
    | finishFlush => contradiction
    | stop => contradiction
    | commit cleanup_obsolete held =>
      have hstopped : e.closing.running = false := by rw [hjoining.closing]; rfl
      have heq : s.after e (.commit cleanup_obsolete held) = { s with engine := e, fresh := false } := by
        simp [Scheduled.after, Scheduled.finishWork, Scheduled.running, hstopped, h.asleep]
      rw [heq]
      exact ⟨hjoining, h.asleep, h.scheduling⟩
    | _ => exact hquiet rfl
  | maybeSchedule => simp [Scheduled.step, h.scheduling] at hs
  | check => simp [Scheduled.step, Scheduled.check, h.asleep] at hs
  | sleep => simp [Scheduled.step, h.asleep] at hs
  | wake => contradiction
  | compact force held =>
    obtain ⟨hengine, hasleep, hsched⟩ := h
    simp only [Scheduled.step, Scheduled.compact] at hs
    split_ifs at hs
    · rw [← Option.some.inj hs]
      exact ⟨hengine, hasleep, hsched⟩
    · cases hp : s.engine.step (.pick force) with
      | none =>
        simp only [hp] at hs
        obtain ⟨e, he, rfl⟩ := Option.map_eq_some_iff.mp hs
        exact ⟨(joining_step hengine he (by simp) (by simp)).1, hasleep, hsched⟩
      | some e =>
        simp only [hp, Option.some.injEq] at hs
        rw [← hs]
        exact ⟨(joining_step hengine hp (by simp) (by simp)).1, hasleep, hsched⟩

/-- Once `running_` is off, the compaction thread sleeps or goes to sleep only if the
notification of `Close` fell between its predicate and its wait. Asleep with the flush thread
at its end, `Close` never returns, unless the condition variable wakes the thread by itself. -/
theorem close_hangs_iff_missed (db_dir : Bytes) (files : Files) (dir : SstDir) (wal : WAL)
    (limit : Int64) (target : ℕ) {s : Scheduled}
    (h : Reach Scheduled.step (fun _ _ => True)
      (.start (Engine.open (startup db_dir files dir) wal limit target)) s)
    (hstopped : s.running = false) :
    (s.missed = false → s.compactor ≠ .asleep ∧ s.compactor ≠ .checked) ∧
      (s.compactor = .asleep → s.engine.closing = .joining → s.engine.flush_exited = true →
        s.scheduling = false → ∀ s', Reach Scheduled.step (fun _ b => b ≠ .wake) s s' →
          s'.compactor = .asleep ∧ s'.engine.closing = .joining) := by
  have hinv : ScheduledInv s :=
    h.invariant (scheduledInv_start (jobs_open db_dir files dir wal limit target))
      fun _ _ _ hi _ hs => scheduledInv_step hi hs
  have hended : s.engine.Ended := by
    refine h.invariant (I := fun s => s.engine.Ended) (fun hexited => by contradiction)
      fun s b s' hi _ hs => ?_
    rcases engine_of_step hs with heq | ⟨a, hcrash, he⟩
    · rw [heq]
      exact hi
    · exact ended_step hi he hcrash
  refine ⟨fun hmissed => ⟨fun hasleep => ?_, fun hchecked => ?_⟩,
    fun hasleep hjoining hexited hsched s' hs' => ?_⟩
  · have halive := (hinv.asleep hasleep).2
    simp [hstopped, hmissed] at halive
  · have halive := (hinv.checked hchecked).2.2
    simp [hstopped, hmissed] at halive
  · have hstuck : Stuck s' := hs'.invariant (I := Stuck)
      ⟨⟨hjoining, hexited, hended hexited⟩, hasleep, hsched⟩ fun _ _ _ hi hok hs => stuck_step hi hok hs
    exact ⟨hstuck.asleep, hstuck.engine.closing⟩

/-- `running_` is turned off while the compaction thread is on its way from its predicate to
its sleep. -/
def stoppedTooEarly : Option Scheduled :=
  [ScheduledAction.engine .close, .engine .closeFlushed, .check, .engine .stop, .sleep,
    .engine .exitFlush].foldlM Scheduled.step
      (.start (Engine.open (startup (ascii "db") (fun _ => none) []) ⟨[]⟩ 1000 0))

theorem close_hangs_iff_missed_stoppedTooEarly : ∃ s, stoppedTooEarly = some s ∧ s.missed = true ∧
    ∀ s', Reach Scheduled.step (fun _ b => b ≠ .wake) s s' →
      s'.compactor = .asleep ∧ s'.engine.closing = .joining := by
  have hrun : (stoppedTooEarly.map fun s => (s.running, s.missed, s.compactor, s.engine.closing,
      s.engine.flush_exited, s.scheduling)) =
        some (false, true, .asleep, .joining, true, false) := by decide +kernel
  obtain ⟨s, hs, hstate⟩ := Option.map_eq_some_iff.mp hrun
  obtain ⟨hstopped, hmissed, hasleep, hjoining, hexited, hsched⟩ := by
    simpa only [Prod.mk.injEq] using hstate
  have hreach : Reach _ (fun _ _ => True) _ s := reach_foldlM (fun _ _ _ => trivial) hs
  exact ⟨s, hs, hmissed, (close_hangs_iff_missed (ascii "db") (fun _ => none) [] ⟨[]⟩ 1000 0 hreach
    hstopped).2 hasleep hjoining hexited hsched⟩

end MiniTsdb
