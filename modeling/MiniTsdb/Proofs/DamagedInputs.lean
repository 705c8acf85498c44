import MiniTsdb.Proofs.DiskSteps
import MiniTsdb.Proofs.Reading

/-! Compactions whose inputs are damaged. A file that does not open, or a block that cannot
be read, counts as one without records, and the commit deletes the file all the same. -/

namespace MiniTsdb
open Lib

theorem scanBlocks_sound (file : Bytes) (first last : TsKey) (index : List IndexEntry) :
    scanBlocks (fun _ => false) file first last index = scanIndexLoop file first last index := by
  induction index with
  | nil => rfl
  | cons e index ih =>
    rw [scanBlocks, scanIndexLoop, ih]
    rfl

theorem records_sound (reader : SSTableReader) :
    (InputFile.opened reader fun _ => false).records =
      reader.rangeScanEntries sstScanFirst sstScanLast :=
  scanBlocks_sound _ _ _ _

theorem numbered_opened {st : Startup} (h : st.vm.Listed) (target : ℕ) :
    Numbered (st.store target) :=
  ⟨fun l f hf n hn => h.given l f hf n (hn.resolve_left fun hm => by contradiction),
    fun n hn => by contradiction, List.nodup_nil, fun run hrun => by contradiction⟩

theorem numbered_run {s s' : Store} {ok : Store → DiskAction → Prop} (h : Numbered s)
    (hr : Reach Store.diskStep ok s s') : Numbered s' :=
  hr.invariant h fun _ _ _ hn _ hs => hn.step hs

theorem engine_disk {e e' : Engine} {a : EngineAction} (hcrash : a.isCrash = false)
    (hs : e.step a = some e') :
    e'.store = e.store ∨ ∃ b, e.store.diskStep b = some e'.store := by
  have hcrash' : a ≠ .crash := by
    rintro rfl
    contradiction
  rcases store_step hs hcrash' with hsame | ⟨b, -, -, hstep, -⟩
  · exact Or.inl hsame
  · exact Or.inr ⟨.store b, hstep⟩

/-- Every run of the engine is one of its store. -/
theorem disk_run {st : Startup} {wal : WAL} {limit : Int64} {target : ℕ} {e : Engine}
    (h : Reach Engine.faultStep (fun _ a => a.isCrash = false) (.open st wal limit target) e) :
    Reach Store.diskStep (fun _ _ => True) (st.store target) e.store := by
  refine h.invariant (I := fun e => Reach Store.diskStep (fun _ _ => True) (st.store target) e.store)
    .start fun e a e' hr hcrash hs => ?_
  have hstep : e'.store = e.store ∨ ∃ b, e.store.diskStep b = some e'.store := by
    cases fault_kind hs with
    | engine hs => exact engine_disk hcrash hs
    | finishError _ hfail => exact Or.inr ⟨.finishError, hfail⟩
    | @openError readable _ _ _ hfail => exact Or.inr ⟨.openError readable, hfail⟩
    | @logFlushError failure _ _ _ hfail => exact Or.inr ⟨.logFlushError failure, hfail⟩
    | runError hrun hfail => exact Or.inr ⟨.runError, by rw [Store.diskStep, hrun]; exact hfail⟩
    | @commitError failure _ _ hrun hfail =>
      exact Or.inr ⟨.commitError failure, by rw [Store.diskStep, hrun]; exact hfail⟩
  rcases hstep with heq | ⟨b, hb⟩
  · rw [heq]
    exact hr
  · exact hr.step trivial hb

/-- The job is under way; once its inputs are read, its edit deletes them all. -/
def Store.Runs (s : Store) (work : CompactionWork) : Prop :=
  ∃ run, s.compaction = some run ∧ run.work = work ∧
    ∀ records, run.rest = some records →
      ∀ i ∈ work.job.inputs, (i.level, i.file.file_number) ∈ run.result.edit.deleted_files

section
variable {s s' : Store} {work : CompactionWork}

theorem Store.Runs.congr (h : s.Runs work) (hsame : s'.compaction = s.compaction) : s'.Runs work := by
  obtain ⟨run, hrun, hrest⟩ := h
  exact ⟨run, hsame.trans hrun, hrest⟩

theorem runs_afterRead {run : CompactionRun} {reader : Bytes → List Record} {filter : Record → Bool}
    {merged : List Record} {result : CompactionResult} (hwork : run.work = work)
    (hlevels : ∀ i ∈ work.job.inputs, ∃ l, levelIndex i.level = some l)
    (hinputs : runInputs run.work.job reader filter = .ok (merged, result)) :
    (s.afterRead run merged result).Runs work := by
  refine ⟨⟨run.work, some merged, result⟩, rfl, hwork, fun _ _ i hi => ?_⟩
  obtain ⟨-, rfl⟩ := runInputs_ok hinputs
  obtain ⟨l, hl⟩ := hlevels i hi
  refine List.mem_map.mpr ⟨i, List.mem_filter.mpr ⟨hwork ▸ hi, ?_⟩, rfl⟩
  rw [hl]
  rfl

theorem runs_writeOutput {run : CompactionRun} (hrun : s.compaction = some run) (h : s.Runs work)
    (hs : s.writeOutput run = some s') : s'.Runs work := by
  obtain ⟨run', hrun', hwork, hdeleted⟩ := h
  obtain rfl := Option.some.inj (hrun.symm.trans hrun')
  obtain ⟨records, t, hrest, -, -, rfl⟩ := writeOutput_eq hs
  exact ⟨_, rfl, hwork, fun _ _ i hi => hdeleted records hrest i hi⟩

theorem commitCompaction_ends {run : CompactionRun} {cleanup_obsolete : Bool} {held : List Bytes}
    (hs : s.commitCompaction run cleanup_obsolete held = some s') : s'.compaction = none := by
  obtain ⟨-, ⟨-, rfl⟩ | ⟨-, rfl⟩⟩ := commitCompaction_cases hs
  · split_ifs
    · exact (cleaned (s.publishRun run) held).compaction
    · rfl
  · rfl

/-- The job is over, with its commit or a failure. -/
def Store.Ends (s : Store) (a : DiskAction) : Prop :=
  s.compaction = none ∧
    (a.failsJob = true ∨ ∃ cleanup_obsolete held, a = .store (.commit cleanup_obsolete held))

theorem runs_fails {a : DiskAction} (h : s.Runs work) (hs : FailStep s a s') :
    s'.Runs work ∨ s'.Ends a := by
  cases hs with
  | run _ _ => exact Or.inr ⟨rfl, Or.inl rfl⟩
  | commit _ _ _ => exact Or.inr ⟨rfl, Or.inl rfl⟩
  | _ => exact Or.inl (h.congr rfl)

/-- The job goes on or ends. Its reads end it only for a level that does not exist. -/
theorem runs_step {a : DiskAction} {inputs : Bytes → InputFile} (h : s.Runs work)
    (hlevels : ∀ i ∈ work.job.inputs, ∃ l, levelIndex i.level = some l)
    (hlevel : work.job.output_level < kMaxLevel) (hduring : a.During inputs)
    (hs : s.diskStep a = some s') : s'.Runs work ∨ s'.Ends a := by
  have hjob := h
  obtain ⟨run, hrun, hwork, -⟩ := hjob
  cases a with
  | finishError | openError | logFlushError | runError | commitError =>
    exact runs_fails h (fail_step (fun b hb => by contradiction) hs)
  | store a =>
    cases a with
    | build entries =>
      obtain ⟨-, t, -, rfl⟩ := buildFlush_eq hs
      exact Or.inl (h.congr rfl)
    | commitFlush =>
      simp only [Store.diskStep, Store.step, Store.commitFlush] at hs
      split at hs
      · contradiction
      · exact Or.inl (h.congr (by rw [← Option.some.inj hs]; rfl))
    | read reader =>
      rw [Store.diskStep, Store.step, hrun] at hs
      obtain ⟨-, ⟨hrefused, -⟩ | ⟨merged, result, hinputs, rfl⟩⟩ := readInputs_eq hs
      · exact absurd (hwork ▸ hlevel) (not_lt.mpr hrefused)
      · exact Or.inl (runs_afterRead hwork hlevels hinputs)
    | output =>
      rw [Store.diskStep, Store.step, hrun] at hs
      exact Or.inl (runs_writeOutput hrun h hs)
    | commit cleanup_obsolete held =>
      rw [Store.diskStep, Store.step, hrun] at hs
      exact Or.inr ⟨commitCompaction_ends hs, Or.inr ⟨cleanup_obsolete, held, rfl⟩⟩
    | pick | skip | cleanup | shutdown => exact hduring.elim

end

/-- A live file has the entry. -/
def Store.Holds (s : Store) (key : TsKey) (entry : InternalEntry) : Prop :=
  ∃ l, ∃ ref ∈ s.captureLevels l, ref.getEntry key = some entry

/-- The version still lists the input, its file is where it was, and every entry that could
be read can be read. -/
structure Keeps (s s' : Store) (input : CompactionInput) : Prop where
  listed : ∃ l, levelIndex input.level = some l ∧ input.file ∈ s'.vmgr.current.level_files l
  disk : ∀ e ∈ s.dir, joinPath s.vmgr.db_dir e.1 = input.file.file_name → e ∈ s'.dir
  readable : ∀ key entry, s.Holds key entry → s'.Holds key entry

section
variable {s s' : Store}

theorem Carries.holds (h : Carries s s') {key : TsKey} {entry : InternalEntry}
    (hh : s.Holds key entry) : s'.Holds key entry := by
  obtain ⟨l, ref, href, hentry⟩ := hh
  obtain ⟨f, hf, hfind⟩ := List.mem_filterMap.mp href
  obtain ⟨r, hr, rfl⟩ := Option.map_eq_some_iff.mp hfind
  refine ⟨l, ⟨f, r⟩, List.mem_filterMap.mpr ⟨f, h.live l f hf, ?_⟩, hentry⟩
  rw [h.readers _ r hr]
  rfl

theorem Carries.keeps (h : Carries s s') (hn : Numbered s) {input : CompactionInput} {l : Fin kMaxLevel}
    (hl : levelIndex input.level = some l) (hf : input.file ∈ s.vmgr.current.level_files l) :
    Keeps s s' input := by
  refine ⟨⟨l, hl, h.live l _ hf⟩, fun e he hpath => h.dir e he ?_, fun key entry hh => h.holds hh⟩
  rw [hpath]
  exact hn.live l _ hf

/-- The commit takes every input out of the version. -/
theorem commit_unlists {work : CompactionWork} {run : CompactionRun} {cleanup_obsolete : Bool}
    {held : List Bytes} (hn : Numbered s) (hrun : s.compaction = some run) (hwork : run.work = work)
    (hdeleted : ∀ records, run.rest = some records →
      ∀ i ∈ work.job.inputs, (i.level, i.file.file_number) ∈ run.result.edit.deleted_files)
    (hlive : ∀ i ∈ work.job.inputs,
      ∃ l, levelIndex i.level = some l ∧ i.file ∈ s.vmgr.current.level_files l)
    (hs : s.commitCompaction run cleanup_obsolete held = some s') {input : CompactionInput}
    (hi : input ∈ work.job.inputs) {l : Fin kMaxLevel} (hl : levelIndex input.level = some l) :
    input.file ∉ s'.vmgr.current.level_files l := by
  have hvalid : s.isCompactionInputValid run.work.job = true := by
    refine List.all_eq_true.mpr fun i hi => ?_
    rw [hwork] at hi
    obtain ⟨l, hl, hf⟩ := hlive i hi
    rw [hl]
    exact List.any_eq_true.mpr ⟨i.file, hf, beq_self_eq_true _⟩
  obtain ⟨hrest, ⟨-, rfl⟩ | ⟨hinvalid, -⟩⟩ := commitCompaction_cases hs
  swap
  · rw [hvalid] at hinvalid
    contradiction
  have hcurrent : (if cleanup_obsolete then (s.publishRun run).cleanupObsoleteFiles held
        else s.publishRun run).vmgr.current = (VersionManager.applyUnlocked
      { s.vmgr with manifest_name := s.vmgr.manifestPath } run.result.edit).current := by
    split_ifs
    · rw [(cleaned _ held).vmgr]
      rfl
    · rfl
  obtain ⟨l', hl', hf⟩ := hlive input hi
  obtain rfl := Option.some.inj (hl'.symm.trans hl)
  rw [hcurrent, mem_applyUnlocked]
  rintro (⟨-, hkept⟩ | hadded)
  · rw [VersionEdit.deletes, List.any_eq_false] at hkept
    have hdel := hkept _ (hdeleted [] hrest input hi)
    simp [hl'] at hdel
  · obtain ⟨level, -, ha⟩ := VersionEdit.mem_addedAt.mp hadded
    have hnumber : input.file.file_number ∈ s.unpublished :=
      mem_unpublished_run hrun (List.mem_map.mpr ⟨_, ha, rfl⟩)
    exact hn.live l' _ hf _ (Or.inl hnumber) ((hn.run run hrun).2 _ ha)

end

theorem failsJob_ends {s s' : Store} {a : DiskAction} (hfails : a.failsJob = true)
    (hs : s.diskStep a = some s') : s'.compaction = none := by
  cases fail_step (fun b hb => by rw [hb] at hfails; contradiction) hs with
  | run _ _ => rfl
  | commit _ _ _ => rfl
  | _ => contradiction

/-- As long as the job is under way, no step takes a file away. -/
theorem job_carries {s₁ s : Store} {work : CompactionWork} {inputs : Bytes → InputFile}
    (hn₁ : Numbered s₁) (hruns₁ : s₁.Runs work)
    (hlevels : ∀ i ∈ work.job.inputs, ∃ l, levelIndex i.level = some l)
    (hlevel : work.job.output_level < kMaxLevel)
    (hjob : Reach Store.diskStep (fun s a => s.compaction.isSome = true ∧ a.During inputs) s₁ s)
    (hgoes : s.compaction.isSome = true) : Numbered s ∧ Carries s₁ s ∧ s.Runs work := by
  have hinv : s.compaction.isSome = true → Numbered s ∧ Carries s₁ s ∧ s.Runs work := by
    refine hjob.invariant
      (I := fun s => s.compaction.isSome = true → Numbered s ∧ Carries s₁ s ∧ s.Runs work)
      (fun _ => ⟨hn₁, .refl s₁, hruns₁⟩) fun t a t' hi ⟨hsome, ha⟩ ht hsome' => ?_
    obtain ⟨hn, hc, hruns⟩ := hi hsome
    refine ⟨hn.step ht, hc.trans (hn.carries ha ?_ ht), ?_⟩
    · rintro cleanup_obsolete held rfl
      obtain ⟨run, -, hcommit⟩ := Option.bind_eq_some_iff.mp ht
      rw [commitCompaction_ends hcommit] at hsome'
      contradiction
    · refine (runs_step hruns hlevels hlevel ha ht).resolve_right fun hends => ?_
      rw [hends.1] at hsome'
      contradiction
  exact hinv hgoes

/-- A job ends with one action, and it fails exactly if that one does. -/
theorem job_ends {s₁ s' : Store} {work : CompactionWork} {inputs : Bytes → InputFile}
    {actions : List DiskAction} (hn₁ : Numbered s₁) (hruns₁ : s₁.Runs work)
    (hlevels : ∀ i ∈ work.job.inputs, ∃ l, levelIndex i.level = some l)
    (hlevel : work.job.output_level < kMaxLevel) (hduring : ∀ a ∈ actions, a.During inputs)
    (hjob : actions.foldlM (guarded Store.diskStep fun s _ => s.compaction.isSome = true) s₁ = some s')
    (hended : s'.compaction = none) :
    ∃ s a, Numbered s ∧ Carries s₁ s ∧ s.Runs work ∧ a.During inputs ∧ s.diskStep a = some s' ∧
      s'.Ends a ∧ ((∃ b ∈ actions, b.failsJob = true) ↔ a.failsJob = true) := by
  obtain ⟨before, a, s, rfl, hbefore, hgoes, hs, hinside⟩ := guarded_leaves hjob
    (by obtain ⟨run, hrun, -⟩ := hruns₁; rw [hrun]; rfl) (by rw [hended]; exact Bool.false_ne_true)
  have hreach : Reach Store.diskStep (fun s a => s.compaction.isSome = true ∧ a.During inputs) s₁ s :=
    .of_guarded (reach_foldlM (fun b hb _ => hduring b (List.mem_append_left _ hb)) hbefore)
  have hlast : a ∈ before ++ [a] := List.mem_append_right _ (List.mem_singleton_self a)
  obtain ⟨hn, hc, hruns⟩ := job_carries hn₁ hruns₁ hlevels hlevel hreach hgoes
  have hends := runs_step hruns hlevels hlevel (hduring a hlast) hs
  refine ⟨s, a, hn, hc, hruns, hduring a hlast, hs, hends.resolve_left fun ⟨run, hrun, _⟩ => ?_, ?_⟩
  · rw [hended] at hrun
    contradiction
  · refine ⟨fun ⟨b, hb, hfails⟩ => ?_, fun hfails => ⟨a, hlast, hfails⟩⟩
    rcases List.mem_append.mp hb with hb | hb
    · obtain ⟨u, u', hu, hsome⟩ := hinside b hb
      rw [failsJob_ends hfails hu] at hsome
      contradiction
    · exact List.mem_singleton.mp hb ▸ hfails

/-- A job that finds damage in its inputs, in any run of the store from an opened directory on,
next to any steps of the flush thread, keeps the damaged inputs exactly if one of its other file
operations fails. `actions` are the steps from its pick to its end. -/
theorem damaged_inputs_kept_iff {db_dir : Bytes} {files : Files} {dir : SstDir} (target : ℕ)
    (hlisted : (startup db_dir files dir).vm.Listed) {s₀ s₁ s' : Store} {force : Bool}
    {ttl_map : TtlMap} {work : CompactionWork} (inputs : Bytes → InputFile) {actions : List DiskAction}
    (h₀ : Reach Store.diskStep (fun _ _ => True) ((startup db_dir files dir).store target) s₀)
    (hwork : s₀.pickCompactionWork force ttl_map = some work)
    (hpick : s₀.startCompaction force ttl_map = some s₁)
    (hduring : ∀ a ∈ actions, a.During inputs)
    (hjob : actions.foldlM (guarded Store.diskStep fun s _ => s.compaction.isSome = true) s₁ = some s')
    (hended : s'.compaction = none) :
    (∀ i ∈ work.job.inputs, (inputs i.file.file_name).Damaged → Keeps s₀ s' i) ↔
      (∀ i ∈ work.job.inputs, ¬ (inputs i.file.file_name).Damaged) ∨
        ∃ a ∈ actions, a.failsJob = true := by
  have hn₀ : Numbered s₀ := numbered_run (numbered_opened hlisted target) h₀
  have hlive₀ := pick_inputs hwork
  have hlevels : ∀ i ∈ work.job.inputs, ∃ l, levelIndex i.level = some l := fun i hi => by
    obtain ⟨l, hl, -⟩ := hlive₀ i hi
    exact ⟨l, hl⟩
  have hlevel := (pick_level hwork).2
  obtain ⟨hn₁, hc₁⟩ := hn₀.startCompaction hpick
  have hruns₁ : s₁.Runs work := by
    rw [Store.startCompaction, hwork] at hpick
    obtain rfl := Option.some.inj hpick
    exact ⟨⟨work, none, .empty⟩, rfl, rfl, fun records hrest => by contradiction⟩
  obtain ⟨s, a, hn, hc, ⟨run, hrun, hsame, hdeleted⟩, ha, hs, hends, hfails⟩ :=
    job_ends hn₁ hruns₁ hlevels hlevel hduring hjob hended
  have hc₀ := hc₁.trans hc
  rw [hfails]
  refine ⟨fun hkeeps => ?_, fun hok i hi hdamaged => ?_⟩
  · by_contra hbad
    obtain ⟨hsome, hnot⟩ := not_or.mp hbad
    obtain ⟨i, hi, hdamaged⟩ : ∃ i ∈ work.job.inputs, (inputs i.file.file_name).Damaged := by
      simpa using hsome
    obtain ⟨cleanup_obsolete, held, rfl⟩ := hends.2.resolve_left hnot
    rw [Store.diskStep, Store.step, hrun] at hs
    obtain ⟨l, hl, hf⟩ := (hkeeps i hi hdamaged).listed
    refine commit_unlists hn hrun hsame hdeleted (fun i hi => ?_) hs hi hl hf
    obtain ⟨l, hl, hf⟩ := hlive₀ i hi
    exact ⟨l, hl, hc₀.live l _ hf⟩
  · have hfailed := hok.resolve_left fun hnone => hnone i hi hdamaged
    have hcommit : ∀ cleanup_obsolete held, a ≠ .store (.commit cleanup_obsolete held) := by
      rintro cleanup_obsolete held rfl
      contradiction
    obtain ⟨l, hl, hf⟩ := hlive₀ i hi
    exact (hc₀.trans (hn.carries ha hcommit hs)).keeps hn₀ hl hf

theorem listed_empty : (startup (ascii "db") (fun _ => none) []).vm.Listed := by
  have hnone : ∀ l, (startup (ascii "db") (fun _ => none) []).vm.current.level_files l = [] := by
    decide +kernel
  refine ⟨fun l f hf => ?_, fun l f hf => ?_⟩
  all_goals
    rw [hnone l] at hf
    contradiction

/-- The steps of a job whose input does not open, up to its commit. -/
def toCommit : List DiskAction :=
  [.store (.read (recordReader fun _ => .unopened)), .store (.commit true [])]

/-- A flushed file whose compaction cannot open it. -/
def dropOne : Option (Store × CompactionWork × Store × Store) := do
  let s₀ ← [DiskAction.store (.build [(⟨ascii "a", 1⟩, ⟨ascii "v", .kValue⟩)]),
    .store .commitFlush].foldlM Store.diskStep ((startup (ascii "db") (fun _ => none) []).store 0)
  let work ← s₀.pickCompactionWork true fun _ => none
  let s₁ ← s₀.startCompaction true fun _ => none
  let s' ← toCommit.foldlM (guarded Store.diskStep fun s _ => s.compaction.isSome = true) s₁
  pure (s₀, work, s₁, s')

theorem during_toCommit : ∀ a ∈ toCommit, a.During fun _ => .unopened := by
  intro a ha
  rcases List.mem_cons.mp ha with rfl | ha
  · rfl
  · rw [List.mem_singleton.mp ha]
    trivial

theorem dropOne_spec : ∃ (s₀ : Store) (work : CompactionWork) (s₁ s' : Store),
    Reach Store.diskStep (fun _ _ => True) ((startup (ascii "db") (fun _ => none) []).store 0) s₀ ∧
      s₀.pickCompactionWork true (fun _ => none) = some work ∧
      s₀.startCompaction true (fun _ => none) = some s₁ ∧
      toCommit.foldlM (guarded Store.diskStep fun s _ => s.compaction.isSome = true) s₁ = some s' ∧
      s'.compaction = none ∧ work.job.inputs ≠ [] ∧
      getFromSSTables s₀.captureLevels ⟨ascii "a", 1⟩ = some ⟨ascii "v", .kValue⟩ ∧
      (∀ l, s'.vmgr.current.level_files l = []) ∧ s'.dir = [] := by
  have hrun : dropOne.map (fun r => (r.2.2.2.compaction.isNone,
      r.2.1.job.inputs.isEmpty, getFromSSTables r.1.captureLevels ⟨ascii "a", 1⟩,
      (List.finRange kMaxLevel).all fun l => (r.2.2.2.vmgr.current.level_files l).isEmpty,
      r.2.2.2.dir.isEmpty)) =
        some (true, false, some ⟨ascii "v", .kValue⟩, true, true) := by
    decide +kernel
  obtain ⟨⟨s₀, work, s₁, s'⟩, hr, hfacts⟩ := Option.map_eq_some_iff.mp hrun
  obtain ⟨hended, hsome, hfound, hgone, hdir⟩ := by simpa only [Prod.mk.injEq] using hfacts
  unfold dropOne at hr
  obtain ⟨t₀, h₀, hr⟩ := Option.bind_eq_some_iff.mp hr
  obtain ⟨w, hw, hr⟩ := Option.bind_eq_some_iff.mp hr
  obtain ⟨t₁, h₁, hr⟩ := Option.bind_eq_some_iff.mp hr
  obtain ⟨t', ht', hr⟩ := Option.bind_eq_some_iff.mp hr
  obtain ⟨rfl, rfl, rfl, rfl⟩ := by
    simpa only [Option.pure_def, Option.some.injEq, Prod.mk.injEq] using hr
  refine ⟨t₀, w, t₁, t', reach_foldlM (fun _ _ _ => trivial) h₀, hw, h₁, ht',
    Option.isNone_iff_eq_none.mp hended, fun hnil => ?_, hfound, fun l => ?_,
    List.isEmpty_iff.mp hdir⟩
  · exact Bool.false_ne_true (hsome.symm.trans (List.isEmpty_iff.mpr hnil))
  · exact List.isEmpty_iff.mp (List.all_eq_true.mp hgone l (List.mem_finRange l))

theorem damaged_inputs_kept_iff_dropOne : ∃ (s₀ : Store) (work : CompactionWork) (s' : Store),
    work.job.inputs ≠ [] ∧
      ((∀ i ∈ work.job.inputs, InputFile.unopened.Damaged → Keeps s₀ s' i) ↔
        (∀ i ∈ work.job.inputs, ¬ InputFile.unopened.Damaged) ∨ ∃ a ∈ toCommit, a.failsJob = true) := by
  obtain ⟨s₀, work, s₁, s', h₀, hwork, hpick, hjob, hended, hne, -⟩ := dropOne_spec
  exact ⟨s₀, work, s', hne, damaged_inputs_kept_iff 0 listed_empty (fun _ => .unopened) h₀ hwork hpick
    during_toCommit hjob hended⟩

/-- The commit goes through, the entry is lost and the file deleted. -/
theorem unopened_input_dropped : ∃ (s₀ : Store) (work : CompactionWork) (s₁ s' : Store),
    Reach Store.diskStep (fun _ _ => True) ((startup (ascii "db") (fun _ => none) []).store 0) s₀ ∧
      s₀.pickCompactionWork true (fun _ => none) = some work ∧
      s₀.startCompaction true (fun _ => none) = some s₁ ∧
      toCommit.foldlM (guarded Store.diskStep fun s _ => s.compaction.isSome = true) s₁ = some s' ∧
      s'.compaction = none ∧
      (∃ i ∈ work.job.inputs, InputFile.unopened.Damaged ∧ ¬ Keeps s₀ s' i) ∧ s'.dir = [] ∧
      s₀.Holds ⟨ascii "a", 1⟩ ⟨ascii "v", .kValue⟩ ∧ ∀ key entry, ¬ s'.Holds key entry := by
  obtain ⟨s₀, work, s₁, s', h₀, hwork, hpick, hjob, hended, hne, hfound, hgone, hdir⟩ := dropOne_spec
  have hheld : s₀.Holds ⟨ascii "a", 1⟩ ⟨ascii "v", .kValue⟩ := by
    obtain ⟨l, -, hl⟩ := List.exists_of_findSome?_eq_some hfound
    obtain ⟨ref, href, hentry⟩ := List.exists_of_findSome?_eq_some hl
    exact ⟨l, ref, List.mem_reverse.mp href, hentry⟩
  obtain ⟨i, hi⟩ := List.exists_mem_of_ne_nil _ hne
  refine ⟨s₀, work, s₁, s', h₀, hwork, hpick, hjob, hended, ⟨i, hi, trivial, fun hkeeps => ?_⟩, hdir,
    hheld, fun key entry hh => ?_⟩
  · obtain ⟨l, -, hf⟩ := hkeeps.listed
    rw [hgone l] at hf
    contradiction
  · obtain ⟨l, ref, href, -⟩ := hh
    rw [Store.captureLevels, hgone l] at href
    contradiction

end MiniTsdb
