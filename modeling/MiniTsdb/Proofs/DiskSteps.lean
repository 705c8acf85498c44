import MiniTsdb.Proofs.Registry

/-! The steps of the store, failed or not: the numbers they give out, and what all of them
but the commit of a compaction leave in place. -/

namespace MiniTsdb
open Lib

/-- No live file has the name of a file still to be committed or created. -/
structure Numbered (s : Store) : Prop where
  live : ∀ l, ∀ f ∈ s.vmgr.current.level_files l, s.Past f.file_name
  unpublished_lt : ∀ n ∈ s.unpublished, n < s.vmgr.next_file_number
  unpublished_nodup : s.unpublished.Nodup
  run : ∀ run, s.compaction = some run →
    run.result.new_files = (run.result.edit.added_files.map fun a => a.2.file_name) ∧
    ∀ a ∈ run.result.edit.added_files, a.2.file_name = s.vmgr.newFileName a.2.file_number

/-- Numbers are given out, and finished files committed or given up. -/
structure Onward (s s' : Store) : Prop where
  db_dir : s'.vmgr.db_dir = s.vmgr.db_dir
  next : s.vmgr.next_file_number ≤ s'.vmgr.next_file_number
  unpublished : ∀ n ∈ s'.unpublished, n ∈ s.unpublished ∨ s.vmgr.next_file_number ≤ n

/-- Every live file and every reader stays, and so does every file that is past. -/
structure Carries (s s' : Store) : Prop extends Onward s s' where
  live : ∀ l, ∀ f ∈ s.vmgr.current.level_files l, f ∈ s'.vmgr.current.level_files l
  readers : ∀ path r, findReader s.sst_readers path = some r →
    findReader s'.sst_readers path = some r
  dir : ∀ e ∈ s.dir, s.Past (joinPath s.vmgr.db_dir e.1) → e ∈ s'.dir

section
variable {s s' s'' : Store}

theorem Onward.path (h : Onward s s') (n : ℕ) : s'.vmgr.newFileName n = s.vmgr.newFileName n := by
  rw [VersionManager.newFileName, VersionManager.newFileName, h.db_dir]

theorem Onward.past (h : Onward s s') {path : Bytes} (hp : s.Past path) : s'.Past path := by
  intro n hn
  rw [h.path]
  refine hp n ?_
  rcases hn with hn | hn
  · exact h.unpublished n hn
  · exact Or.inr (h.next.trans hn)

theorem Numbered.issued (h : Numbered s) : Issued s.vmgr.next_file_number s.unpublished :=
  ⟨h.unpublished_lt, h.unpublished_nodup⟩

theorem Carries.refl (s : Store) : Carries s s :=
  ⟨⟨rfl, le_rfl, fun _ hn => Or.inl hn⟩, fun _ _ hf => hf, fun _ _ hr => hr, fun _ he _ => he⟩

theorem Carries.trans (h : Carries s s') (h' : Carries s' s'') : Carries s s'' := by
  refine ⟨⟨h'.db_dir.trans h.db_dir, h.next.trans h'.next, fun n hn => ?_⟩,
    fun l f hf => h'.live l f (h.live l f hf), fun path r hr => h'.readers path r (h.readers path r hr),
    fun e he hpast => h'.dir e (h.dir e he hpast) ?_⟩
  · rcases h'.unpublished n hn with hn | hn
    · exact h.unpublished n hn
    · exact Or.inr (h.next.trans hn)
  · rw [h.db_dir]
    exact h.past hpast

theorem Numbered.onward (h : Numbered s) (ho : Onward s s')
    (hlive : ∀ l, ∀ f ∈ s'.vmgr.current.level_files l, f ∈ s.vmgr.current.level_files l ∨
      ∃ n ∈ s.unpublished, n ∉ s'.unpublished ∧ f.file_name = s.vmgr.newFileName n)
    (hlt : ∀ n ∈ s'.unpublished, n < s'.vmgr.next_file_number) (hnodup : s'.unpublished.Nodup)
    (hrun : ∀ run, s'.compaction = some run →
      run.result.new_files = (run.result.edit.added_files.map fun a => a.2.file_name) ∧
      ∀ a ∈ run.result.edit.added_files, a.2.file_name = s.vmgr.newFileName a.2.file_number) :
    Numbered s' := by
  refine ⟨fun l f hf => ?_, hlt, hnodup, fun run hr => ?_⟩
  · rcases hlive l f hf with hf | ⟨n, hn, hnot, hname⟩
    · exact ho.past (h.live l f hf)
    · intro m hm heq
      rw [ho.path, hname] at heq
      obtain rfl := newFileName_injective _ heq
      rcases hm with hm | hm
      · exact hnot hm
      · exact absurd (h.unpublished_lt n hn) (not_lt.mpr (ho.next.trans hm))
  · refine ⟨(hrun run hr).1, fun a ha => ?_⟩
    rw [ho.path]
    exact (hrun run hr).2 a ha

/-- A step that leaves the version alone and finishes no file. -/
theorem Numbered.same (h : Numbered s) (hdb : s'.vmgr.db_dir = s.vmgr.db_dir)
    (hcurrent : s'.vmgr.current = s.vmgr.current)
    (hnext : s.vmgr.next_file_number ≤ s'.vmgr.next_file_number)
    (hsub : s'.unpublished.Sublist s.unpublished)
    (hrun : ∀ run, s'.compaction = some run → s.compaction = some run ∨
      run.result.edit.added_files = [] ∧ run.result.new_files = []) : Numbered s' := by
  have hissued := h.issued.sublist hsub hnext
  refine h.onward ⟨hdb, hnext, fun n hn => Or.inl (hsub.subset hn)⟩ (fun l f hf => ?_)
    hissued.lt hissued.nodup fun run hr => ?_
  · rw [hcurrent] at hf
    exact Or.inl hf
  · rcases hrun run hr with hr | ⟨hadded, hnew⟩
    · exact h.run run hr
    · rw [hadded, hnew]
      exact ⟨rfl, fun a ha => by contradiction⟩

theorem Carries.same (hdb : s'.vmgr.db_dir = s.vmgr.db_dir)
    (hcurrent : s'.vmgr.current = s.vmgr.current)
    (hnext : s.vmgr.next_file_number ≤ s'.vmgr.next_file_number)
    (hsub : s'.unpublished.Sublist s.unpublished)
    (hreaders : ∃ rs, s'.sst_readers = s.sst_readers ++ rs)
    (hdir : ∀ e ∈ s.dir, s.Past (joinPath s.vmgr.db_dir e.1) → e ∈ s'.dir) : Carries s s' := by
  refine ⟨⟨hdb, hnext, fun n hn => Or.inl (hsub.subset hn)⟩, fun l f hf => ?_, fun path r hr => ?_, hdir⟩
  · rw [hcurrent]
    exact hf
  · obtain ⟨rs, hrs⟩ := hreaders
    rw [hrs]
    exact findReader_append_of_some hr rs

theorem Store.Past.ne (n : ℕ) (hn : n ∈ s.unpublished ∨ s.vmgr.next_file_number ≤ n) {name : Bytes}
    (h : s.Past (joinPath s.vmgr.db_dir name)) : name ≠ sstName n := by
  intro heq
  refine h n hn ?_
  rw [heq]
  rfl

end

section
variable {s : Store} (h : Numbered s)
include h

theorem Numbered.manifest (name : Bytes) (files : Files) :
    Numbered { s with vmgr := { s.vmgr with manifest_name := name }, files := files } :=
  h.same rfl rfl le_rfl (List.Sublist.refl _) fun _ hr => Or.inl hr

theorem Numbered.counter : Numbered { s with vmgr := s.vmgr.newFileNumber.2 } :=
  h.same rfl rfl (Nat.le_succ s.vmgr.next_file_number) (List.Sublist.refl _) fun _ hr => Or.inl hr

omit h in
theorem carries_manifest (s : Store) (name : Bytes) (files : Files) :
    Carries s { s with vmgr := { s.vmgr with manifest_name := name }, files := files } :=
  .same rfl rfl le_rfl (List.Sublist.refl _) ⟨[], (List.append_nil _).symm⟩ fun _ he _ => he

omit h in
theorem carries_counter (s : Store) : Carries s { s with vmgr := s.vmgr.newFileNumber.2 } :=
  .same rfl rfl (Nat.le_succ s.vmgr.next_file_number) (List.Sublist.refl _)
    ⟨[], (List.append_nil _).symm⟩ fun _ he _ => he

theorem Numbered.withRun {run : Option CompactionRun} (progress : Bool) (files : List ℕ)
    (hrun : ∀ r, run = some r → r.Unwritten) :
    Numbered (s.withRun run progress files) ∧ Carries s (s.withRun run progress files) := by
  have hsub := unpublished_withRun s progress files hrun
  exact ⟨h.same rfl rfl le_rfl hsub fun r hr => Or.inr (hrun r hr),
    .same rfl rfl le_rfl hsub ⟨[], (List.append_nil _).symm⟩ fun _ he _ => he⟩

theorem Numbered.dropBuilt (readers : List TableReader) (dir : SstDir)
    (hdir : ∀ e ∈ s.dir, s.Past (joinPath s.vmgr.db_dir e.1) → e ∈ dir) :
    Numbered { s with built := none, sst_readers := s.sst_readers ++ readers, dir := dir } ∧
      Carries s { s with built := none, sst_readers := s.sst_readers ++ readers, dir := dir } := by
  have hsub : (Store.unpublished { s with
      built := none, sst_readers := s.sst_readers ++ readers, dir := dir }).Sublist s.unpublished :=
    List.sublist_append_right _ _
  exact ⟨h.same rfl rfl le_rfl hsub fun _ hr => Or.inl hr,
    .same rfl rfl le_rfl hsub ⟨readers, rfl⟩ hdir⟩

theorem Numbered.abort {run : CompactionRun} (hrun : s.compaction = some run) :
    Numbered (s.abortCompaction run) ∧ Carries s (s.abortCompaction run) := by
  have hsub : (s.abortCompaction run).unpublished.Sublist s.unpublished :=
    List.Sublist.append (List.Sublist.refl _) (List.nil_sublist _)
  refine ⟨h.same rfl rfl le_rfl hsub fun r hr => by contradiction,
    .same rfl rfl le_rfl hsub ⟨[], (List.append_nil _).symm⟩ fun e he hpast => ?_⟩
  refine mem_foldl_removeTable he fun hm => ?_
  rw [(h.run run hrun).1] at hm
  obtain ⟨a, ha, heq⟩ := List.mem_map.mp hm
  have hnumber : a.2.file_number ∈ s.unpublished :=
    mem_unpublished_run hrun (List.mem_map.mpr ⟨a, ha, rfl⟩)
  exact hpast _ (Or.inl hnumber) (heq.symm.trans ((h.run run hrun).2 a ha))

theorem Numbered.write {s' : Store} {t : SSTable} (hvm : s'.vmgr = s.vmgr.newFileNumber.2)
    (hdir : s'.dir = writeTable s.dir (sstName s.vmgr.next_file_number) t)
    (hreaders : s'.sst_readers = s.sst_readers)
    (hunp : s'.unpublished.Perm (s.vmgr.next_file_number :: s.unpublished))
    (hrun : ∀ run, s'.compaction = some run →
      run.result.new_files = (run.result.edit.added_files.map fun a => a.2.file_name) ∧
      ∀ a ∈ run.result.edit.added_files, a.2.file_name = s.vmgr.newFileName a.2.file_number) :
    Numbered s' ∧ Carries s s' := by
  have hnext : s'.vmgr.next_file_number = s.vmgr.next_file_number + 1 := by
    rw [hvm]
    rfl
  have hcurrent : s'.vmgr.current = s.vmgr.current := by
    rw [hvm]
    rfl
  have honward : Onward s s' := by
    refine ⟨by rw [hvm]; rfl, by rw [hnext]; exact Nat.le_succ _, fun n hn => ?_⟩
    rcases List.mem_cons.mp (hunp.subset hn) with rfl | hn
    · exact Or.inr le_rfl
    · exact Or.inl hn
  have hissued : Issued s'.vmgr.next_file_number s'.unpublished := by
    rw [hnext]
    exact h.issued.issue hunp
  refine ⟨h.onward honward (fun l f hf => ?_) hissued.lt hissued.nodup hrun,
    honward, fun l f hf => ?_, fun path r hr => ?_, fun e he hpast => ?_⟩
  · rw [hcurrent] at hf
    exact Or.inl hf
  · rw [hcurrent]
    exact hf
  · rw [hreaders]
    exact hr
  · rw [hdir]
    refine List.mem_append_left _ (List.mem_filter.mpr ⟨he, ?_⟩)
    simpa using hpast.ne s.vmgr.next_file_number (Or.inr le_rfl)

theorem Numbered.buildFlush {s' : Store} {entries : List (TsKey × InternalEntry)}
    (hs : s.buildFlush entries = some s') : Numbered s' ∧ Carries s s' := by
  obtain ⟨hnone, t, ht, rfl⟩ := buildFlush_eq hs
  exact h.write (t := t) rfl rfl rfl (List.Perm.of_eq (afterBuild_unpublished hnone t)) h.run

theorem Numbered.writeOutput {s' : Store} {run : CompactionRun} (hrun : s.compaction = some run)
    (hs : s.writeOutput run = some s') : Numbered s' ∧ Carries s s' := by
  obtain ⟨hnew, hpath⟩ := h.run run hrun
  obtain ⟨records, t, -, -, -, rfl⟩ := writeOutput_eq hs
  refine h.write (t := t) rfl rfl rfl (afterOutput_unpublished hrun records t) fun run' hrun' => ?_
  obtain rfl := Option.some.inj hrun'
  refine ⟨?_, fun a ha => ?_⟩
  · change run.result.new_files ++ [_] = (run.result.edit.added_files ++ [_]).map _
    rw [hnew, List.map_append]
    rfl
  · rcases List.mem_append.mp ha with ha | ha
    · exact hpath a ha
    · rw [List.mem_singleton.mp ha]
      rfl

/-- Files that were not committed yet go to the version. -/
theorem Numbered.publish {s' : Store} (edit : VersionEdit) (hvm : s'.vmgr = s.vmgr.applyUnlocked edit)
    (hunp : s.unpublished.Perm (edit.addedNumbers ++ s'.unpublished))
    (hadd : ∀ a ∈ edit.added_files, a.2.file_name = s.vmgr.newFileName a.2.file_number)
    (hrun : ∀ run, s'.compaction = some run → s.compaction = some run) :
    Numbered s' ∧ Onward s s' := by
  obtain ⟨hnext, hissued, hsub, hfrom⟩ := handsIn h.issued hvm hunp
  have honward : Onward s s' :=
    ⟨by rw [hvm, applyUnlocked_db_dir], hnext.ge, fun n hn => Or.inl (hsub n hn)⟩
  refine ⟨h.onward honward (fun l f hf => ?_) hissued.lt hissued.nodup
    fun run hr => h.run run (hrun run hr), honward⟩
  rw [hvm] at hf
  rcases live_of_applyUnlocked hf with hf | ⟨a, ha, rfl⟩
  · exact Or.inl hf
  · exact Or.inr ⟨_, (hfrom a ha).1, (hfrom a ha).2, hadd a ha⟩

theorem Numbered.commitFlush {s' : Store} (hs : s.commitFlush = some s') :
    Numbered s' ∧ Carries s s' := by
  unfold Store.commitFlush at hs
  split at hs
  · contradiction
  · rename_i n t hb
    obtain rfl := Option.some.inj hs
    have hm := h.manifest s.vmgr.manifestPath
      (s.vmgr.logAndApply s.files (flushEdit (s.flushFile n t))).2
    have hunp : s.unpublished = (flushEdit (s.flushFile n t)).addedNumbers ++
        ([] ++ ((s.compaction.map fun run => run.result.edit.addedNumbers).getD [])) := by
      rw [Store.unpublished, hb]
      rfl
    obtain ⟨hnumbered, honward⟩ := hm.publish (flushEdit (s.flushFile n t))
      (show Store.vmgr { s.logAndApply (flushEdit (s.flushFile n t)) with
        sst_readers := s.sst_readers ++ [⟨(s.flushFile n t).file_name, t⟩]
        built := none
        flushed := t.entries :: s.flushed } = _ from rfl) (List.Perm.of_eq hunp)
      (fun a ha => by rw [List.mem_singleton.mp ha]; rfl) fun run hrun => hrun
    refine ⟨hnumbered, ⟨honward.db_dir, honward.next, honward.unpublished⟩, fun l f hf => ?_,
      fun path r hr => findReader_append_of_some hr _, fun e he _ => he⟩
    exact mem_applyUnlocked.mpr (Or.inl ⟨hf, rfl⟩)

theorem Numbered.cleanup (held : List Bytes) : Numbered (s.cleanupObsoleteFiles held) := by
  have hc := cleaned s held
  have hunp : (s.cleanupObsoleteFiles held).unpublished = s.unpublished := by
    rw [Store.unpublished, Store.unpublished, hc.built, hc.compaction]
  refine h.same ?_ ?_ ?_ (hunp ▸ List.Sublist.refl _) fun run hr => Or.inl (hc.compaction ▸ hr)
  · rw [hc.vmgr]
  · rw [hc.vmgr]
  · rw [hc.vmgr]

theorem Numbered.commitCompaction {s' : Store} {run : CompactionRun} {cleanup_obsolete : Bool}
    {held : List Bytes} (hrun : s.compaction = some run)
    (hs : s.commitCompaction run cleanup_obsolete held = some s') : Numbered s' := by
  have hm := h.manifest s.vmgr.manifestPath (s.vmgr.logAndApply s.files run.result.edit).2
  have hpublished : Numbered (s.publishRun run) := by
    refine (hm.publish run.result.edit rfl ?_ (h.run run hrun).2 fun _ hr => by contradiction).1
    exact unpublished_publishRun hrun
  obtain ⟨-, ⟨-, rfl⟩ | ⟨-, rfl⟩⟩ := commitCompaction_cases hs
  · split_ifs
    · exact hpublished.cleanup held
    · exact hpublished
  · exact (h.abort hrun).1

theorem Numbered.startCompaction {s' : Store} {force : Bool} {ttl_map : TtlMap}
    (hs : s.startCompaction force ttl_map = some s') : Numbered s' ∧ Carries s s' := by
  obtain ⟨run, progress, files, hrun, rfl⟩ := startCompaction_withRun hs
  exact h.withRun progress files hrun

theorem Numbered.readInputs {s' : Store} {run : CompactionRun} {reader : Bytes → List Record}
    (hs : s.readInputs run reader = some s') : Numbered s' ∧ Carries s s' := by
  obtain ⟨run', progress, files, hrun, rfl⟩ := readInputs_withRun hs
  exact h.withRun progress files hrun

theorem Numbered.fails {s' : Store} {a : DiskAction} (hs : FailStep s a s') :
    Numbered s' ∧ Carries s s' := by
  cases hs with
  | finish hbuilt => exact ⟨h.counter, carries_counter s⟩
  | @openTable n t readable hbuilt =>
    have hdrop := h.dropBuilt [] ((s.dir.filter fun e => e.1 != sstName n) ++
        [(sstName n, if readable then some t else none)]) fun e he hpast => by
      refine List.mem_append_left _ (List.mem_filter.mpr ⟨he, ?_⟩)
      simpa using hpast.ne n (Or.inl (mem_unpublished_built hbuilt))
    rw [List.append_nil] at hdrop
    exact hdrop
  | @logFlush n t failure hbuilt =>
    obtain ⟨hnumbered, hcarries⟩ := (h.manifest s.vmgr.manifestPath
      (failure.files s.vmgr s.files (editText (flushEdit (s.flushFile n t)) s.vmgr.next_file_number))).dropBuilt
        [⟨s.vmgr.newFileName n, t⟩] s.dir fun _ he _ => he
    exact ⟨hnumbered, (carries_manifest s _ _).trans hcarries⟩
  | run hrun hrest =>
    obtain ⟨hnumbered, hcarries⟩ := h.counter.abort hrun
    exact ⟨hnumbered, (carries_counter s).trans hcarries⟩
  | @commit run failure hrun hrest hvalid =>
    obtain ⟨hnumbered, hcarries⟩ := (h.manifest s.vmgr.manifestPath
      (failure.files s.vmgr s.files (editText run.result.edit s.vmgr.next_file_number))).abort hrun
    exact ⟨hnumbered, (carries_manifest s _ _).trans hcarries⟩

theorem Numbered.step {s' : Store} {a : DiskAction} (hs : s.diskStep a = some s') : Numbered s' := by
  cases a with
  | finishError | openError | logFlushError | runError | commitError =>
    exact (h.fails (fail_step (fun b hb => by contradiction) hs)).1
  | store a =>
    cases a with
    | build entries => exact (h.buildFlush hs).1
    | commitFlush => exact (h.commitFlush hs).1
    | pick force ttl_map => exact (h.startCompaction hs).1
    | skip force ttl_map held =>
      rw [(skipCompaction_eq hs).2.2]
      exact h.same rfl rfl le_rfl (List.Sublist.refl _) fun _ hr => Or.inl hr
    | read reader =>
      obtain ⟨run, -, hread⟩ := Option.bind_eq_some_iff.mp hs
      exact (h.readInputs hread).1
    | output =>
      obtain ⟨run, hrun, hwrite⟩ := Option.bind_eq_some_iff.mp hs
      exact (h.writeOutput hrun hwrite).1
    | commit cleanup_obsolete held =>
      obtain ⟨run, hrun, hcommit⟩ := Option.bind_eq_some_iff.mp hs
      exact h.commitCompaction hrun hcommit
    | cleanup held =>
      rw [← Option.some.inj hs]
      exact h.cleanup held
    | shutdown held =>
      rw [← Option.some.inj hs]
      exact (h.cleanup held).manifest _ _

/-- Next to a compaction, nothing but its commit takes a file away. -/
theorem Numbered.carries {s' : Store} {a : DiskAction} {inputs : Bytes → InputFile}
    (hduring : a.During inputs) (hcommit : ∀ cleanup_obsolete held, a ≠ .store (.commit cleanup_obsolete held))
    (hs : s.diskStep a = some s') : Carries s s' := by
  cases a with
  | finishError | openError | logFlushError | runError | commitError =>
    exact (h.fails (fail_step (fun b hb => by contradiction) hs)).2
  | store a =>
    cases a with
    | build entries => exact (h.buildFlush hs).2
    | commitFlush => exact (h.commitFlush hs).2
    | read reader =>
      obtain ⟨run, -, hread⟩ := Option.bind_eq_some_iff.mp hs
      exact (h.readInputs hread).2
    | output =>
      obtain ⟨run, hrun, hwrite⟩ := Option.bind_eq_some_iff.mp hs
      exact (h.writeOutput hrun hwrite).2
    | commit cleanup_obsolete held => exact absurd rfl (hcommit cleanup_obsolete held)
    | pick | skip | cleanup | shutdown => exact hduring.elim

end

theorem pick_inputs {s : Store} {force : Bool} {ttl_map : TtlMap} {work : CompactionWork}
    (hp : s.pickCompactionWork force ttl_map = some work) :
    ∀ i ∈ work.job.inputs, ∃ l, levelIndex i.level = some l ∧ i.file ∈ s.vmgr.current.level_files l := by
  have hlevel : s.pickLevel ttl_map = some work → ∀ i ∈ work.job.inputs,
      ∃ l, levelIndex i.level = some l ∧ i.file ∈ s.vmgr.current.level_files l := by
    intro hpick i hi
    obtain ⟨level, -, hsome⟩ := List.exists_of_findSome?_eq_some hpick
    dsimp only at hsome
    split_ifs at hsome
    obtain rfl := Option.some.inj hsome
    obtain ⟨f, hf, rfl⟩ := List.mem_map.mp hi
    exact ⟨level, levelIndex_val level, hf⟩
  unfold Store.pickCompactionWork at hp
  split_ifs at hp
  dsimp only at hp
  split at hp
  · exact hlevel hp
  · rename_i front others hl0
    split_ifs at hp
    · obtain rfl := Option.some.inj hp
      intro i hi
      rcases List.mem_append.mp hi with hi | hi
      · obtain ⟨f, hf, rfl⟩ := List.mem_map.mp hi
        exact ⟨1, rfl, List.mem_of_mem_filter hf⟩
      · obtain ⟨f, hf, rfl⟩ := List.mem_map.mp hi
        exact ⟨0, rfl, List.mem_of_mem_filter hf⟩
    · exact hlevel hp

end MiniTsdb
