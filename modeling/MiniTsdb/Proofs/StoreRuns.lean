import MiniTsdb.Lib.Runs
import MiniTsdb.Proofs.StoreSteps
import MiniTsdb.Spec.DamagedInputs

/-! The SSTable side as a machine: cleanup, commits, what each step keeps of the invariant
and what it does to the versions that a search meets, and the empty store. -/

namespace MiniTsdb
open Lib

variable {scanned : TsKey → Bool}

theorem findReader_eraseP {rs : List TableReader} {fname path : Bytes} (h : path ≠ fname) :
    findReader (rs.eraseP fun r => r.file_name == fname) path = findReader rs path := by
  induction rs with
  | nil => rfl
  | cons r rs ih =>
    rw [List.eraseP_cons]
    cases hr : r.file_name == fname with
    | true =>
      have hne : (r.file_name == path) = false := by
        rw [beq_iff_eq.mp hr]
        simpa using fun he : fname = path => h he.symm
      simp [findReader, hne]
    | false =>
      simp only [findReader, List.find?_cons] at ih ⊢
      rw [cond_false, List.find?_cons, ih]

/-- Retiring files drops their readers and notes their names. -/
theorem retireFiles_spec (names : List Bytes) (s : Store) :
    (names.foldl Store.retireFile s = { s with
        sst_readers := (names.foldl Store.retireFile s).sst_readers
        pending_delete := (names.foldl Store.retireFile s).pending_delete }) ∧
      (∀ path, path ∉ names →
        findReader (names.foldl Store.retireFile s).sst_readers path = findReader s.sst_readers path) ∧
      (∀ r ∈ (names.foldl Store.retireFile s).sst_readers, r ∈ s.sst_readers) ∧
      (names.foldl Store.retireFile s).pending_delete.map PendingDelete.file_name =
        s.pending_delete.map PendingDelete.file_name ++ names := by
  induction names generalizing s with
  | nil => exact ⟨rfl, fun _ _ => rfl, fun _ hr => hr, (List.append_nil _).symm⟩
  | cons name names ih =>
    obtain ⟨heq, hfind, hsub, hnames⟩ := ih (s.retireFile name)
    rw [List.foldl_cons]
    refine ⟨?_, fun path hpath => ?_, fun r hr => ?_, ?_⟩
    · rw [heq]
      rfl
    · rw [hfind path fun hm => hpath (List.mem_cons_of_mem _ hm)]
      exact findReader_eraseP fun he => hpath (he ▸ List.mem_cons_self)
    · exact List.mem_of_mem_eraseP (hsub r hr)
    · rw [hnames, Store.retireFile, List.map_append, List.append_assoc]
      rfl

/-- The version stays with its readers and its files; what was in the making stays as it is,
or is given up. -/
structure Preserves (s s' : Store) : Prop where
  name_eq : s'.vmgr.manifest_name = s.vmgr.manifest_name
  db_dir : s'.vmgr.db_dir = s.vmgr.db_dir
  current : s'.vmgr.current = s.vmgr.current
  next : s.vmgr.next_file_number ≤ s'.vmgr.next_file_number
  find : ∀ l, ∀ f ∈ s.vmgr.current.level_files l,
    findReader s'.sst_readers f.file_name = findReader s.sst_readers f.file_name
  disk : ∀ l, ∀ f ∈ s.vmgr.current.level_files l,
    openTable s.vmgr.db_dir s'.dir f.file_name = openTable s.vmgr.db_dir s.dir f.file_name
  readers : ∀ r ∈ s'.sst_readers, r ∈ s.sst_readers ∨
    ∃ n ∈ s.unpublished, n ∉ s'.unpublished ∧ r.file_name = s.vmgr.newFileName n
  retired : ∀ name ∈ s'.vmgr.obsolete_files ++ s'.pending_delete.map PendingDelete.file_name,
    name ∈ s.vmgr.obsolete_files ++ s.pending_delete.map PendingDelete.file_name
  unpublished : s'.unpublished.Sublist s.unpublished
  waiting : ∀ n ∈ s'.unpublished, openTable s.vmgr.db_dir s'.dir (s.vmgr.newFileName n) =
    openTable s.vmgr.db_dir s.dir (s.vmgr.newFileName n)
  built : ∀ b, s'.built = some b → s.built = some b
  run : s'.compaction = s.compaction ∧ s'.compaction_in_progress = s.compaction_in_progress ∧
      s'.compacting_files = s.compacting_files ∨
    s'.compaction = none ∧ s'.compaction_in_progress = false ∧ s'.compacting_files = []

section
variable {s s' : Store} (h : StoreInv scanned s) (hp : Preserves s s')
include h hp

theorem storeInv_preserves : StoreInv scanned s' := by
  have hpath : ∀ n, s'.vmgr.newFileName n = s.vmgr.newFileName n := fun n => by
    rw [VersionManager.newFileName, VersionManager.newFileName, hp.db_dir]
  have hsettled : ∀ n, s.Settled n → s'.Settled n := fun n hn =>
    ⟨hn.1.trans_le hp.next, fun hm => hn.2 (hp.unpublished.subset hm)⟩
  have htab : ∀ l, ∀ f ∈ s.vmgr.current.level_files l, s'.tableAt f = s.tableAt f :=
    fun l f hf => tableAt_congr (hp.find l f hf)
  refine ⟨?_, hp.current ▸ h.ordered, ?_, ?_, hp.current ▸ h.one_level, ?_, ?_, ?_, ?_, ?_,
    h.unpublished_nodup.sublist hp.unpublished, ?_, ?_, ?_, ?_⟩
  · rw [hp.name_eq, hp.db_dir]
    exact h.name_eq
  · intro l f hf
    rw [hp.current] at hf
    exact (h.below l f hf).trans_le hp.next
  · intro l f hf
    rw [hp.current] at hf
    exact (h.live l f hf).congr hp.db_dir (hp.find l f hf) (hp.disk l f hf)
  · intro key
    rw [hp.current, versionsIn_congr (htab 1)]
    exact h.level_one key
  · intro r hr
    rcases hp.readers r hr with hr | ⟨n, hn, hgone, hname⟩
    · obtain ⟨n, hn, hname⟩ := h.readers r hr
      exact ⟨n, hsettled n hn, hname.trans (hpath n).symm⟩
    · exact ⟨n, ⟨(h.unpublished_lt n hn).trans_le hp.next, hgone⟩, hname.trans (hpath n).symm⟩
  · intro name hname
    obtain ⟨n, hn, hfree, heq⟩ := h.retired name (hp.retired name hname)
    exact ⟨n, hsettled n hn, hp.current ▸ hfree, heq.trans (hpath n).symm⟩
  · intro n hn
    exact (h.unpublished_lt n (hp.unpublished.subset hn)).trans_le hp.next
  · intro n hn l f hf
    rw [hp.current] at hf
    exact h.unpublished_new n (hp.unpublished.subset hn) l f hf
  · intro n t hbuilt
    obtain ⟨hopen, hasc, hzero⟩ := h.built n t (hp.built _ hbuilt)
    refine ⟨?_, hasc, hp.current ▸ hzero⟩
    rw [hp.db_dir, hpath, hp.waiting n (mem_unpublished_built hbuilt)]
    exact hopen
  · rcases hp.run with ⟨hsame, hprogress, -⟩ | ⟨hnone, hprogress, -⟩
    · rw [hsame, hprogress]
      exact h.in_progress
    · rw [hnone, hprogress]
      rfl
  · rcases hp.run with ⟨hsame, -, hfiles⟩ | ⟨hnone, -, hfiles⟩
    · rw [hsame, hfiles]
      exact h.compacting
    · rw [hnone, hfiles]
      rfl
  · intro run hrun
    rcases hp.run with ⟨hsame, -, -⟩ | ⟨hnone, -, -⟩
    · refine (h.run run (hsame ▸ hrun)).congr hp.db_dir (fun l _ => by rw [hp.current]) (m := [])
        (by rw [hp.current, List.append_nil]) htab fun n hn => ?_
      exact hp.waiting n (mem_unpublished_run hrun hn)
    · rw [hnone] at hrun
      contradiction

omit h in
theorem met_preserves (key : TsKey) : s'.met key = s.met key := by
  rw [Store.met, Store.met, hp.current]
  exact List.flatMap_congr fun l _ => versionsIn_congr (fun f hf => tableAt_congr (hp.find l f hf)) key

end

/-- What cleanup changes: readers and files under retired names only. -/
structure Cleaned (s s' : Store) : Prop where
  vmgr : s'.vmgr = { s.vmgr with obsolete_files := s'.vmgr.obsolete_files }
  obsolete : s'.vmgr.obsolete_files ⊆ s.vmgr.obsolete_files
  built : s'.built = s.built
  compaction : s'.compaction = s.compaction
  in_progress : s'.compaction_in_progress = s.compaction_in_progress
  compacting : s'.compacting_files = s.compacting_files
  flushed : s'.flushed = s.flushed
  files : s'.files = s.files
  find : ∀ path, path ∉ s.vmgr.obsolete_files → findReader s'.sst_readers path = findReader s.sst_readers path
  readers : ∀ r ∈ s'.sst_readers, r ∈ s.sst_readers
  dir : s'.dir.Sublist s.dir
  disk : ∀ path, path ∉ s.vmgr.obsolete_files ++ s.pending_delete.map PendingDelete.file_name →
    openTable s.vmgr.db_dir s'.dir path = openTable s.vmgr.db_dir s.dir path
  pending : ∀ name ∈ s'.pending_delete.map PendingDelete.file_name,
    name ∈ s.vmgr.obsolete_files ++ s.pending_delete.map PendingDelete.file_name

theorem foldl_removeTable_sublist (db_dir : Bytes) (paths : List Bytes) (dir : SstDir) :
    (paths.foldl (removeTable db_dir) dir).Sublist dir := by
  induction paths generalizing dir with
  | nil => exact List.Sublist.refl _
  | cons path paths ih => exact (ih _).trans List.filter_sublist

theorem cleaned_tryDelete (s : Store) (held : List Bytes) :
    Cleaned s (s.tryDeletePendingFiles held) := by
  have hsub : ∀ p : PendingDelete → Bool,
      ∀ name ∈ (s.pending_delete.filter p).map PendingDelete.file_name,
        name ∈ s.pending_delete.map PendingDelete.file_name :=
    fun p name hname => (List.filter_sublist.map _).subset hname
  refine ⟨rfl, List.Subset.refl _, rfl, rfl, rfl, rfl, rfl, rfl, fun _ _ => rfl, fun _ hr => hr, ?_,
    fun path hpath => ?_, fun name hname => List.mem_append_right _ (hsub _ name hname)⟩
  · rw [Store.tryDeletePendingFiles, ← List.foldl_map (f := PendingDelete.file_name)
      (g := removeTable s.vmgr.db_dir)]
    exact foldl_removeTable_sublist _ _ _
  · rw [Store.tryDeletePendingFiles, ← List.foldl_map (f := PendingDelete.file_name)
      (g := removeTable s.vmgr.db_dir)]
    apply openTable_foldl_removeTable
    exact fun hm => hpath (List.mem_append_right _ (hsub _ path hm))

theorem cleaned (s : Store) (held : List Bytes) : Cleaned s (s.cleanupObsoleteFiles held) := by
  obtain ⟨heq, hfind, hsub, hnames⟩ := retireFiles_spec s.vmgr.obsolete_files
    { s with vmgr := { s.vmgr with obsolete_files := [] } }
  unfold Store.cleanupObsoleteFiles VersionManager.consumeObsoleteFiles
  dsimp only
  set t := s.vmgr.obsolete_files.foldl Store.retireFile
    { s with vmgr := { s.vmgr with obsolete_files := [] } }
  have hvm : t.vmgr = { s.vmgr with obsolete_files := [] } := by rw [heq]
  have hdir : t.dir = s.dir := by rw [heq]
  have hretired : ∀ path ∈ t.vmgr.obsolete_files ++ t.pending_delete.map PendingDelete.file_name,
      path ∈ s.vmgr.obsolete_files ++ s.pending_delete.map PendingDelete.file_name := by
    intro path hm
    rw [hvm, hnames] at hm
    exact List.perm_append_comm.subset hm
  have hc := cleaned_tryDelete t held
  refine ⟨?_, ?_, ?_, ?_, ?_, ?_, ?_, ?_, ?_, ?_, ?_, fun path hpath => ?_, fun name hname => ?_⟩
  · rw [hc.vmgr, hvm]
  · change t.vmgr.obsolete_files ⊆ _
    rw [hvm]
    exact List.nil_subset _
  · rw [hc.built, heq]
  · rw [hc.compaction, heq]
  · rw [hc.in_progress, heq]
  · rw [hc.compacting, heq]
  · rw [hc.flushed, heq]
  · rw [hc.files, heq]
  · exact hfind
  · exact hsub
  · exact hdir ▸ hc.dir
  · have hdisk := hc.disk path fun hm => hpath (hretired path hm)
    rw [hvm, hdir] at hdisk
    exact hdisk
  · exact hretired name (hc.pending name hname)

section
variable {s s' : Store} (h : StoreInv scanned s) (hc : Cleaned s s')
include h hc

omit hc in
theorem live_not_retired {l : Fin kMaxLevel} {f : FileMeta}
    (hf : f ∈ s.vmgr.current.level_files l) :
    f.file_name ∉ s.vmgr.obsolete_files ++ s.pending_delete.map PendingDelete.file_name := by
  intro hm
  obtain ⟨n, -, hgone, heq⟩ := h.retired _ hm
  rw [(h.live l f hf).path] at heq
  exact hgone l f hf (newFileName_injective _ heq)

omit hc in
theorem unpublished_not_retired {n : ℕ} (hn : n ∈ s.unpublished) :
    s.vmgr.newFileName n ∉ s.vmgr.obsolete_files ++ s.pending_delete.map PendingDelete.file_name := by
  intro hm
  obtain ⟨m, hm, -, heq⟩ := h.retired _ hm
  exact hm.2 (newFileName_injective _ heq ▸ hn)

/-- No live file and none in the making has a retired name. -/
theorem Cleaned.preserves : Preserves s s' := by
  have hunp : s'.unpublished = s.unpublished := by
    rw [Store.unpublished, Store.unpublished, hc.built, hc.compaction]
  refine ⟨by rw [hc.vmgr], by rw [hc.vmgr], by rw [hc.vmgr], by rw [hc.vmgr], fun l f hf => ?_,
    fun l f hf => hc.disk _ (live_not_retired h hf), fun r hr => Or.inl (hc.readers r hr),
    fun name hname => ?_, hunp ▸ List.Sublist.refl _, fun n hn => ?_, fun b hb => hc.built ▸ hb,
    Or.inl ⟨hc.compaction, hc.in_progress, hc.compacting⟩⟩
  · exact hc.find _ fun hm => live_not_retired h hf (List.mem_append_left _ hm)
  · rcases List.mem_append.mp hname with hname | hname
    · exact List.mem_append_left _ (hc.obsolete hname)
    · exact hc.pending name hname
  · exact hc.disk _ (unpublished_not_retired h (hunp ▸ hn))

theorem storeInv_cleaned : StoreInv scanned s' := storeInv_preserves h (hc.preserves h)

theorem met_cleaned (key : TsKey) : s'.met key = s.met key := met_preserves (hc.preserves h) key

end

theorem storeInv_files {s : Store} (h : StoreInv scanned s) (files : Files) :
    StoreInv scanned { s with files := files } :=
  h.change_run rfl rfl rfl rfl rfl rfl h.in_progress h.compacting fun run hrun =>
    (h.run run hrun).congr rfl (fun _ _ => rfl) (m := []) (List.append_nil _).symm (fun _ _ _ => rfl)
      fun _ _ => rfl

/-- The end of `Close` cleans up and writes the manifest anew. -/
theorem shutdown_eq {s : Store} (h : StoreInv scanned s) (held : List Bytes) :
    s.shutdown held = { s.cleanupObsoleteFiles held with
      files := ((s.cleanupObsoleteFiles held).vmgr.writeSnapshotManifest s.files).2 } := by
  have hc := cleaned s held
  have hvm := writeSnapshotManifest_vm (storeInv_cleaned h hc).name_eq s.files
  unfold Store.shutdown
  dsimp only
  rw [hc.files, hvm]

theorem finish_cleanup (s : Store) (held : List Bytes) (job : CompactionJob) :
    (s.cleanupObsoleteFiles held).finishCompaction job =
      (s.finishCompaction job).cleanupObsoleteFiles held := by
  have hfold : ∀ (names : List Bytes) (s : Store),
      (names.foldl Store.retireFile s).finishCompaction job =
        names.foldl Store.retireFile (s.finishCompaction job) := by
    intro names
    induction names with
    | nil => exact fun _ => rfl
    | cons name names ih => exact fun s => ih (s.retireFile name)
  unfold Store.cleanupObsoleteFiles VersionManager.consumeObsoleteFiles
  dsimp only
  have hold := hfold s.vmgr.obsolete_files { s with vmgr := { s.vmgr with obsolete_files := [] } }
  change Store.tryDeletePendingFiles (Store.finishCompaction _ job) held = _
  rw [hold]
  rfl

/-- The edit of a run is in the version, its readers are in the engine, and the run is over. -/
def Store.publishRun (s : Store) (run : CompactionRun) : Store :=
  Store.finishCompaction { s.logAndApply run.result.edit with
    sst_readers := s.sst_readers ++ run.result.new_readers } run.work.job

theorem unpublished_publishRun {s : Store} {run : CompactionRun} (hrun : s.compaction = some run) :
    s.unpublished.Perm (run.result.edit.addedNumbers ++ (s.publishRun run).unpublished) := by
  rw [Store.unpublished, hrun]
  refine List.perm_append_comm.trans (List.Perm.append_left _ (List.Perm.of_eq ?_))
  exact (List.append_nil _).symm

/-- A commit ends in the run published, with or without a cleanup, or given up. -/
theorem commitCompaction_cases {s s' : Store} {run : CompactionRun} {cleanup_obsolete : Bool}
    {held : List Bytes} (hs : s.commitCompaction run cleanup_obsolete held = some s') :
    run.rest = some [] ∧ (s.isCompactionInputValid run.work.job = true ∧
        s' = (if cleanup_obsolete then (s.publishRun run).cleanupObsoleteFiles held
          else s.publishRun run) ∨
      s.isCompactionInputValid run.work.job = false ∧ s' = s.abortCompaction run) := by
  unfold Store.commitCompaction at hs
  split at hs
  · rename_i hrest
    refine ⟨hrest, ?_⟩
    dsimp only at hs
    split_ifs at hs with hvalid hcleanup
    · rw [← Option.some.inj hs, finish_cleanup, if_pos hcleanup]
      exact Or.inl ⟨hvalid, rfl⟩
    · rw [if_neg hcleanup]
      exact Or.inl ⟨hvalid, (Option.some.inj hs).symm⟩
    · exact Or.inr ⟨by simpa using hvalid, (Option.some.inj hs).symm⟩
  · contradiction

/-- A commit finds its inputs in place. -/
theorem commitCompaction_eq {s s' : Store} {run : CompactionRun} {cleanup_obsolete : Bool}
    {held : List Bytes} (h : StoreInv scanned s) (hrun : s.compaction = some run)
    (hs : s.commitCompaction run cleanup_obsolete held = some s') :
    run.rest = some [] ∧ s.isCompactionInputValid run.work.job = true ∧
      s' = if cleanup_obsolete then (s.afterCompaction run).cleanupObsoleteFiles held
        else s.afterCompaction run := by
  obtain ⟨u, v, p, upper, newer, hshape, -⟩ := h.run run hrun
  have hvalid : s.isCompactionInputValid run.work.job = true := by
    rw [Store.isCompactionInputValid, List.all_eq_true]
    intro input hi
    obtain ⟨l, hl, hf⟩ := hshape.mem_input hi
    rw [hl, levelIndex_val]
    exact List.any_eq_true.mpr ⟨input.file, hf, beq_self_eq_true _⟩
  have hpublished : s.publishRun run = s.afterCompaction run := by
    simp only [Store.publishRun, Store.logAndApply, logAndApply_vm h.name_eq]
    rfl
  obtain ⟨hrest, ⟨-, hs'⟩ | ⟨hinvalid, -⟩⟩ := commitCompaction_cases hs
  · rw [hpublished] at hs'
    exact ⟨hrest, hvalid, hs'⟩
  · rw [hvalid] at hinvalid
    contradiction

/-- A commit in one statement: the invariant, and what a search meets afterwards. -/
theorem commit_spec {s s' : Store} {run : CompactionRun} {cleanup_obsolete : Bool}
    {held : List Bytes} (h : StoreInv scanned s) (hrun : s.compaction = some run)
    (hs : s.commitCompaction run cleanup_obsolete held = some s') :
    StoreInv scanned s' ∧ s'.built = s.built ∧ s'.flushed = s.flushed ∧ ∀ key,
      s.met key = s.newer run.work.job key ++
        (s.inputVersions run.work.job key ++ s.deeper run.work.job key) ∧
      s'.met key = s.newer run.work.job key ++
        (leftOver (run.keeps scanned) key (s.inputVersions run.work.job key) ++
          s.deeper run.work.job key) := by
  obtain ⟨hrest, -, rfl⟩ := commitCompaction_eq h hrun hs
  obtain ⟨u, v, p, upper, newer, hshape, hstate⟩ := h.run run hrun
  unfold RunState at hstate
  rw [hrest] at hstate
  obtain ⟨outs, houts, hmerge⟩ := hstate
  rw [List.map_nil, List.append_nil] at hmerge
  have hinv := storeInv_afterCompaction h hrun hshape houts hmerge
  have hmet := met_afterCompaction h hrun hshape houts hmerge
  cases cleanup_obsolete with
  | false => exact ⟨hinv, rfl, rfl, hmet⟩
  | true =>
    have hc := cleaned (s.afterCompaction run) held
    refine ⟨storeInv_cleaned hinv hc, hc.built, hc.flushed, fun key => ?_⟩
    rw [if_pos rfl, met_cleaned hinv hc]
    exact hmet key

/-- What each failing step leaves. -/
inductive FailStep (s : Store) : DiskAction → Store → Prop
  | finish (hbuilt : s.built = none) :
      FailStep s .finishError { s with vmgr := s.vmgr.newFileNumber.2 }
  | openTable {n : ℕ} {t : SSTable} {readable : Bool} (hbuilt : s.built = some (n, t)) :
      FailStep s (.openError readable) { s with
        dir := (s.dir.filter fun e => e.1 != sstName n) ++
          [(sstName n, if readable then some t else none)]
        built := none }
  | logFlush {n : ℕ} {t : SSTable} {failure : LogFailure} (hbuilt : s.built = some (n, t)) :
      FailStep s (.logFlushError failure) { s.failLogAndApply (flushEdit (s.flushFile n t)) failure with
        sst_readers := s.sst_readers ++ [⟨s.vmgr.newFileName n, t⟩]
        built := none }
  | run {run : CompactionRun} {r : Record} {rest : List Record} (hrun : s.compaction = some run)
      (hrest : run.rest = some (r :: rest)) :
      FailStep s .runError (Store.abortCompaction { s with vmgr := s.vmgr.newFileNumber.2 } run)
  | commit {run : CompactionRun} {failure : LogFailure} (hrun : s.compaction = some run)
      (hrest : run.rest = some []) (hvalid : s.isCompactionInputValid run.work.job = true) :
      FailStep s (.commitError failure)
        ((s.failLogAndApply run.result.edit failure).abortCompaction run)

theorem fail_step {s s' : Store} {a : DiskAction} (ha : ∀ b, a ≠ .store b)
    (hs : s.diskStep a = some s') : FailStep s a s' := by
  cases a with
  | store b => exact absurd rfl (ha b)
  | finishError =>
    simp only [Store.diskStep, Store.failFinish] at hs
    split at hs
    · contradiction
    · rename_i hbuilt
      rw [← Option.some.inj hs]
      exact .finish hbuilt
  | openError readable =>
    simp only [Store.diskStep, Store.failOpen] at hs
    split at hs
    · contradiction
    · rename_i n t hbuilt
      rw [← Option.some.inj hs]
      exact .openTable hbuilt
  | logFlushError failure =>
    simp only [Store.diskStep, Store.failCommitFlush] at hs
    split at hs
    · contradiction
    · rename_i n t hbuilt
      rw [← Option.some.inj hs]
      exact .logFlush hbuilt
  | runError =>
    obtain ⟨run, hrun, hfail⟩ := Option.bind_eq_some_iff.mp hs
    unfold Store.failRun at hfail
    split at hfail
    · rename_i r rest hrest
      rw [← Option.some.inj hfail]
      exact .run hrun hrest
    · contradiction
  | commitError failure =>
    obtain ⟨run, hrun, hfail⟩ := Option.bind_eq_some_iff.mp hs
    unfold Store.failCommit at hfail
    split at hfail
    · rename_i hrest
      split_ifs at hfail with hvalid
      rw [← Option.some.inj hfail]
      exact .commit hrun hrest hvalid
    · contradiction

/-- Flushed entries ascend, and the record reader of a job returns what is scanned. -/
def StoreScans (scanned : TsKey → Bool) (s : Store) : StoreAction → Prop
  | .build entries => Ascending Prod.fst entries
  | .read reader => ∀ run, s.compaction = some run → ReaderScans scanned s run.work.job reader
  | _ => True

theorem storeInv_step {s s' : Store} {a : StoreAction} (h : StoreInv scanned s)
    (hok : StoreScans scanned s a) (hs : s.step a = some s') : StoreInv scanned s' := by
  cases store_kind hs with
  | build hnone ht => exact storeInv_afterBuild h hok hnone ht
  | commitFlush hc =>
    obtain ⟨n, t, hb, rfl⟩ := commitFlush_eq h hc
    exact storeInv_afterFlush h hb
  | pick hwork => exact storeInv_afterPick h hwork
  | @skip _ _ held => exact storeInv_cleaned h (cleaned_tryDelete s held)
  | refused hrun hrest hlevel => exact absurd hlevel (h.output_level hrun)
  | @read run _ _ _ hrun hrest hinputs => exact storeInv_afterRead h hrun hrest (hok run hrun) hinputs
  | output hrun hrest hne ht => exact storeInv_afterOutput h hrun hrest ht
  | commit hrun hc => exact (commit_spec h hrun hc).1
  | @cleanup held => exact storeInv_cleaned h (cleaned s held)
  | @shutdown held =>
    rw [shutdown_eq h]
    exact storeInv_files (storeInv_cleaned h (cleaned s held)) _

/-- What each step does to the finished file, the flush history and the versions that a
search meets. -/
def Met (scanned : TsKey → Bool) (s s' : Store) : StoreAction → Prop
  | .build entries => s.built = none ∧ (∃ n t, s'.built = some (n, t) ∧ t.entries = entries) ∧
      s'.flushed = s.flushed ∧ ∀ key, s'.met key = s.met key
  | .commitFlush => ∃ n t, s.built = some (n, t) ∧ s'.built = none ∧
      s'.flushed = t.entries :: s.flushed ∧ ∀ key, s'.met key = (t.getEntry key).toList ++ s.met key
  | .commit _ _ => s'.built = s.built ∧ s'.flushed = s.flushed ∧
      ∃ run, s.compaction = some run ∧ ∀ key,
        s.met key = s.newer run.work.job key ++
          (s.inputVersions run.work.job key ++ s.deeper run.work.job key) ∧
        s'.met key = s.newer run.work.job key ++
          (leftOver (run.keeps scanned) key (s.inputVersions run.work.job key) ++
            s.deeper run.work.job key)
  | _ => s'.built = s.built ∧ s'.flushed = s.flushed ∧ ∀ key, s'.met key = s.met key

theorem met_congr {s s' : Store} (hcurrent : s'.vmgr.current = s.vmgr.current)
    (hreaders : s'.sst_readers = s.sst_readers) (key : TsKey) : s'.met key = s.met key := by
  rw [Store.met, Store.met, hcurrent]
  apply List.flatMap_congr
  intro l _
  exact versionsIn_congr (fun f _ => tableAt_congr (by rw [hreaders])) key

theorem met_step {s s' : Store} {a : StoreAction} (h : StoreInv scanned s) (hs : s.step a = some s') :
    Met scanned s s' a := by
  cases store_kind hs with
  | build hnone ht => exact ⟨hnone, ⟨_, _, rfl, finishTable_entries ht⟩, rfl, met_congr rfl rfl⟩
  | commitFlush hc =>
    obtain ⟨n, t, hb, rfl⟩ := commitFlush_eq h hc
    exact ⟨n, t, hb, rfl, rfl, met_afterFlush h hb⟩
  | pick => exact ⟨rfl, rfl, met_congr rfl rfl⟩
  | @skip _ _ held =>
    have hc := cleaned_tryDelete s held
    exact ⟨hc.built, hc.flushed, met_cleaned h hc⟩
  | refused => exact ⟨rfl, rfl, met_congr rfl rfl⟩
  | read => exact ⟨rfl, rfl, met_congr rfl rfl⟩
  | output => exact ⟨rfl, rfl, met_congr rfl rfl⟩
  | commit hrun hc =>
    obtain ⟨-, hbuilt, hflushed, hmet⟩ := commit_spec h hrun hc
    exact ⟨hbuilt, hflushed, _, hrun, hmet⟩
  | @cleanup held =>
    have hc := cleaned s held
    exact ⟨hc.built, hc.flushed, met_cleaned h hc⟩
  | @shutdown held =>
    have hc := cleaned s held
    rw [shutdown_eq h]
    exact ⟨hc.built, hc.flushed, fun key => (met_congr rfl rfl key).trans (met_cleaned h hc key)⟩

theorem start_eq (db_dir : Bytes) :
    startup db_dir (fun _ => none) [] =
      ⟨(VersionManager.init db_dir fun _ => none).1, [], fun _ => none, []⟩ := by
  have hempty : (VersionManager.init db_dir fun _ => none).1.current.IsEmpty := by
    rw [(recover_logged (logged_start db_dir)).1.current]
    exact fun _ => rfl
  unfold startup
  rw [load_of_empty hempty, Startup.scanDirectory]
  exact if_neg fun hpos => (numFiles_pos_iff _).mp hpos hempty

theorem storeInv_start (db_dir : Bytes) (target : ℕ) : StoreInv scanned (Store.start db_dir target) := by
  obtain ⟨⟨hcurrent, hbelow, hdir, hname, hobsolete⟩, -⟩ := recover_logged (logged_start db_dir)
  have hnone : ∀ l, (VersionManager.init db_dir fun _ => none).1.current.level_files l = [] := by
    rw [hcurrent]
    exact fun _ => rfl
  rw [Store.start, start_eq]
  refine storeInv_opened ?_ ?_ hbelow hobsolete ?_ ?_ ?_ fun r hr => by contradiction
  · rw [hname, hdir]
  · rw [hcurrent]
    exact Version.ordered_empty
  · intro l f hf
    rw [hnone l] at hf
    contradiction
  · intro l f hf
    rw [hnone l] at hf
    contradiction
  · intro key
    rw [hnone 1]
    exact Nat.zero_le 1

theorem met_start (db_dir : Bytes) (target : ℕ) (key : TsKey) :
    (Store.start db_dir target).met key = [] := by
  obtain ⟨⟨hcurrent, -, -, -, -⟩, -⟩ := recover_logged (logged_start db_dir)
  rw [Store.start, start_eq, Store.met, List.flatMap_eq_nil_iff]
  intro l _
  change Store.versionsIn _ ((VersionManager.init db_dir fun _ => none).1.current.level_files l) key = []
  rw [hcurrent]
  rfl

end MiniTsdb
