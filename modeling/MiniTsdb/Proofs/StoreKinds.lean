import MiniTsdb.Spec.Store

/-! What the steps of the store come to, read off their branches. -/

namespace MiniTsdb
open Lib

variable {s s' : Store}

/-- A finished table under the next number, ready to be committed. -/
def Store.afterBuild (s : Store) (t : SSTable) : Store :=
  { s with
    vmgr := s.vmgr.newFileNumber.2
    dir := writeTable s.dir (sstName s.vmgr.newFileNumber.1) t
    built := some (s.vmgr.newFileNumber.1, t) }

def Store.afterPick (s : Store) (work : CompactionWork) : Store :=
  { s with
    compaction := some ⟨work, none, .empty⟩
    compaction_in_progress := true
    compacting_files := s.compacting_files ++ work.job.numbers }

def Store.afterRead (s : Store) (run : CompactionRun) (merged : List Record)
    (result : CompactionResult) : Store :=
  { s with compaction := some ⟨run.work, some merged, result⟩ }

/-- A finished table under the next number, with the records that are left behind it. -/
def Store.afterOutput (s : Store) (run : CompactionRun) (records : List Record) (t : SSTable) : Store :=
  { s with
    vmgr := s.vmgr.newFileNumber.2
    dir := writeTable s.dir (sstName s.vmgr.newFileNumber.1) t
    compaction := some ⟨run.work, some (takeChunk (targetBytes s.target_file_size) 0 records).2,
      run.result.addOutput run.work.job.output_level (t.fileMeta s.vmgr.newFileNumber.1
        (s.vmgr.newFileNumber.2.newFileName s.vmgr.newFileNumber.1)) t⟩ }

def Store.chunkTable (s : Store) (records : List Record) : Option SSTable :=
  finishTable ((takeChunk (targetBytes s.target_file_size) 0 records).1.map Record.pair)

theorem buildFlush_eq {entries : List (TsKey × InternalEntry)} (hs : s.buildFlush entries = some s') :
    s.built = none ∧ ∃ t, finishTable entries = some t ∧ s' = s.afterBuild t := by
  unfold Store.buildFlush at hs
  split at hs
  · contradiction
  · rename_i hnone
    split at hs
    · contradiction
    · rename_i t ht
      exact ⟨hnone, t, ht, (Option.some.inj hs).symm⟩

theorem startCompaction_eq {force : Bool} {ttl_map : TtlMap}
    (hs : s.startCompaction force ttl_map = some s') :
    ∃ work, s.pickCompactionWork force ttl_map = some work ∧ s' = s.afterPick work := by
  unfold Store.startCompaction at hs
  split at hs
  · contradiction
  · rename_i work hwork
    exact ⟨work, hwork, (Option.some.inj hs).symm⟩

/-- One compaction at a time, and its output level exists. -/
theorem pick_level {force : Bool} {ttl_map : TtlMap} {work : CompactionWork}
    (h : s.pickCompactionWork force ttl_map = some work) :
    s.compaction_in_progress = false ∧ work.job.output_level < kMaxLevel := by
  have hlevel : s.pickLevel ttl_map = some work → work.job.output_level < kMaxLevel := by
    intro hp
    obtain ⟨level, hmem, hwork⟩ := List.exists_of_findSome?_eq_some hp
    dsimp only at hwork
    split_ifs at hwork
    rw [← Option.some.inj hwork]
    have hle : level.val ≤ 5 := by
      simp only [List.mem_cons, List.not_mem_nil, or_false] at hmem
      rcases hmem with rfl | rfl | rfl | rfl | rfl <;> decide
    show (level.val : ℤ) + 1 < 7
    omega
  unfold Store.pickCompactionWork at h
  split_ifs at h with hprogress
  refine ⟨by simpa using hprogress, ?_⟩
  dsimp only at h
  split at h
  · exact hlevel h
  · split_ifs at h
    · rw [← Option.some.inj h]
      show (1 : ℤ) < (kMaxLevel : ℤ)
      decide
    · exact hlevel h

theorem skipCompaction_eq {force : Bool} {ttl_map : TtlMap} {held : List Bytes}
    (hs : s.skipCompaction force ttl_map held = some s') : s.compaction_in_progress = false ∧
      s.pickCompactionWork force ttl_map = none ∧ s' = s.tryDeletePendingFiles held := by
  unfold Store.skipCompaction at hs
  split_ifs at hs with hskip
  obtain ⟨hidle, hnone⟩ := Bool.and_eq_true_iff.mp hskip
  exact ⟨by simpa using hidle, Option.isNone_iff_eq_none.mp hnone, (Option.some.inj hs).symm⟩

theorem runInputs_error {job : CompactionJob} {reader : Bytes → List Record} {filter : Record → Bool}
    {status : Status} (h : runInputs job reader filter = .error status) :
    (kMaxLevel : ℤ) ≤ job.output_level := by
  unfold runInputs at h
  split_ifs at h with hempty hlevel
  exact hlevel

/-- A job that is not refused: its edit deletes the inputs, and adds nothing yet. -/
theorem runInputs_ok {job : CompactionJob} {reader : Bytes → List Record} {filter : Record → Bool}
    {merged : List Record} {result : CompactionResult}
    (h : runInputs job reader filter = .ok (merged, result)) :
    merged = mergeRecords filter (job.inputs.map fun input => reader input.file.file_name) ∧
      result = ⟨⟨[], (job.inputs.filter fun input => (levelIndex input.level).isSome).map fun input =>
        (input.level, input.file.file_number)⟩, [], []⟩ := by
  unfold runInputs at h
  split_ifs at h with hempty
  · obtain ⟨rfl, rfl⟩ := Prod.mk.inj (Except.ok.inj h)
    rw [List.isEmpty_iff.mp hempty]
    exact ⟨rfl, rfl⟩
  · obtain ⟨rfl, rfl⟩ := Prod.mk.inj (Except.ok.inj h)
    exact ⟨rfl, rfl⟩

theorem readInputs_eq {run : CompactionRun} {reader : Bytes → List Record}
    (hs : s.readInputs run reader = some s') :
    run.rest = none ∧ ((kMaxLevel : ℤ) ≤ run.work.job.output_level ∧
        s' = s.finishCompaction run.work.job ∨
      ∃ merged result, runInputs run.work.job reader
          (fun r => keepRecordForCompaction r run.work.ttl_snapshot) = .ok (merged, result) ∧
        s' = s.afterRead run merged result) := by
  unfold Store.readInputs at hs
  split at hs
  · contradiction
  · rename_i hrest
    split at hs
    · rename_i status hinputs
      exact ⟨hrest, Or.inl ⟨runInputs_error hinputs, (Option.some.inj hs).symm⟩⟩
    · rename_i merged result hinputs
      exact ⟨hrest, Or.inr ⟨merged, result, hinputs, (Option.some.inj hs).symm⟩⟩

/-- The store with this run in the place of its own. -/
def Store.withRun (s : Store) (run : Option CompactionRun) (progress : Bool) (files : List ℕ) : Store :=
  { s with
    compaction := run
    compaction_in_progress := progress
    compacting_files := files }

/-- A run that has not written a file yet. -/
def CompactionRun.Unwritten (run : CompactionRun) : Prop :=
  run.result.edit.added_files = [] ∧ run.result.new_files = []

theorem startCompaction_withRun {force : Bool} {ttl_map : TtlMap}
    (hs : s.startCompaction force ttl_map = some s') :
    ∃ run progress files, (∀ r, run = some r → r.Unwritten) ∧ s' = s.withRun run progress files := by
  obtain ⟨work, -, rfl⟩ := startCompaction_eq hs
  refine ⟨some ⟨work, none, .empty⟩, _, _, fun r hr => ?_, rfl⟩
  obtain rfl := Option.some.inj hr
  exact ⟨rfl, rfl⟩

/-- Reading gives the run up, or gives it records and deletions. -/
theorem readInputs_withRun {run : CompactionRun} {reader : Bytes → List Record}
    (hs : s.readInputs run reader = some s') :
    ∃ run progress files, (∀ r, run = some r → r.Unwritten) ∧ s' = s.withRun run progress files := by
  obtain ⟨-, ⟨-, rfl⟩ | ⟨merged, result, hinputs, rfl⟩⟩ := readInputs_eq hs
  · exact ⟨none, _, _, fun r hr => by contradiction, rfl⟩
  · obtain ⟨-, rfl⟩ := runInputs_ok hinputs
    refine ⟨some ⟨run.work, some merged, _⟩, s.compaction_in_progress, s.compacting_files,
      fun r hr => ?_, rfl⟩
    obtain rfl := Option.some.inj hr
    exact ⟨rfl, rfl⟩

theorem writeOutput_eq {run : CompactionRun} (hs : s.writeOutput run = some s') :
    ∃ records t, run.rest = some records ∧ records ≠ [] ∧ s.chunkTable records = some t ∧
      s' = s.afterOutput run records t := by
  unfold Store.writeOutput at hs
  split at hs
  · contradiction
  · contradiction
  · rename_i records hne hrest
    dsimp only at hs
    split at hs
    · contradiction
    · rename_i t ht
      exact ⟨records, t, hrest, hne, ht, (Option.some.inj hs).symm⟩

/-- The steps by the branches that they take. -/
inductive StoreKind (s : Store) : StoreAction → Store → Prop
  | build {entries : List (TsKey × InternalEntry)} {t : SSTable} (hnone : s.built = none)
      (ht : finishTable entries = some t) : StoreKind s (.build entries) (s.afterBuild t)
  | commitFlush {s' : Store} (hs : s.commitFlush = some s') : StoreKind s .commitFlush s'
  | pick {force : Bool} {ttl_map : TtlMap} {work : CompactionWork}
      (hwork : s.pickCompactionWork force ttl_map = some work) :
      StoreKind s (.pick force ttl_map) (s.afterPick work)
  | skip {force : Bool} {ttl_map : TtlMap} {held : List Bytes} (hidle : s.compaction_in_progress = false)
      (hnone : s.pickCompactionWork force ttl_map = none) :
      StoreKind s (.skip force ttl_map held) (s.tryDeletePendingFiles held)
  | refused {run : CompactionRun} {reader : Bytes → List Record} (hrun : s.compaction = some run)
      (hrest : run.rest = none) (hlevel : (kMaxLevel : ℤ) ≤ run.work.job.output_level) :
      StoreKind s (.read reader) (s.finishCompaction run.work.job)
  | read {run : CompactionRun} {reader : Bytes → List Record} {merged : List Record}
      {result : CompactionResult} (hrun : s.compaction = some run) (hrest : run.rest = none)
      (hinputs : runInputs run.work.job reader (fun r => keepRecordForCompaction r run.work.ttl_snapshot) =
        .ok (merged, result)) : StoreKind s (.read reader) (s.afterRead run merged result)
  | output {run : CompactionRun} {records : List Record} {t : SSTable} (hrun : s.compaction = some run)
      (hrest : run.rest = some records) (hne : records ≠ []) (ht : s.chunkTable records = some t) :
      StoreKind s .output (s.afterOutput run records t)
  | commit {run : CompactionRun} {cleanup_obsolete : Bool} {held : List Bytes} {s' : Store}
      (hrun : s.compaction = some run) (hs : s.commitCompaction run cleanup_obsolete held = some s') :
      StoreKind s (.commit cleanup_obsolete held) s'
  | cleanup {held : List Bytes} : StoreKind s (.cleanup held) (s.cleanupObsoleteFiles held)
  | shutdown {held : List Bytes} : StoreKind s (.shutdown held) (s.shutdown held)

theorem store_kind {a : StoreAction} (hs : s.step a = some s') : StoreKind s a s' := by
  cases a with
  | build entries =>
    obtain ⟨hnone, t, ht, rfl⟩ := buildFlush_eq hs
    exact .build hnone ht
  | commitFlush => exact .commitFlush hs
  | pick force ttl_map =>
    obtain ⟨work, hwork, rfl⟩ := startCompaction_eq hs
    exact .pick hwork
  | skip force ttl_map held =>
    obtain ⟨hidle, hnone, rfl⟩ := skipCompaction_eq hs
    exact .skip hidle hnone
  | read reader =>
    obtain ⟨run, hrun, hread⟩ := Option.bind_eq_some_iff.mp hs
    obtain ⟨hrest, ⟨hlevel, rfl⟩ | ⟨merged, result, hinputs, rfl⟩⟩ := readInputs_eq hread
    · exact .refused hrun hrest hlevel
    · exact .read hrun hrest hinputs
  | output =>
    obtain ⟨run, hrun, hwrite⟩ := Option.bind_eq_some_iff.mp hs
    obtain ⟨records, t, hrest, hne, ht, rfl⟩ := writeOutput_eq hwrite
    exact .output hrun hrest hne ht
  | commit cleanup_obsolete held =>
    obtain ⟨run, hrun, hcommit⟩ := Option.bind_eq_some_iff.mp hs
    exact .commit hrun hcommit
  | cleanup held =>
    rw [← Option.some.inj hs]
    exact .cleanup
  | shutdown held =>
    rw [← Option.some.inj hs]
    exact .shutdown

end MiniTsdb
