import MiniTsdb.Proofs.DiskSteps
import MiniTsdb.Proofs.StoreDisk

/-! Where the records of a store come from: what holds of all keys in its readers, in the
files of its version and on their way to disk holds after every step, failed or not. -/

namespace MiniTsdb
open Lib

def SSTable.Within (P : TsKey → Prop) (t : SSTable) : Prop := ∀ x ∈ t.entries, P x.1

theorem SSTable.Within.mono {P Q : TsKey → Prop} (h : ∀ key, P key → Q key) {t : SSTable}
    (ht : t.Within P) : t.Within Q := fun x hx => h _ (ht x hx)

/-- The paths of the version, of the finished file, and of the inputs and outputs of the
compaction. Under any other path the directory may hold anything. -/
def Store.Named (s : Store) (path : Bytes) : Prop :=
  (∃ l, ∃ f ∈ s.vmgr.current.level_files l, f.file_name = path) ∨
    (∃ b, s.built = some b ∧ s.vmgr.newFileName b.1 = path) ∨
    ∃ run, s.compaction = some run ∧
      ((∃ input ∈ run.work.job.inputs, input.file.file_name = path) ∨
        ∃ a ∈ run.result.edit.added_files, a.2.file_name = path)

structure Store.Within (P : TsKey → Prop) (s : Store) : Prop where
  readers : ∀ r ∈ s.sst_readers, r.table.Within P
  named : ∀ e ∈ s.dir, s.Named (joinPath s.vmgr.db_dir e.1) → ∀ t, e.2 = some t → t.Within P
  built : ∀ b, s.built = some b → b.2.Within P
  rest : ∀ run, s.compaction = some run → ∀ records, run.rest = some records →
    ∀ r ∈ records, P r.key
  outputs : ∀ run, s.compaction = some run → ∀ r ∈ run.result.new_readers, r.table.Within P
  names : (s.dir.map Prod.fst).Nodup

/-- What an action hands to the store: the entries of a new file, the records that it reads. -/
def StoreAction.Within (P : TsKey → Prop) (s : Store) : StoreAction → Prop
  | .build entries => ∀ x ∈ entries, P x.1
  | .read reader => ∀ run, s.compaction = some run → ∀ input ∈ run.work.job.inputs,
      ∀ r ∈ reader input.file.file_name, P r.key
  | _ => True

theorem Store.Within.mono {P Q : TsKey → Prop} (h : ∀ key, P key → Q key) {s : Store}
    (hs : s.Within P) : s.Within Q :=
  ⟨fun r hr => (hs.readers r hr).mono h, fun e he hn t ht => (hs.named e he hn t ht).mono h,
    fun b hb => (hs.built b hb).mono h, fun run hrun records hr r hm => h _ (hs.rest run hrun records hr r hm),
    fun run hrun r hr => (hs.outputs run hrun r hr).mono h, hs.names⟩

section
variable {P : TsKey → Prop} {s s' : Store}

theorem Store.Within.same (h : s.Within P) (hdb : s'.vmgr.db_dir = s.vmgr.db_dir)
    (hnamed : ∀ path, s'.Named path → s.Named path) (hreaders : ∀ r ∈ s'.sst_readers, r ∈ s.sst_readers)
    (hdir : s'.dir.Sublist s.dir) (hbuilt : ∀ b, s'.built = some b → s.built = some b)
    (hrun : ∀ run, s'.compaction = some run → s.compaction = some run) : s'.Within P := by
  refine ⟨fun r hr => h.readers r (hreaders r hr), fun e he hn => ?_, fun b hb => h.built b (hbuilt b hb),
    fun run hr => h.rest run (hrun run hr), fun run hr => h.outputs run (hrun run hr),
    h.names.sublist (hdir.map _)⟩
  rw [hdb] at hn
  exact h.named e (hdir.subset he) (hnamed _ hn)

theorem Store.Named.of_eq {path : Bytes} (h : s'.Named path) (hdb : s'.vmgr.db_dir = s.vmgr.db_dir)
    (hlevel : ∀ l, ∀ f ∈ s'.vmgr.current.level_files l, s.Named f.file_name)
    (hbuilt : ∀ b, s'.built = some b → s.built = some b)
    (hrun : ∀ run, s'.compaction = some run → s.compaction = some run) : s.Named path := by
  rcases h with ⟨l, f, hf, rfl⟩ | ⟨b, hb, rfl⟩ | ⟨run, hr, hpath⟩
  · exact hlevel l f hf
  · refine Or.inr (Or.inl ⟨b, hbuilt b hb, ?_⟩)
    rw [VersionManager.newFileName, VersionManager.newFileName, hdb]
  · exact Or.inr (Or.inr ⟨run, hrun run hr, hpath⟩)

theorem Store.Named.live {l : Fin kMaxLevel} {f : FileMeta} (hf : f ∈ s.vmgr.current.level_files l) :
    s.Named f.file_name := Or.inl ⟨l, f, hf, rfl⟩

theorem within_takeChunk (target approx : ℕ) {records : List Record} (h : ∀ r ∈ records, P r.key) :
    (∀ r ∈ (takeChunk target approx records).1, P r.key) ∧
      ∀ r ∈ (takeChunk target approx records).2, P r.key := by
  have happend := takeChunk_append target approx records
  refine ⟨fun r hr => h r ?_, fun r hr => h r ?_⟩
  · rw [← happend]
    exact List.mem_append_left _ hr
  · rw [← happend]
    exact List.mem_append_right _ hr

theorem within_finishTable {entries : List (TsKey × InternalEntry)} {t : SSTable}
    (ht : finishTable entries = some t) (h : ∀ x ∈ entries, P x.1) : t.Within P := by
  unfold SSTable.Within
  rw [finishTable_entries ht]
  exact h

theorem within_mergeRecords {filter : Record → Bool} {inputs : List (List Record)}
    (h : ∀ records ∈ inputs, ∀ r ∈ records, P r.key) : ∀ r ∈ mergeRecords filter inputs, P r.key := by
  intro r hr
  obtain ⟨records, hrecords, hmem⟩ := exists_of_mem_mergeRanked hr
  obtain ⟨input, hinput, rfl⟩ := List.mem_map.mp hrecords
  exact h input hinput r (List.mem_of_mem_filter hmem)

theorem named_replaced {number : ℕ} {content : Option SSTable} {e : Bytes × Option SSTable}
    (he : e ∈ (s.dir.filter fun e => e.1 != sstName number) ++ [(sstName number, content)]) :
    e = (sstName number, content) ∨
      e ∈ s.dir ∧ joinPath s.vmgr.db_dir e.1 ≠ s.vmgr.newFileName number := by
  rcases List.mem_append.mp he with he | he
  · obtain ⟨he, hne⟩ := List.mem_filter.mp he
    refine Or.inr ⟨he, fun heq => ?_⟩
    have hname : e.1 = sstName number := joinPath_inj heq
    rw [hname] at hne
    simp at hne
  · exact Or.inl (List.mem_singleton.mp he)

theorem Store.Within.buildFlush (h : s.Within P) {entries : List (TsKey × InternalEntry)}
    (hentries : ∀ x ∈ entries, P x.1) (hs : s.buildFlush entries = some s') : s'.Within P := by
  obtain ⟨-, t, ht, rfl⟩ := buildFlush_eq hs
  have htable := within_finishTable ht hentries
  refine ⟨h.readers, fun e he hn t' ht' => ?_, fun b hb => ?_, h.rest, h.outputs,
    nodup_replaced h.names _ _⟩
  · rcases named_replaced he with rfl | ⟨he, hne⟩
    · exact Option.some.inj ht' ▸ htable
    · refine h.named e he ?_ t' ht'
      rcases hn with hn | ⟨b, hb, hpath⟩ | hn
      · exact Or.inl hn
      · obtain rfl := Option.some.inj hb
        exact absurd hpath.symm hne
      · exact Or.inr (Or.inr hn)
  · obtain rfl := Option.some.inj hb
    exact htable

theorem Store.Within.writeOutput (h : s.Within P) {run : CompactionRun} (hrun : s.compaction = some run)
    (hs : s.writeOutput run = some s') : s'.Within P := by
  obtain ⟨records, t, hrest, -, ht, rfl⟩ := writeOutput_eq hs
  obtain ⟨hchunk, hleft⟩ := within_takeChunk (targetBytes s.target_file_size) 0
    (h.rest run hrun records hrest)
  have htable : t.Within P := by
    refine within_finishTable ht fun x hx => ?_
    obtain ⟨r, hr, rfl⟩ := List.mem_map.mp hx
    exact hchunk r hr
  refine ⟨h.readers, fun e he hn t' ht' => ?_, h.built, fun run' hrun' records' hrecords => ?_,
    fun run' hrun' r hr => ?_, nodup_replaced h.names _ _⟩
  · rcases named_replaced he with rfl | ⟨he, hne⟩
    · exact Option.some.inj ht' ▸ htable
    · refine h.named e he ?_ t' ht'
      rcases hn with hn | hn | ⟨run', hrun', hn⟩
      · exact Or.inl hn
      · exact Or.inr (Or.inl hn)
      · obtain rfl := Option.some.inj hrun'
        refine Or.inr (Or.inr ⟨run, hrun, hn.imp_right fun hadded => ?_⟩)
        obtain ⟨a, ha, hpath⟩ := hadded
        rcases List.mem_append.mp ha with ha | ha
        · exact ⟨a, ha, hpath⟩
        · obtain rfl := List.mem_singleton.mp ha
          exact absurd hpath.symm hne
  · obtain rfl := Option.some.inj hrun'
    obtain rfl := Option.some.inj hrecords
    exact hleft
  · obtain rfl := Option.some.inj hrun'
    rcases List.mem_append.mp hr with hr | hr
    · exact h.outputs run hrun r hr
    · obtain rfl := List.mem_singleton.mp hr
      exact htable

theorem Store.Within.publish (h : s.Within P) (edit : VersionEdit) {readers : List TableReader}
    (hvm : s'.vmgr = { s.vmgr with manifest_name := s.vmgr.manifestPath }.applyUnlocked edit)
    (hedit : ∀ a ∈ edit.added_files, s.Named a.2.file_name) (hreaders : ∀ r ∈ readers, r.table.Within P)
    (hnext : s'.sst_readers = s.sst_readers ++ readers) (hdir : s'.dir = s.dir)
    (hbuilt : ∀ b, s'.built = some b → s.built = some b)
    (hrun : ∀ run, s'.compaction = some run → s.compaction = some run) : s'.Within P := by
  have hdb : s'.vmgr.db_dir = s.vmgr.db_dir := by rw [hvm, applyUnlocked_db_dir]
  refine ⟨fun r hr => ?_, fun e he hn => ?_, fun b hb => h.built b (hbuilt b hb),
    fun run hr => h.rest run (hrun run hr), fun run hr => h.outputs run (hrun run hr), ?_⟩
  · rw [hnext] at hr
    exact (List.mem_append.mp hr).elim (h.readers r) (hreaders r)
  · rw [hdir] at he
    rw [hdb] at hn
    refine h.named e he (hn.of_eq hdb (fun l f hf => ?_) hbuilt hrun)
    rw [hvm, mem_applyUnlocked] at hf
    rcases hf with hf | hf
    · exact .live hf.1
    · obtain ⟨level, -, ha⟩ := VersionEdit.mem_addedAt.mp hf
      exact hedit _ ha
  · rw [hdir]
    exact h.names

theorem Store.Within.commitFlush (h : s.Within P) (hs : s.commitFlush = some s') : s'.Within P := by
  unfold Store.commitFlush at hs
  split at hs
  · contradiction
  rename_i n t hb
  obtain rfl := Option.some.inj hs
  refine h.publish (flushEdit (t.fileMeta n (s.vmgr.newFileName n))) rfl (fun a ha => ?_)
    (fun r hr => ?_) rfl rfl (fun b hb' => by contradiction) fun run hr => hr
  · rw [List.mem_singleton.mp ha]
    exact Or.inr (Or.inl ⟨_, hb, rfl⟩)
  · rw [List.mem_singleton.mp hr]
    exact h.built _ hb

theorem Store.Within.finish (h : s.Within P) (job : CompactionJob) {dir : SstDir}
    (hdir : dir.Sublist s.dir) : Store.Within P { s.finishCompaction job with dir := dir } :=
  h.same rfl (fun _ hn => hn.of_eq rfl (fun _ _ hf => .live hf) (fun _ hb => hb)
    fun _ hr => by contradiction) (fun _ hr => hr) hdir (fun _ hb => hb) fun _ hr => by contradiction

theorem Store.Within.manifest (h : s.Within P) (name : Bytes) (next : ℕ) (files : Files) :
    Store.Within P { s with
      vmgr := { s.vmgr with manifest_name := name, next_file_number := next }
      files := files } :=
  ⟨h.readers, h.named, h.built, h.rest, h.outputs, h.names⟩

theorem Store.Within.abort (h : s.Within P) (run : CompactionRun) :
    (s.abortCompaction run).Within P :=
  h.finish run.work.job (foldl_removeTable_sublist _ _ _)

theorem Store.Within.cleaned (h : s.Within P) (hc : Cleaned s s') : s'.Within P := by
  have hdb : s'.vmgr.db_dir = s.vmgr.db_dir := by rw [hc.vmgr]
  have hbuilt : ∀ b, s'.built = some b → s.built = some b := fun b hb => hc.built ▸ hb
  have hrun : ∀ run, s'.compaction = some run → s.compaction = some run :=
    fun run hr => hc.compaction ▸ hr
  refine h.same hdb (fun path hn => hn.of_eq hdb (fun l f hf => ?_) hbuilt hrun) hc.readers hc.dir
    hbuilt hrun
  rw [hc.vmgr] at hf
  exact .live hf

theorem Store.Within.commitCompaction (h : s.Within P) {run : CompactionRun}
    (hrun : s.compaction = some run) {cleanup_obsolete : Bool} {held : List Bytes}
    (hs : s.commitCompaction run cleanup_obsolete held = some s') : s'.Within P := by
  have hpublished : (s.publishRun run).Within P :=
    h.publish run.result.edit rfl
      (fun a ha => Or.inr (Or.inr ⟨run, hrun, Or.inr ⟨a, ha, rfl⟩⟩)) (h.outputs run hrun) rfl rfl
      (fun _ hb => hb) fun _ hr => by contradiction
  obtain ⟨-, ⟨-, rfl⟩ | ⟨-, rfl⟩⟩ := commitCompaction_cases hs
  · split_ifs
    · exact hpublished.cleaned (MiniTsdb.cleaned _ held)
    · exact hpublished
  · exact h.abort run

theorem Store.Within.readInputs (h : s.Within P) {run : CompactionRun} {reader : Bytes → List Record}
    (hrun : s.compaction = some run)
    (hreader : ∀ input ∈ run.work.job.inputs, ∀ r ∈ reader input.file.file_name, P r.key)
    (hs : s.readInputs run reader = some s') : s'.Within P := by
  obtain ⟨-, ⟨-, rfl⟩ | ⟨merged, result, hinputs, rfl⟩⟩ := readInputs_eq hs
  · exact h.finish _ (List.Sublist.refl _)
  obtain ⟨hmerged, hresult⟩ := runInputs_ok hinputs
  have hreaders : result.new_readers = [] := congrArg CompactionResult.new_readers hresult
  have hadded : result.edit.added_files = [] := congrArg (fun r => r.edit.added_files) hresult
  have hmem : ∀ r ∈ merged, P r.key := by
    rw [hmerged]
    apply within_mergeRecords
    intro records hrecords
    obtain ⟨input, hinput, rfl⟩ := List.mem_map.mp hrecords
    exact hreader input hinput
  refine ⟨h.readers, fun e he hn => h.named e he ?_, h.built, fun run' hrun' records hrecords => ?_,
    fun run' hrun' r hr => ?_, h.names⟩
  · rcases hn with hn | hn | ⟨run', hrun', hn⟩
    · exact Or.inl hn
    · exact Or.inr (Or.inl hn)
    · obtain rfl := Option.some.inj hrun'
      refine Or.inr (Or.inr ⟨run, hrun, Or.inl (hn.resolve_right ?_)⟩)
      rintro ⟨a, ha, -⟩
      rw [hadded] at ha
      contradiction
  · obtain rfl := Option.some.inj hrun'
    obtain rfl := Option.some.inj hrecords
    exact hmem
  · obtain rfl := Option.some.inj hrun'
    rw [hreaders] at hr
    contradiction

theorem Store.Within.startCompaction (h : s.Within P) {force : Bool} {ttl_map : TtlMap}
    (hs : s.startCompaction force ttl_map = some s') : s'.Within P := by
  obtain ⟨work, hwork, rfl⟩ := startCompaction_eq hs
  refine ⟨h.readers, fun e he hn => h.named e he ?_, h.built, fun run hrun records hrecords => ?_,
    fun run hrun r hr => ?_, h.names⟩
  · rcases hn with hn | hn | ⟨run, hrun, ⟨input, hinput, hpath⟩ | ⟨a, ha, -⟩⟩
    · exact Or.inl hn
    · exact Or.inr (Or.inl hn)
    · obtain rfl := Option.some.inj hrun
      obtain ⟨l, -, hf⟩ := pick_inputs hwork input hinput
      exact Or.inl ⟨l, _, hf, hpath⟩
    · obtain rfl := Option.some.inj hrun
      contradiction
  · obtain rfl := Option.some.inj hrun
    contradiction
  · obtain rfl := Option.some.inj hrun
    contradiction

theorem Store.Within.fails (h : s.Within P) {a : DiskAction} (hs : FailStep s a s') : s'.Within P := by
  cases hs with
  | finish hbuilt => exact h.manifest s.vmgr.manifest_name _ s.files
  | @openTable n t readable hbuilt =>
    refine ⟨h.readers, fun e he hn t' ht' => ?_, fun b hb' => by contradiction, h.rest, h.outputs,
      nodup_replaced h.names _ _⟩
    rcases named_replaced he with rfl | ⟨he, -⟩
    · have htable := h.built _ hbuilt
      dsimp only at ht'
      split_ifs at ht'
      exact Option.some.inj ht' ▸ htable
    · exact h.named e he (hn.of_eq rfl (fun _ _ hf => .live hf) (fun _ hb => by contradiction)
        fun _ hr => hr) t' ht'
  | logFlush hbuilt =>
    refine ⟨fun r hr => ?_, fun e he hn => ?_, fun b hb' => by contradiction, h.rest, h.outputs, h.names⟩
    · rcases List.mem_append.mp hr with hr | hr
      · exact h.readers r hr
      · rw [List.mem_singleton.mp hr]
        exact h.built _ hbuilt
    · exact h.named e he (hn.of_eq rfl (fun _ _ hf => .live hf) (fun _ hb => by contradiction)
        fun _ hr => hr)
  | @run run _ _ hrun hrest => exact (h.manifest s.vmgr.manifest_name _ s.files).abort run
  | @commit run _ hrun hrest hvalid => exact (h.manifest _ s.vmgr.next_file_number _).abort run

theorem Store.Within.step (h : s.Within P) {a : StoreAction} (ha : a.Within P s)
    (hs : s.step a = some s') : s'.Within P := by
  cases a with
  | build entries => exact h.buildFlush ha hs
  | commitFlush => exact h.commitFlush hs
  | pick force ttl_map => exact h.startCompaction hs
  | skip force ttl_map held =>
    rw [(skipCompaction_eq hs).2.2]
    exact h.cleaned (cleaned_tryDelete s held)
  | read reader =>
    obtain ⟨run, hrun, hread⟩ := Option.bind_eq_some_iff.mp hs
    exact h.readInputs hrun (ha run hrun) hread
  | output =>
    obtain ⟨run, hrun, hwrite⟩ := Option.bind_eq_some_iff.mp hs
    exact h.writeOutput hrun hwrite
  | commit cleanup_obsolete held =>
    obtain ⟨run, hrun, hcommit⟩ := Option.bind_eq_some_iff.mp hs
    exact h.commitCompaction hrun hcommit
  | cleanup held =>
    obtain rfl := Option.some.inj hs
    exact h.cleaned (MiniTsdb.cleaned s held)
  | shutdown held =>
    obtain rfl := Option.some.inj hs
    exact (h.cleaned (MiniTsdb.cleaned s held)).manifest _ _ _

theorem Store.Within.diskStep (h : s.Within P) {a : DiskAction}
    (ha : ∀ b, a = .store b → b.Within P s) (hs : s.diskStep a = some s') : s'.Within P := by
  cases a with
  | store b => exact h.step (ha b rfl) hs
  | _ => exact h.fails (fail_step (fun b hb => by contradiction) hs)

end

end MiniTsdb
