import MiniTsdb.Proofs.StoreInv

/-! The steps that change the version: what each commit does to the levels, to the
invariant and to what a search meets. -/

namespace MiniTsdb
open Lib

variable {scanned : TsKey → Bool}

/-- The reader handed to `Run` returns, of each input file, the entries whose keys are
scanned. -/
def ReaderScans (scanned : TsKey → Bool) (s : Store) (job : CompactionJob)
    (reader : Bytes → List Record) : Prop :=
  ∀ input ∈ job.inputs, ∀ t, openTable s.vmgr.db_dir s.dir input.file.file_name = some t →
    reader input.file.file_name = t.records.filter fun r => scanned r.key

/-- The reader handed to `Run` returns every entry of each input file. -/
def ReaderComplete (s : Store) (job : CompactionJob) (reader : Bytes → List Record) : Prop :=
  ∀ input ∈ job.inputs, ∀ t, openTable s.vmgr.db_dir s.dir input.file.file_name = some t →
    reader input.file.file_name = t.records

theorem ReaderComplete.scans {s : Store} {job : CompactionJob} {reader : Bytes → List Record}
    (h : ReaderComplete s job reader) : ReaderScans (fun _ => true) s job reader := by
  intro input hi t ht
  rw [h input hi t ht]
  exact (List.filter_true _).symm

theorem StoreInv.output_level {s : Store} {run : CompactionRun} (h : StoreInv scanned s)
    (hrun : s.compaction = some run) : ¬ (kMaxLevel : ℤ) ≤ run.work.job.output_level := by
  obtain ⟨u, v, p, upper, newer, hshape, -⟩ := h.run run hrun
  have := v.isLt
  rw [hshape.output]
  omega

theorem storeInv_afterRead {s : Store} {run : CompactionRun} {reader : Bytes → List Record}
    {merged : List Record} {result : CompactionResult} (h : StoreInv scanned s)
    (hrun : s.compaction = some run) (hrest : run.rest = none)
    (hreader : ReaderScans scanned s run.work.job reader)
    (hinputs : runInputs run.work.job reader (fun r => keepRecordForCompaction r run.work.ttl_snapshot) =
      .ok (merged, result)) : StoreInv scanned (s.afterRead run merged result) := by
  obtain ⟨u, v, p, upper, newer, hshape, hstate⟩ := h.run run hrun
  unfold RunState at hstate
  rw [hrest] at hstate
  obtain ⟨rfl, rfl⟩ := runInputs_ok hinputs
  have hall : (run.work.job.inputs.filter fun input => (levelIndex input.level).isSome) =
      run.work.job.inputs := by
    apply List.filter_eq_self.mpr
    intro input hi
    obtain ⟨l, hl, -⟩ := hshape.mem_input hi
    rw [hl, levelIndex_val]
    rfl
  have hrecords : (run.work.job.inputs.map fun input => reader input.file.file_name) =
      (run.work.job.inputs.map fun input => s.tableAt input.file).map
        fun t => t.records.filter fun r => scanned r.key := by
    rw [List.map_map]
    apply List.map_congr_left
    intro input hi
    obtain ⟨l, -, hf⟩ := hshape.mem_input hi
    exact hreader input hi _ (h.live l _ hf).disk
  refine h.change_run rfl rfl rfl rfl rfl ?_ (h.in_progress.trans (by rw [hrun]; rfl))
    (h.compacting.trans (by rw [hrun]; rfl)) ?_
  · rw [Store.unpublished, Store.unpublished, hrun, Option.map_some, hstate]
    rfl
  · intro run' hrun'
    obtain rfl := Option.some.inj hrun'
    refine ⟨u, v, p, upper, newer, hshape.congr rfl hshape.upper_eq hshape.whole
      fun _ _ _ => rfl, [], ⟨?_, rfl, rfl, ?_, ascending_nil, ?_⟩, ?_⟩
    · change (List.filter _ _).map _ = _
      rw [hall]
    · intro o ho
      contradiction
    · intro o ho
      contradiction
    · rw [hrecords]
      apply isMerge_mergeRecords
      intro t ht
      obtain ⟨input, hi, rfl⟩ := List.mem_map.mp ht
      obtain ⟨l, -, hf⟩ := hshape.mem_input hi
      exact (h.live l _ hf).ascending

theorem findReader_append_of_some {rs : List TableReader} {path : Bytes} {r : TableReader}
    (h : findReader rs path = some r) (more : List TableReader) :
    findReader (rs ++ more) path = some r := by
  rw [findReader, List.find?_append]
  rw [findReader] at h
  rw [h]
  rfl

theorem findReader_append_of_none {rs : List TableReader} {path : Bytes}
    (h : ∀ r ∈ rs, r.file_name ≠ path) (more : List TableReader) :
    findReader (rs ++ more) path = findReader more path := by
  have hnone : findReader rs path = none := by
    rw [findReader, List.find?_eq_none]
    intro r hr
    simpa using h r hr
  rw [findReader, List.find?_append]
  rw [findReader] at hnone
  rw [hnone]
  rfl

theorem StoreInv.no_reader {s : Store} (h : StoreInv scanned s) {n : ℕ} (hn : n ∈ s.unpublished) :
    ∀ r ∈ s.sst_readers, r.file_name ≠ s.vmgr.newFileName n := by
  intro r hr heq
  obtain ⟨m, hm, hname⟩ := h.readers r hr
  rw [hname] at heq
  exact hm.2 (newFileName_injective _ heq ▸ hn)

theorem flushEdit_level {vm : VersionManager} (hord : vm.current.Ordered) {file : FileMeta}
    (hnew : ∀ f ∈ vm.current.level_files 0, f.file_number < file.file_number) (l : Fin kMaxLevel) :
    (vm.applyUnlocked (flushEdit file)).current.level_files l =
      vm.current.level_files l ++ if l = 0 then [file] else [] := by
  rw [applyUnlocked_level, flushEdit, addedAt_single]
  have hkeep : (vm.current.level_files l).filter (fun f =>
      !VersionEdit.deletes ⟨[(0, file)], []⟩ l f.file_number) = vm.current.level_files l :=
    List.filter_eq_self.mpr fun f _ => by simp [VersionEdit.deletes]
  rw [hkeep]
  apply sortBy_eq_of_ascending
  refine ascending_append.mpr ⟨hord l, ?_, ?_⟩
  · split_ifs
    · exact List.pairwise_singleton _ _
    · exact ascending_nil
  · intro f hf g hg
    split_ifs at hg with hl
    · rw [List.mem_singleton.mp hg]
      exact hnew f (hl ▸ hf)
    · contradiction

theorem mem_flushEdit {vm : VersionManager} (hord : vm.current.Ordered) {file : FileMeta}
    (hnew : ∀ f ∈ vm.current.level_files 0, f.file_number < file.file_number) {l : Fin kMaxLevel}
    {f : FileMeta} (hf : f ∈ (vm.applyUnlocked (flushEdit file)).current.level_files l) :
    f ∈ vm.current.level_files l ∨ l = 0 ∧ f = file := by
  rw [flushEdit_level hord hnew] at hf
  rcases List.mem_append.mp hf with hf | hf
  · exact Or.inl hf
  · split_ifs at hf with hl
    · exact Or.inr ⟨hl, List.mem_singleton.mp hf⟩
    · contradiction

def Store.flushFile (s : Store) (n : ℕ) (t : SSTable) : FileMeta := t.fileMeta n (s.vmgr.newFileName n)

/-- The store once the built table `t` is committed as file `n`. -/
def Store.afterFlush (s : Store) (n : ℕ) (t : SSTable) : Store :=
  { s with
    vmgr := s.vmgr.applyUnlocked (flushEdit (s.flushFile n t))
    files := (s.vmgr.logAndApply s.files (flushEdit (s.flushFile n t))).2
    sst_readers := s.sst_readers ++ [⟨s.vmgr.newFileName n, t⟩]
    built := none
    flushed := t.entries :: s.flushed }

theorem commitFlush_eq {s s' : Store} (h : StoreInv scanned s) (hs : s.commitFlush = some s') :
    ∃ n t, s.built = some (n, t) ∧ s' = s.afterFlush n t := by
  unfold Store.commitFlush at hs
  cases hb : s.built with
  | none => rw [hb] at hs; contradiction
  | some b =>
    rw [hb] at hs
    refine ⟨b.1, b.2, rfl, ?_⟩
    rw [← Option.some.inj hs]
    simp only [Store.logAndApply, logAndApply_vm h.name_eq]
    rfl

section
variable {s : Store} (h : StoreInv scanned s) {n : ℕ} {t : SSTable} (hb : s.built = some (n, t))
include h hb

theorem afterFlush_level (l : Fin kMaxLevel) :
    (s.afterFlush n t).vmgr.current.level_files l =
      s.vmgr.current.level_files l ++ if l = 0 then [s.flushFile n t] else [] :=
  flushEdit_level h.ordered (h.built n t hb).2.2 l

theorem mem_afterFlush {l : Fin kMaxLevel} {f : FileMeta}
    (hf : f ∈ (s.afterFlush n t).vmgr.current.level_files l) :
    f ∈ s.vmgr.current.level_files l ∨ l = 0 ∧ f = s.flushFile n t :=
  mem_flushEdit h.ordered (h.built n t hb).2.2 hf

theorem afterFlush_next : (s.afterFlush n t).vmgr.next_file_number = s.vmgr.next_file_number := by
  have hn := h.unpublished_lt n (mem_unpublished_built hb)
  refine (applyUnlocked_next _ _).trans (bumpLast_of_lt fun a ha => ?_)
  rw [List.mem_singleton.mp ha]
  exact hn

omit h hb in
theorem afterFlush_db_dir : (s.afterFlush n t).vmgr.db_dir = s.vmgr.db_dir :=
  applyUnlocked_db_dir _ _

omit h hb in
theorem afterFlush_path (m : ℕ) : (s.afterFlush n t).vmgr.newFileName m = s.vmgr.newFileName m := by
  rw [VersionManager.newFileName, afterFlush_db_dir]
  rfl

omit hb in
theorem afterFlush_find {l : Fin kMaxLevel} {f : FileMeta} (hf : f ∈ s.vmgr.current.level_files l) :
    findReader (s.afterFlush n t).sst_readers f.file_name = findReader s.sst_readers f.file_name := by
  rw [(h.live l f hf).reader]
  exact findReader_append_of_some (h.live l f hf).reader _

theorem afterFlush_find_new :
    findReader (s.afterFlush n t).sst_readers (s.flushFile n t).file_name =
      some ⟨(s.flushFile n t).file_name, t⟩ := by
  refine (findReader_append_of_none (h.no_reader (mem_unpublished_built hb)) _).trans ?_
  simp [findReader, Store.flushFile, SSTable.fileMeta]

omit hb in
theorem afterFlush_tableAt {l : Fin kMaxLevel} {f : FileMeta}
    (hf : f ∈ s.vmgr.current.level_files l) : (s.afterFlush n t).tableAt f = s.tableAt f :=
  tableAt_congr (afterFlush_find h hf)

theorem afterFlush_tableAt_new : (s.afterFlush n t).tableAt (s.flushFile n t) = t := by
  rw [Store.tableAt, afterFlush_find_new h hb]
  rfl

omit h in
theorem afterFlush_unpublished : s.unpublished = n :: (s.afterFlush n t).unpublished := by
  rw [Store.unpublished, Store.unpublished, hb]
  rfl

theorem afterFlush_not_mem : n ∉ (s.afterFlush n t).unpublished := by
  have hnodup := h.unpublished_nodup
  rw [afterFlush_unpublished hb, List.nodup_cons] at hnodup
  exact hnodup.1

theorem afterFlush_settled {m : ℕ} (hm : s.Settled m) : (s.afterFlush n t).Settled m := by
  refine ⟨?_, fun hmem => hm.2 ?_⟩
  · rw [afterFlush_next h hb]
    exact hm.1
  · rw [afterFlush_unpublished hb]
    exact List.mem_cons_of_mem n hmem

/-- A flush commit puts the new file behind all of L0 and moves nothing else. -/
theorem storeInv_afterFlush : StoreInv scanned (s.afterFlush n t) := by
  obtain ⟨hopen, hasc, hzero⟩ := h.built n t hb
  have hunp := mem_unpublished_built hb
  have hfree := h.unpublished_new n hunp
  have hsub : ∀ m ∈ (s.afterFlush n t).unpublished, m ∈ s.unpublished := by
    intro m hm
    rw [afterFlush_unpublished hb]
    exact List.mem_cons_of_mem n hm
  refine ⟨?_, ?_, ?_, ?_, ?_, ?_, ?_, ?_, ?_, ?_, ?_, fun m t' hbuilt => ?_, h.in_progress,
    h.compacting, ?_⟩
  · rw [afterFlush_db_dir, ← h.name_eq]
    exact applyUnlocked_manifest_name _ _
  · intro l
    rw [afterFlush_level h hb]
    refine ascending_append.mpr ⟨h.ordered l, ?_, fun f hf g hg => ?_⟩
    · split_ifs
      · exact List.pairwise_singleton _ _
      · exact ascending_nil
    · split_ifs at hg with hl
      · rw [List.mem_singleton.mp hg]
        exact hzero f (hl ▸ hf)
      · contradiction
  · intro l f hf
    rw [afterFlush_next h hb]
    rcases mem_afterFlush h hb hf with hf | ⟨-, rfl⟩
    · exact h.below l f hf
    · exact h.unpublished_lt n hunp
  · intro l f hf
    rcases mem_afterFlush h hb hf with hf | ⟨-, rfl⟩
    · exact (h.live l f hf).congr afterFlush_db_dir (afterFlush_find h hf) rfl
    · refine ⟨(afterFlush_path n).symm, ?_, ?_, ?_, ?_⟩
      · rw [afterFlush_find_new h hb, afterFlush_tableAt_new h hb]
      · rw [afterFlush_tableAt_new h hb, afterFlush_db_dir]
        exact hopen
      · rw [afterFlush_tableAt_new h hb]; rfl
      · rw [afterFlush_tableAt_new h hb]; exact hasc
  · intro l f hf l' f' hf' heq
    rcases mem_afterFlush h hb hf with hf | ⟨rfl, rfl⟩
    · rcases mem_afterFlush h hb hf' with hf' | ⟨rfl, rfl⟩
      · exact h.one_level l f hf l' f' hf' heq
      · exact absurd heq (hfree l f hf)
    · rcases mem_afterFlush h hb hf' with hf' | ⟨rfl, rfl⟩
      · exact absurd heq.symm (hfree l' f' hf')
      · rfl
  · intro key
    rw [afterFlush_level h hb, if_neg (by decide), List.append_nil,
      versionsIn_congr (s := s) fun f hf => afterFlush_tableAt h hf]
    exact h.level_one key
  · intro r hr
    rcases List.mem_append.mp hr with hr | hr
    · obtain ⟨m, hm, hname⟩ := h.readers r hr
      exact ⟨m, afterFlush_settled h hb hm, hname.trans (afterFlush_path m).symm⟩
    · rw [List.mem_singleton.mp hr]
      refine ⟨n, ⟨?_, afterFlush_not_mem h hb⟩, (afterFlush_path n).symm⟩
      rw [afterFlush_next h hb]
      exact h.unpublished_lt n hunp
  · intro name hname
    have hold : name ∈ s.vmgr.obsolete_files ++ s.pending_delete.map PendingDelete.file_name := by
      rcases List.mem_append.mp hname with hname | hname
      · rcases mem_applyUnlocked_obsolete hname with hname | ⟨l, f, -, hdel, -⟩
        · exact List.mem_append_left _ hname
        · simp [VersionEdit.deletes, flushEdit] at hdel
      · exact List.mem_append_right _ hname
    obtain ⟨m, hm, hgone, heq⟩ := h.retired name hold
    refine ⟨m, afterFlush_settled h hb hm, fun l f hf => ?_, heq.trans (afterFlush_path m).symm⟩
    rcases mem_afterFlush h hb hf with hf | ⟨-, rfl⟩
    · exact hgone l f hf
    · intro hnm
      exact hm.2 (hnm ▸ hunp)
  · intro m hm
    rw [afterFlush_next h hb]
    exact h.unpublished_lt m (hsub m hm)
  · intro m hm l f hf
    rcases mem_afterFlush h hb hf with hf | ⟨-, rfl⟩
    · exact h.unpublished_new m (hsub m hm) l f hf
    · intro hnm
      have hnm' : n = m := hnm
      exact afterFlush_not_mem h hb (hnm' ▸ hm)
  · have hnodup := h.unpublished_nodup
    rw [afterFlush_unpublished hb] at hnodup
    exact (List.nodup_cons.mp hnodup).2
  · contradiction
  · intro run hrun
    refine (h.run run hrun).congr afterFlush_db_dir (fun l hl => ?_) (m := [s.flushFile n t]) ?_
      (fun l f hf => afterFlush_tableAt h hf) fun _ _ => rfl
    · rw [afterFlush_level h hb, if_neg (fun he => hl (congrArg Fin.val he)), List.append_nil]
    · rw [afterFlush_level h hb, if_pos rfl]

/-- A search meets the flushed version first, then what it met before. -/
theorem met_afterFlush (key : TsKey) :
    (s.afterFlush n t).met key = (t.getEntry key).toList ++ s.met key := by
  have hversions : ∀ l : Fin kMaxLevel,
      (s.afterFlush n t).versionsIn (s.vmgr.current.level_files l) key =
        s.versionsIn (s.vmgr.current.level_files l) key :=
    fun l => versionsIn_congr (fun f hf => afterFlush_tableAt h hf) key
  have hrest : ((List.finRange kMaxLevel).tail.flatMap fun l =>
      (s.afterFlush n t).versionsIn ((s.afterFlush n t).vmgr.current.level_files l) key) =
      (List.finRange kMaxLevel).tail.flatMap fun l =>
        s.versionsIn (s.vmgr.current.level_files l) key := by
    apply List.flatMap_congr
    intro l hl
    have hne : ∀ l ∈ (List.finRange kMaxLevel).tail, l ≠ 0 := by decide
    rw [afterFlush_level h hb, if_neg (hne l hl), List.append_nil, hversions]
  have hsplit : List.finRange kMaxLevel = 0 :: (List.finRange kMaxLevel).tail := rfl
  rw [Store.met, Store.met, hsplit, List.flatMap_cons, List.flatMap_cons, hrest,
    afterFlush_level h hb, if_pos rfl, versionsIn_append, hversions, List.append_assoc,
    Store.versionsIn, List.map_singleton, versionsOf_singleton, afterFlush_tableAt_new h hb]

end

def Store.others (s : Store) (job : CompactionJob) (l : Fin kMaxLevel) : List FileMeta :=
  (s.vmgr.current.level_files l).filter fun f =>
    !job.inputs.any fun input => input.level == l.val && input.file.file_number == f.file_number

/-- The versions of a key in the inputs of a job, and the ones that a search meets before
and after them. -/
def Store.inputVersions (s : Store) (job : CompactionJob) (key : TsKey) : List InternalEntry :=
  versionsOf (job.inputs.map fun input => s.tableAt input.file) key

def Store.newer (s : Store) (job : CompactionJob) (key : TsKey) : List InternalEntry :=
  ((List.finRange kMaxLevel).filter fun l => (l.val : ℤ) < job.output_level).flatMap fun l =>
    s.versionsIn (s.others job l) key

def Store.deeper (s : Store) (job : CompactionJob) (key : TsKey) : List InternalEntry :=
  ((List.finRange kMaxLevel).filter fun l => job.output_level ≤ (l.val : ℤ)).flatMap fun l =>
    s.versionsIn (s.others job l) key

/-- The store once a run is committed, before any cleanup. -/
def Store.afterCompaction (s : Store) (run : CompactionRun) : Store :=
  { s with
    vmgr := s.vmgr.applyUnlocked run.result.edit
    files := (s.vmgr.logAndApply s.files run.result.edit).2
    sst_readers := s.sst_readers ++ run.result.new_readers
    compaction := none
    compaction_in_progress := false
    compacting_files := s.compacting_files.filter fun n => !run.work.job.numbers.contains n }

section
variable {s : Store} (h : StoreInv scanned s) {run : CompactionRun} (hrun : s.compaction = some run)
  {u v : Fin kMaxLevel} {p : FileMeta → Bool} {upper newer : List FileMeta}
  (hshape : JobShape s run.work.job u v p upper newer) {outs : List (FileMeta × SSTable)}
  (houts : Outputs s run v outs)

include hshape houts in
theorem edit_deletes (l : Fin kMaxLevel) (n : ℕ) :
    run.result.edit.deletes l n = true ↔
      (l = v ∧ ∃ f ∈ (s.vmgr.current.level_files v).filter p, f.file_number = n) ∨
        (l = u ∧ ∃ f ∈ upper, f.file_number = n) := by
  have hsome : ∀ l' : Fin kMaxLevel, (levelIndex (l'.val : ℤ) == some l) = true ↔ l = l' := by
    intro l'
    rw [levelIndex_val, beq_iff_eq, Option.some_inj, eq_comm]
  rw [VersionEdit.deletes, houts.deleted, List.any_map, hshape.inputs, List.any_append,
    List.any_map, List.any_map, Bool.or_eq_true]
  simp only [List.any_eq_true, Function.comp_apply, Bool.and_eq_true, hsome, beq_iff_eq]
  refine or_congr ⟨?_, ?_⟩ ⟨?_, ?_⟩
  all_goals intro hx
  · obtain ⟨f, hf, hl, hn⟩ := hx
    exact ⟨hl, f, hf, hn⟩
  · obtain ⟨hl, f, hf, hn⟩ := hx
    exact ⟨f, hf, hl, hn⟩
  · obtain ⟨f, hf, hl, hn⟩ := hx
    exact ⟨hl, f, hf, hn⟩
  · obtain ⟨hl, f, hf, hn⟩ := hx
    exact ⟨f, hf, hl, hn⟩

include hshape houts in
theorem edit_addedAt (l : Fin kMaxLevel) :
    run.result.edit.addedAt l = if l = v then outs.map Prod.fst else [] := by
  have hlevel : (fun a : ℤ × FileMeta => levelIndex a.1 == some l) ∘
      (fun o : FileMeta × SSTable => ((v.val : ℤ), o.1)) = fun _ => decide (l = v) := by
    funext o
    rw [Function.comp_apply, levelIndex_val, Bool.eq_iff_iff, beq_iff_eq, Option.some_inj,
      decide_eq_true_iff, eq_comm]
  rw [VersionEdit.addedAt, houts.added, hshape.output, List.filter_map, hlevel]
  split_ifs with hl
  · simp [hl, Function.comp_def]
  · simp [hl]

include hshape in
theorem level_ne : u ≠ v := by
  intro he
  have := hshape.next_level
  rw [he] at this
  omega

include hshape in
theorem level_lt : u < v := by
  rw [Fin.lt_def, hshape.next_level]
  exact Nat.lt_succ_self _

include houts in
theorem others_eq (l : Fin kMaxLevel) :
    s.others run.work.job l =
      (s.vmgr.current.level_files l).filter fun f => !run.result.edit.deletes l f.file_number := by
  rw [Store.others]
  apply List.filter_congr
  intro f _
  rw [VersionEdit.deletes, houts.deleted, List.any_map]
  congr 1
  apply List.any_congr rfl
  intro input
  congr 1
  rw [Bool.eq_iff_iff, beq_iff_eq, beq_iff_eq, levelIndex_eq_iff]

include h hshape houts in
theorem kept_level (l : Fin kMaxLevel) :
    (s.vmgr.current.level_files l).filter (fun f => !run.result.edit.deletes l f.file_number) =
      if l = u then newer
      else if l = v then (s.vmgr.current.level_files v).filter fun f => !p f
      else s.vmgr.current.level_files l := by
  have hne := level_ne hshape
  split_ifs with hu hv
  · subst hu
    have hord := h.ordered l
    rw [hshape.upper_eq] at hord ⊢
    have hupper : upper.filter (fun f => !run.result.edit.deletes l f.file_number) = [] := by
      rw [List.filter_eq_nil_iff]
      intro f hf
      rw [(edit_deletes hshape houts l f.file_number).mpr (Or.inr ⟨rfl, f, hf, rfl⟩)]
      simp
    have hnewer : newer.filter (fun f => !run.result.edit.deletes l f.file_number) = newer := by
      apply List.filter_eq_self.mpr
      intro f hf
      rw [Bool.not_eq_true', Bool.eq_false_iff]
      intro hdel
      rcases (edit_deletes hshape houts l f.file_number).mp hdel with ⟨hl, -⟩ | ⟨-, g, hg, hn⟩
      · exact hne hl
      · exact ((ascending_append.mp hord).2.2 g hg f hf).ne hn
    rw [List.filter_append, hupper, hnewer, List.nil_append]
  · subst hv
    apply List.filter_congr
    intro f hf
    congr 1
    rw [Bool.eq_iff_iff, edit_deletes hshape houts]
    refine ⟨?_, fun hp => Or.inl ⟨rfl, f, List.mem_filter.mpr ⟨hf, hp⟩, rfl⟩⟩
    intro hx
    rcases hx with ⟨-, g, hg, hn⟩ | ⟨hl, -⟩
    · obtain ⟨hg, hp⟩ := List.mem_filter.mp hg
      rw [(h.ordered l).inj hg hf hn] at hp
      exact hp
    · exact absurd hl hu
  · apply List.filter_eq_self.mpr
    intro f _
    rw [Bool.not_eq_true', Bool.eq_false_iff]
    intro hdel
    rcases (edit_deletes hshape houts l f.file_number).mp hdel with ⟨hl, -⟩ | ⟨hl, -⟩
    · exact hv hl
    · exact hu hl

include h hshape houts in
theorem afterCompaction_level (l : Fin kMaxLevel) :
    (s.afterCompaction run).vmgr.current.level_files l =
      if l = u then newer
      else if l = v then ((s.vmgr.current.level_files v).filter fun f => !p f) ++ outs.map Prod.fst
      else s.vmgr.current.level_files l := by
  have hne := level_ne hshape
  refine (applyUnlocked_level s.vmgr run.result.edit l).trans ?_
  rw [kept_level h hshape houts, edit_addedAt hshape houts]
  have hkept := (h.ordered l).filter fun f => !run.result.edit.deletes l f.file_number
  rw [kept_level h hshape houts] at hkept
  split_ifs at hkept ⊢ with hu hv hv
  · exact absurd (hu.symm.trans hv) hne
  · rw [List.append_nil]
    exact sortBy_eq_of_ascending hkept
  · apply sortBy_eq_of_ascending
    refine ascending_append.mpr ⟨hkept, List.pairwise_map.mpr houts.numbers, ?_⟩
    intro f hf g hg
    obtain ⟨o, ho, rfl⟩ := List.mem_map.mp hg
    exact houts.above o ho f (List.mem_of_mem_filter hf)
  · rw [List.append_nil]
    exact sortBy_eq_of_ascending hkept

omit h in
include hshape houts in
/-- A file of the new version was there before and is no input, or is an output. -/
theorem mem_afterCompaction {l : Fin kMaxLevel} {f : FileMeta}
    (hf : f ∈ (s.afterCompaction run).vmgr.current.level_files l) :
    (f ∈ s.vmgr.current.level_files l ∧ run.result.edit.deletes l f.file_number = false) ∨
      l = v ∧ ∃ t, (f, t) ∈ outs := by
  rcases mem_applyUnlocked.mp hf with hf | hf
  · exact Or.inl hf
  · rw [edit_addedAt hshape houts] at hf
    split_ifs at hf with hl
    · obtain ⟨o, ho, rfl⟩ := List.mem_map.mp hf
      exact Or.inr ⟨hl, o.2, ho⟩
    · contradiction

include hrun houts in
theorem output_unpublished {o : FileMeta × SSTable} (ho : o ∈ outs) :
    o.1.file_number ∈ s.unpublished := by
  apply mem_unpublished_run hrun
  rw [mem_addedNumbers_out houts]
  exact List.mem_map_of_mem ho

include h hrun houts in
theorem afterCompaction_next :
    (s.afterCompaction run).vmgr.next_file_number = s.vmgr.next_file_number := by
  refine (applyUnlocked_next _ _).trans (bumpLast_of_lt fun a ha => ?_)
  rw [houts.added] at ha
  obtain ⟨o, ho, rfl⟩ := List.mem_map.mp ha
  exact h.unpublished_lt _ (output_unpublished hrun houts ho)

theorem afterCompaction_db_dir : (s.afterCompaction run).vmgr.db_dir = s.vmgr.db_dir :=
  applyUnlocked_db_dir _ _

theorem afterCompaction_path (m : ℕ) :
    (s.afterCompaction run).vmgr.newFileName m = s.vmgr.newFileName m := by
  rw [VersionManager.newFileName, afterCompaction_db_dir]
  rfl

include h in
theorem afterCompaction_find {l : Fin kMaxLevel} {f : FileMeta}
    (hf : f ∈ s.vmgr.current.level_files l) :
    findReader (s.afterCompaction run).sst_readers f.file_name =
      findReader s.sst_readers f.file_name := by
  rw [(h.live l f hf).reader]
  exact findReader_append_of_some (h.live l f hf).reader _

include h in
theorem afterCompaction_tableAt {l : Fin kMaxLevel} {f : FileMeta}
    (hf : f ∈ s.vmgr.current.level_files l) : (s.afterCompaction run).tableAt f = s.tableAt f :=
  tableAt_congr (afterCompaction_find h hf)

include h hrun houts in
theorem afterCompaction_find_out {o : FileMeta × SSTable} (ho : o ∈ outs) :
    findReader (s.afterCompaction run).sst_readers o.1.file_name = some ⟨o.1.file_name, o.2⟩ := by
  have hpath := (houts.ready o ho).path
  refine (findReader_append_of_none ?_ _).trans ?_
  · rw [hpath]
    exact h.no_reader (output_unpublished hrun houts ho)
  · rw [houts.readers, findReader, List.find?_map]
    have hfind : outs.find? ((fun r : TableReader => r.file_name == o.1.file_name) ∘
        fun o => ⟨o.1.file_name, o.2⟩) = some o := by
      cases hf : outs.find? ((fun r : TableReader => r.file_name == o.1.file_name) ∘
          fun o => ⟨o.1.file_name, o.2⟩) with
      | none => simpa using List.find?_eq_none.mp hf o ho
      | some o' =>
        have ho' := List.mem_of_find?_eq_some hf
        have hname : o'.1.file_name = o.1.file_name := by simpa using List.find?_some hf
        rw [hpath, (houts.ready o' ho').path] at hname
        rw [houts.numbers.inj ho' ho (newFileName_injective _ hname)]
    rw [hfind]
    rfl

include h hrun houts in
theorem afterCompaction_tableAt_out {o : FileMeta × SSTable} (ho : o ∈ outs) :
    (s.afterCompaction run).tableAt o.1 = o.2 := by
  rw [Store.tableAt, afterCompaction_find_out h hrun houts ho]
  rfl

include hrun in
theorem afterCompaction_unpublished :
    s.unpublished = (s.afterCompaction run).unpublished ++ run.result.edit.addedNumbers := by
  rw [Store.unpublished, Store.unpublished, hrun]
  simp [Store.afterCompaction]

include hrun in
theorem afterCompaction_sub {m : ℕ} (hm : m ∈ (s.afterCompaction run).unpublished) :
    m ∈ s.unpublished := by
  rw [afterCompaction_unpublished hrun]
  exact List.mem_append_left _ hm

include h hrun houts in
theorem afterCompaction_not_mem {o : FileMeta × SSTable} (ho : o ∈ outs) :
    o.1.file_number ∉ (s.afterCompaction run).unpublished := by
  have hnodup := h.unpublished_nodup
  rw [afterCompaction_unpublished hrun, List.nodup_append] at hnodup
  intro hm
  refine hnodup.2.2 _ hm o.1.file_number ?_ rfl
  rw [mem_addedNumbers_out houts]
  exact List.mem_map_of_mem ho

include h hrun houts in
theorem afterCompaction_settled {m : ℕ} (hm : s.Settled m) : (s.afterCompaction run).Settled m := by
  refine ⟨?_, fun hmem => hm.2 (afterCompaction_sub hrun hmem)⟩
  rw [afterCompaction_next h hrun houts]
  exact hm.1

include h hrun hshape houts in
/-- What the new levels hold of a key: on the job's upper level what came after the pick,
on the lower one the outputs before the files the job left alone. -/
theorem afterCompaction_versions (l : Fin kMaxLevel) (key : TsKey) :
    (s.afterCompaction run).versionsIn ((s.afterCompaction run).vmgr.current.level_files l) key =
      if l = u then s.versionsIn newer key
      else if l = v then versionsOf (outs.map Prod.snd) key ++
        s.versionsIn ((s.vmgr.current.level_files v).filter fun f => !p f) key
      else s.versionsIn (s.vmgr.current.level_files l) key := by
  rw [afterCompaction_level h hshape houts]
  split_ifs with hu hv
  · apply versionsIn_congr
    intro f hf
    exact afterCompaction_tableAt h (l := u) (hshape.upper_eq ▸ List.mem_append_right upper hf)
  · rw [versionsIn_append]
    congr 1
    · rw [Store.versionsIn, List.map_map]
      congr 1
      apply List.map_congr_left
      intro o ho
      exact afterCompaction_tableAt_out h hrun houts ho
    · apply versionsIn_congr
      intro f hf
      exact afterCompaction_tableAt h (List.mem_of_mem_filter hf)
  · exact versionsIn_congr (fun f hf => afterCompaction_tableAt h hf) key

include hshape in
theorem inputs_versions (key : TsKey) :
    s.inputVersions run.work.job key =
      s.versionsIn ((s.vmgr.current.level_files v).filter p ++ upper) key := by
  rw [Store.inputVersions, hshape.inputs, Store.versionsIn, List.map_append, List.map_append,
    List.map_map, List.map_map]
  rfl

/-- The versions of a key that a run with this filter leaves of those in its inputs. -/
def leftOver (keeps : TsKey → Bool) (key : TsKey) (versions : List InternalEntry) : List InternalEntry :=
  if keeps key then versions.head?.toList else []

theorem leftOver_sublist (keeps : TsKey → Bool) (key : TsKey) (versions : List InternalEntry) :
    (leftOver keeps key versions).Sublist versions := by
  rw [leftOver]
  split_ifs
  · cases versions with
    | nil => exact List.Sublist.refl _
    | cons e versions => exact List.singleton_sublist.mpr List.mem_cons_self
  · exact List.nil_sublist _

theorem outputs_versions
    (hmerge : IsMerge (run.keeps scanned)
      (run.work.job.inputs.map fun input => s.tableAt input.file) (outs.flatMap fun o => o.2.entries))
    (key : TsKey) : versionsOf (outs.map Prod.snd) key =
      leftOver (run.keeps scanned) key (s.inputVersions run.work.job key) := by
  have hflat : (outs.map Prod.snd).flatMap SSTable.entries = outs.flatMap fun o => o.2.entries :=
    List.flatMap_map ..
  rw [versionsOf_flatten (by rw [hflat]; exact hmerge.ascending), hflat, hmerge.lookup, leftOver,
    Store.inputVersions]
  split_ifs <;> rfl

theorem levels_split {u v : Fin kMaxLevel} (h : v.val = u.val + 1) :
    ∃ above below, List.finRange kMaxLevel = above ++ u :: v :: below ∧
      (∀ l ∈ above, l < u) ∧ ∀ l ∈ below, v < l := by
  have hsplit : ∀ u v : Fin kMaxLevel, v.val = u.val + 1 → List.finRange kMaxLevel =
      (List.finRange kMaxLevel).take u.val ++ u :: v :: (List.finRange kMaxLevel).drop (v.val + 1) := by
    decide
  have habove : ∀ u : Fin kMaxLevel, ∀ l ∈ (List.finRange kMaxLevel).take u.val, l < u := by decide
  have hbelow : ∀ v : Fin kMaxLevel, ∀ l ∈ (List.finRange kMaxLevel).drop (v.val + 1), v < l := by
    decide
  exact ⟨_, _, hsplit u v h, habove u, hbelow v⟩

include h hshape houts in
theorem newer_deeper_eq {above below : List (Fin kMaxLevel)}
    (hsplit : List.finRange kMaxLevel = above ++ u :: v :: below)
    (habove : ∀ l ∈ above, l < u) (hbelow : ∀ l ∈ below, v < l) (key : TsKey) :
    s.newer run.work.job key =
        above.flatMap (fun l => s.versionsIn (s.vmgr.current.level_files l) key) ++
          s.versionsIn newer key ∧
      s.deeper run.work.job key =
        s.versionsIn ((s.vmgr.current.level_files v).filter fun f => !p f) key ++
          below.flatMap fun l => s.versionsIn (s.vmgr.current.level_files l) key := by
  have hlt := level_lt hshape
  have hothers : ∀ l, s.others run.work.job l = if l = u then newer
      else if l = v then (s.vmgr.current.level_files v).filter fun f => !p f
      else s.vmgr.current.level_files l :=
    fun l => (others_eq houts l).trans (kept_level h hshape houts l)
  have hfar : ∀ ls : List (Fin kMaxLevel), (∀ l ∈ ls, l ≠ u ∧ l ≠ v) →
      (ls.flatMap fun l => s.versionsIn (s.others run.work.job l) key) =
        ls.flatMap fun l => s.versionsIn (s.vmgr.current.level_files l) key := by
    intro ls hls
    apply List.flatMap_congr
    intro l hl
    rw [hothers, if_neg (hls l hl).1, if_neg (hls l hl).2]
  have hlevel : ∀ l : Fin kMaxLevel, (l.val : ℤ) < run.work.job.output_level ↔ l < v := by
    intro l
    rw [hshape.output, Nat.cast_lt, Fin.lt_def]
  have hup : ((List.finRange kMaxLevel).filter fun l => (l.val : ℤ) < run.work.job.output_level) =
      above ++ [u] := by
    have hrest : ((v :: below).filter fun l => (l.val : ℤ) < run.work.job.output_level) = [] := by
      apply List.filter_eq_nil_iff.mpr
      intro l hl
      rw [decide_eq_true_iff, hlevel, not_lt]
      rcases List.mem_cons.mp hl with rfl | hl
      · exact le_rfl
      · exact (hbelow l hl).le
    rw [hsplit, List.filter_append, List.filter_cons_of_pos (by simpa [hlevel] using hlt), hrest,
      List.filter_eq_self.mpr fun l hl => by simpa [hlevel] using (habove l hl).trans hlt]
  have hdown : ((List.finRange kMaxLevel).filter fun l => run.work.job.output_level ≤ (l.val : ℤ)) =
      v :: below := by
    have hfirst : ((above ++ [u]).filter fun l => run.work.job.output_level ≤ (l.val : ℤ)) = [] := by
      apply List.filter_eq_nil_iff.mpr
      intro l hl
      rw [decide_eq_true_iff, not_le, hlevel]
      rcases List.mem_append.mp hl with hl | hl
      · exact (habove l hl).trans hlt
      · rw [List.mem_singleton.mp hl]
        exact hlt
    rw [hsplit, List.append_cons, List.filter_append, hfirst, List.nil_append]
    apply List.filter_eq_self.mpr
    intro l hl
    rw [decide_eq_true_iff, ← not_lt, hlevel, not_lt]
    rcases List.mem_cons.mp hl with rfl | hl
    · exact le_rfl
    · exact (hbelow l hl).le
  rw [Store.newer, Store.deeper, hup, hdown, List.flatMap_append, List.flatMap_singleton,
    List.flatMap_cons, hothers u, if_pos rfl, hothers v, if_neg hlt.ne', if_pos rfl,
    hfar above fun l hl => ⟨(habove l hl).ne, ((habove l hl).trans hlt).ne⟩,
    hfar below fun l hl => ⟨(hlt.trans (hbelow l hl)).ne', (hbelow l hl).ne'⟩]
  exact ⟨rfl, rfl⟩

include h hrun hshape houts in
/-- A commit replaces, in what a search meets, the versions of the inputs by what the run
left of them. -/
theorem met_afterCompaction
    (hmerge : IsMerge (run.keeps scanned)
      (run.work.job.inputs.map fun input => s.tableAt input.file) (outs.flatMap fun o => o.2.entries))
    (key : TsKey) :
    s.met key = s.newer run.work.job key ++
        (s.inputVersions run.work.job key ++ s.deeper run.work.job key) ∧
      (s.afterCompaction run).met key = s.newer run.work.job key ++
        (leftOver (run.keeps scanned) key (s.inputVersions run.work.job key) ++
          s.deeper run.work.job key) := by
  obtain ⟨above, below, hsplit, habove, hbelow⟩ := levels_split hshape.next_level
  have hne := level_ne hshape
  have hversions := fun l => afterCompaction_versions h hrun hshape houts l key
  have hother : ∀ ls : List (Fin kMaxLevel), (∀ l ∈ ls, l ≠ u ∧ l ≠ v) →
      (ls.flatMap fun l => (s.afterCompaction run).versionsIn
        ((s.afterCompaction run).vmgr.current.level_files l) key) =
      ls.flatMap fun l => s.versionsIn (s.vmgr.current.level_files l) key := by
    intro ls hls
    apply List.flatMap_congr
    intro l hl
    rw [hversions, if_neg (hls l hl).1, if_neg (hls l hl).2]
  obtain ⟨hnewer, hdeeper⟩ := newer_deeper_eq h hshape houts hsplit habove hbelow key
  rw [hnewer, hdeeper]
  refine ⟨?_, ?_⟩
  · rw [Store.met, hsplit, List.flatMap_append, List.flatMap_cons, List.flatMap_cons,
      hshape.before, inputs_versions hshape, hshape.upper_eq, versionsIn_append, versionsIn_append]
    simp only [List.append_assoc]
  · rw [Store.met, hsplit, List.flatMap_append, List.flatMap_cons, List.flatMap_cons,
      hother _ fun l hl => ⟨(habove l hl).ne, ((habove l hl).trans (level_lt hshape)).ne⟩,
      hother _ fun l hl => ⟨((level_lt hshape).trans (hbelow l hl)).ne', (hbelow l hl).ne'⟩,
      hversions u, if_pos rfl, hversions v, if_neg hne.symm, if_pos rfl, outputs_versions hmerge]
    simp only [List.append_assoc]

include h hrun hshape houts in
theorem level_one_afterCompaction
    (hmerge : IsMerge (run.keeps scanned)
      (run.work.job.inputs.map fun input => s.tableAt input.file) (outs.flatMap fun o => o.2.entries))
    (key : TsKey) : ((s.afterCompaction run).versionsIn
      ((s.afterCompaction run).vmgr.current.level_files 1) key).length ≤ 1 := by
  rw [afterCompaction_versions h hrun hshape houts]
  split_ifs with hu hv
  · rw [hshape.whole (by rw [← hu]; decide)]
    exact Nat.zero_le _
  · have hone := h.level_one key
    have hzero : u.val = 0 := by
      have := hshape.next_level
      rw [← hv] at this
      have h1 : (1 : Fin kMaxLevel).val = 1 := rfl
      omega
    rw [hv, hshape.before, List.length_append] at hone
    have happart := hshape.apart hzero key
    rw [outputs_versions hmerge, inputs_versions hshape, List.length_append]
    cases hin : s.versionsIn ((s.vmgr.current.level_files v).filter p ++ upper) key with
    | nil =>
      rw [leftOver]
      simp only [List.head?_nil, Option.toList_none, ite_self, List.length_nil]
      omega
    | cons e rest =>
      rw [happart (by rw [hin]; simp), leftOver]
      split_ifs <;> simp
  · exact h.level_one key

include h hrun hshape houts in
theorem storeInv_afterCompaction
    (hmerge : IsMerge (run.keeps scanned)
      (run.work.job.inputs.map fun input => s.tableAt input.file) (outs.flatMap fun o => o.2.entries)) :
    StoreInv scanned (s.afterCompaction run) := by
  have hmem := fun {l f} => mem_afterCompaction hshape houts (l := l) (f := f)
  have hnew : ∀ o ∈ outs, ∀ l, ∀ f ∈ s.vmgr.current.level_files l,
      f.file_number ≠ o.1.file_number := fun o ho =>
    h.unpublished_new _ (output_unpublished hrun houts ho)
  refine ⟨?_, ?_, ?_, ?_, ?_, level_one_afterCompaction h hrun hshape houts hmerge, ?_, ?_, ?_, ?_,
    ?_, fun n t hbuilt => ?_, rfl, ?_, fun run' hrun' => ?_⟩
  · rw [afterCompaction_db_dir, ← h.name_eq]
    exact applyUnlocked_manifest_name _ _
  · intro l
    rw [afterCompaction_level h hshape houts]
    have hord := h.ordered
    split_ifs with hu hv
    · have := hord u
      rw [hshape.upper_eq] at this
      exact (ascending_append.mp this).2.1
    · refine ascending_append.mpr ⟨(hord v).filter _, List.pairwise_map.mpr houts.numbers, ?_⟩
      intro f hf g hg
      obtain ⟨o, ho, rfl⟩ := List.mem_map.mp hg
      exact houts.above o ho f (List.mem_of_mem_filter hf)
    · exact hord l
  · intro l f hf
    rw [afterCompaction_next h hrun houts]
    rcases hmem hf with ⟨hf, -⟩ | ⟨-, t, ho⟩
    · exact h.below l f hf
    · exact h.unpublished_lt _ (output_unpublished hrun houts ho)
  · intro l f hf
    rcases hmem hf with ⟨hf, -⟩ | ⟨-, t, ho⟩
    · exact (h.live l f hf).congr afterCompaction_db_dir (afterCompaction_find h hf) rfl
    · obtain ⟨hpath, hopen, hmeta, hasc⟩ := houts.ready _ ho
      have htab := afterCompaction_tableAt_out h hrun houts ho
      refine ⟨hpath.trans (afterCompaction_path _).symm, ?_, ?_, ?_, ?_⟩
      · rw [htab]
        exact afterCompaction_find_out h hrun houts ho
      · rw [htab, afterCompaction_db_dir]
        exact hopen
      · rw [htab]
        exact hmeta
      · rw [htab]
        exact hasc
  · intro l f hf l' f' hf' heq
    rcases hmem hf with ⟨hf, -⟩ | ⟨hl, t, ho⟩
    · rcases hmem hf' with ⟨hf', -⟩ | ⟨-, t', ho'⟩
      · exact h.one_level l f hf l' f' hf' heq
      · exact absurd heq (hnew _ ho' l f hf)
    · rcases hmem hf' with ⟨hf', -⟩ | ⟨hl', -⟩
      · exact absurd heq.symm (hnew _ ho l' f' hf')
      · rw [hl, hl']
  · intro r hr
    rcases List.mem_append.mp hr with hr | hr
    · obtain ⟨m, hm, hname⟩ := h.readers r hr
      exact ⟨m, afterCompaction_settled h hrun houts hm,
        hname.trans (afterCompaction_path m).symm⟩
    · rw [houts.readers] at hr
      obtain ⟨o, ho, rfl⟩ := List.mem_map.mp hr
      refine ⟨o.1.file_number, ⟨?_, afterCompaction_not_mem h hrun houts ho⟩,
        (houts.ready o ho).path.trans (afterCompaction_path _).symm⟩
      rw [afterCompaction_next h hrun houts]
      exact h.unpublished_lt _ (output_unpublished hrun houts ho)
  · intro name hname
    have hold : name ∈ s.vmgr.obsolete_files ++ s.pending_delete.map PendingDelete.file_name ∨
        ∃ l, ∃ f ∈ s.vmgr.current.level_files l,
          run.result.edit.deletes l f.file_number = true ∧ f.file_name = name := by
      rcases List.mem_append.mp hname with hname | hname
      · exact (mem_applyUnlocked_obsolete hname).imp_left (List.mem_append_left _)
      · exact Or.inl (List.mem_append_right _ hname)
    rcases hold with hold | ⟨l, f, hf, hdel, rfl⟩
    · obtain ⟨m, hm, hgone, heq⟩ := h.retired name hold
      refine ⟨m, afterCompaction_settled h hrun houts hm, fun l f hf => ?_,
        heq.trans (afterCompaction_path m).symm⟩
      rcases hmem hf with ⟨hf, -⟩ | ⟨-, t, ho⟩
      · exact hgone l f hf
      · intro hnm
        exact hm.2 (hnm ▸ output_unpublished hrun houts ho)
    · -- an input: settled, and gone from the version
      have hsettled : s.Settled f.file_number :=
        ⟨h.below l f hf, fun hmem => h.unpublished_new _ hmem l f hf rfl⟩
      refine ⟨f.file_number, afterCompaction_settled h hrun houts hsettled, fun l' f' hf' heq => ?_,
        (h.live l f hf).path.trans (afterCompaction_path _).symm⟩
      rcases hmem hf' with ⟨hf', hkept⟩ | ⟨-, t, ho⟩
      · obtain rfl := h.one_level l' f' hf' l f hf heq
        rw [heq, hdel] at hkept
        contradiction
      · exact hnew _ ho l f hf heq.symm
  · intro n hn
    rw [afterCompaction_next h hrun houts]
    exact h.unpublished_lt n (afterCompaction_sub hrun hn)
  · intro n hn l f hf
    rcases hmem hf with ⟨hf, -⟩ | ⟨-, t, ho⟩
    · exact h.unpublished_new n (afterCompaction_sub hrun hn) l f hf
    · intro heq
      exact afterCompaction_not_mem h hrun houts ho (heq ▸ hn)
  · have hnodup := h.unpublished_nodup
    rw [afterCompaction_unpublished hrun] at hnodup
    exact (List.nodup_append.mp hnodup).1
  · obtain ⟨hopen, hasc, hzero⟩ := h.built n t hbuilt
    refine ⟨?_, hasc, fun f hf => ?_⟩
    · rw [afterCompaction_db_dir, afterCompaction_path]
      exact hopen
    · rcases hmem hf with ⟨hf, -⟩ | ⟨hl, -⟩
      · exact hzero f hf
      · have hnext := hshape.next_level
        rw [← hl] at hnext
        exact absurd hnext (by simp)
  · change s.compacting_files.filter _ = _
    rw [h.compacting, hrun]
    simp [Store.afterCompaction]
  · contradiction

end

end MiniTsdb
