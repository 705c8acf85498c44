import MiniTsdb.Lib.Issued
import MiniTsdb.Proofs.ManifestLog
import MiniTsdb.Proofs.StoreKinds
import MiniTsdb.Proofs.Tables

/-! The invariant of the SSTable side: every live file has its reader and its table on
disk, file numbers are unique and below the counter, L1 holds each key once, and a
compaction under way has inputs that nothing else touches. -/

namespace MiniTsdb
open Lib

variable {scanned : TsKey → Bool}

def Store.tableAt (s : Store) (f : FileMeta) : SSTable :=
  ((findReader s.sst_readers f.file_name).map TableReader.table).getD ⟨[], 0⟩

/-- The versions of a key in files of one level, the last file first. -/
def Store.versionsIn (s : Store) (files : List FileMeta) (key : TsKey) : List InternalEntry :=
  versionsOf (files.map s.tableAt) key

/-- The versions of a key that a search from L0 to L6 meets, in its order. -/
def meets (levels : Fin kMaxLevel → List ReaderRef) (key : TsKey) : List InternalEntry :=
  (List.finRange kMaxLevel).flatMap fun l =>
    (levels l).reverse.filterMap fun ref => ref.reader.table.getEntry key

def Store.met (s : Store) (key : TsKey) : List InternalEntry :=
  (List.finRange kMaxLevel).flatMap fun l => s.versionsIn (s.vmgr.current.level_files l) key

/-- A file of the version, with its reader and on disk. -/
structure Live (s : Store) (f : FileMeta) : Prop where
  path : f.file_name = s.vmgr.newFileName f.file_number
  reader : findReader s.sst_readers f.file_name = some ⟨f.file_name, s.tableAt f⟩
  disk : openTable s.vmgr.db_dir s.dir f.file_name = some (s.tableAt f)
  meta_eq : f = (s.tableAt f).fileMeta f.file_number f.file_name
  ascending : Ascending Prod.fst (s.tableAt f).entries

theorem tableAt_congr {s s' : Store} {f : FileMeta}
    (h : findReader s'.sst_readers f.file_name = findReader s.sst_readers f.file_name) :
    s'.tableAt f = s.tableAt f := by
  rw [Store.tableAt, Store.tableAt, h]

theorem versionsIn_congr {s s' : Store} {files : List FileMeta}
    (h : ∀ f ∈ files, s'.tableAt f = s.tableAt f) (key : TsKey) :
    s'.versionsIn files key = s.versionsIn files key := by
  rw [Store.versionsIn, Store.versionsIn, List.map_congr_left h]

theorem versionsIn_append (s : Store) (as bs : List FileMeta) (key : TsKey) :
    s.versionsIn (as ++ bs) key = s.versionsIn bs key ++ s.versionsIn as key := by
  rw [Store.versionsIn, List.map_append, versionsOf_append]
  rfl

@[simp] theorem versionsIn_nil (s : Store) (key : TsKey) : s.versionsIn [] key = [] := rfl

theorem Live.congr {s s' : Store} {f : FileMeta} (h : Live s f)
    (hdir : s'.vmgr.db_dir = s.vmgr.db_dir)
    (hreader : findReader s'.sst_readers f.file_name = findReader s.sst_readers f.file_name)
    (hdisk : openTable s.vmgr.db_dir s'.dir f.file_name = openTable s.vmgr.db_dir s.dir f.file_name) :
    Live s' f := by
  have htab := tableAt_congr hreader
  refine ⟨?_, ?_, ?_, ?_, ?_⟩
  · rw [h.path, VersionManager.newFileName, VersionManager.newFileName, hdir]
  · rw [hreader, htab]
    exact h.reader
  · rw [hdir, hdisk, htab]
    exact h.disk
  · rw [htab]
    exact h.meta_eq
  · rw [htab]
    exact h.ascending

/-- The bounds of a live file never hide an entry. -/
theorem getEntry_live {s : Store} {f : FileMeta} (h : Live s f) (key : TsKey) :
    ReaderRef.getEntry ⟨f, ⟨f.file_name, s.tableAt f⟩⟩ key = (s.tableAt f).getEntry key := by
  rw [ReaderRef.getEntry]
  split_ifs with hout
  · symm
    cases hkey : (s.tableAt f).getEntry key with
    | none => rfl
    | some e =>
      obtain ⟨hlo, hhi⟩ := bounds_of_mem h.ascending (mem_of_lookup hkey)
      have hsmall : f.smallest = (s.tableAt f).minKey := congrArg FileMeta.smallest h.meta_eq
      have hlarge : f.largest = (s.tableAt f).maxKey := congrArg FileMeta.largest h.meta_eq
      rw [tsKeyComparator_lt_iff, tsKeyComparator_gt_iff, hsmall, hlarge] at hout
      rcases hout with hout | hout
      · exact absurd hlo (not_le.mpr hout)
      · exact absurd hhi (not_le.mpr hout)
  · rfl

theorem captureLevels_live {s : Store} {l : Fin kMaxLevel}
    (h : ∀ f ∈ s.vmgr.current.level_files l, Live s f) :
    s.captureLevels l = (s.vmgr.current.level_files l).map fun f =>
      ⟨f, ⟨f.file_name, s.tableAt f⟩⟩ := by
  rw [Store.captureLevels, ← List.filterMap_eq_map]
  apply List.filterMap_congr
  intro f hf
  rw [(h f hf).reader]
  rfl

/-- The look-up stops at the first version the search meets. -/
theorem getFromSSTables_eq {s : Store} (h : ∀ l, ∀ f ∈ s.vmgr.current.level_files l, Live s f)
    (key : TsKey) : getFromSSTables s.captureLevels key = (s.met key).head? := by
  rw [getFromSSTables, Store.met, List.head?_flatMap]
  congr 1
  funext l
  rw [captureLevels_live (h l), Store.versionsIn, versionsOf, ← List.head?_filterMap,
    ← List.map_reverse, ← List.map_reverse, List.filterMap_map, List.filterMap_map]
  congr 1
  apply List.filterMap_congr
  intro f hf
  exact getEntry_live (h l f (List.mem_reverse.mp hf)) key

theorem meets_eq {s : Store} (h : ∀ l, ∀ f ∈ s.vmgr.current.level_files l, Live s f)
    (key : TsKey) : meets s.captureLevels key = s.met key := by
  rw [meets, Store.met]
  congr 1
  funext l
  rw [captureLevels_live (h l), Store.versionsIn, versionsOf, ← List.map_reverse,
    ← List.map_reverse, List.filterMap_map, List.filterMap_map]
  rfl

/-- A finished file that no reader and no version names yet. -/
structure Ready (s : Store) (f : FileMeta) (t : SSTable) : Prop where
  path : f.file_name = s.vmgr.newFileName f.file_number
  disk : openTable s.vmgr.db_dir s.dir f.file_name = some t
  meta_eq : f = t.fileMeta f.file_number f.file_name
  ascending : Ascending Prod.fst t.entries

/-- A job takes the first files `upper` of level `u`, and the files of level `v` below
that satisfy `p`. The others of level `v` come later in every search, and are free of the
keys of the job where `v` is L1. -/
structure JobShape (s : Store) (job : CompactionJob) (u v : Fin kMaxLevel) (p : FileMeta → Bool)
    (upper newer : List FileMeta) : Prop where
  next_level : v.val = u.val + 1
  output : job.output_level = v.val
  inputs : job.inputs = (((s.vmgr.current.level_files v).filter p).map fun f => ⟨v.val, f⟩) ++
    upper.map fun f => ⟨u.val, f⟩
  upper_eq : s.vmgr.current.level_files u = upper ++ newer
  whole : u.val ≠ 0 → newer = []
  before : ∀ key, s.versionsIn (s.vmgr.current.level_files v) key =
    s.versionsIn ((s.vmgr.current.level_files v).filter p) key ++
      s.versionsIn ((s.vmgr.current.level_files v).filter fun f => !p f) key
  apart : u.val = 0 → ∀ key,
    s.versionsIn ((s.vmgr.current.level_files v).filter p ++ upper) key ≠ [] →
      s.versionsIn ((s.vmgr.current.level_files v).filter fun f => !p f) key = []

/-- The files a run has written. -/
structure Outputs (s : Store) (run : CompactionRun) (v : Fin kMaxLevel)
    (outs : List (FileMeta × SSTable)) : Prop where
  deleted : run.result.edit.deleted_files =
    run.work.job.inputs.map fun input => (input.level, input.file.file_number)
  added : run.result.edit.added_files = outs.map fun o => (run.work.job.output_level, o.1)
  readers : run.result.new_readers = outs.map fun o => ⟨o.1.file_name, o.2⟩
  ready : ∀ o ∈ outs, Ready s o.1 o.2
  numbers : Ascending (fun o : FileMeta × SSTable => o.1.file_number) outs
  above : ∀ o ∈ outs, ∀ f ∈ s.vmgr.current.level_files v, f.file_number < o.1.file_number

/-- The keys a run keeps, out of those its record reader scans. -/
def CompactionRun.keeps (run : CompactionRun) (scanned : TsKey → Bool) (key : TsKey) : Bool :=
  scanned key && keepsKey run.work.ttl_snapshot key

def RunState (scanned : TsKey → Bool) (s : Store) (run : CompactionRun) (v : Fin kMaxLevel) : Prop :=
  match run.rest with
  | none => run.result = .empty
  | some rest => ∃ outs, Outputs s run v outs ∧
      IsMerge (run.keeps scanned)
        (run.work.job.inputs.map fun input => s.tableAt input.file)
        (outs.flatMap (fun o => o.2.entries) ++ rest.map Record.pair)

def RunInv (scanned : TsKey → Bool) (s : Store) (run : CompactionRun) : Prop :=
  ∃ u v p upper newer, JobShape s run.work.job u v p upper newer ∧ RunState scanned s run v

/-- The numbers of finished files that no version names yet. -/
def Store.unpublished (s : Store) : List ℕ :=
  (s.built.map Prod.fst).toList ++
    ((s.compaction.map fun run => run.result.edit.addedNumbers).getD [])

/-- A number that was given out and is not waiting for its commit. -/
def Store.Settled (s : Store) (n : ℕ) : Prop :=
  n < s.vmgr.next_file_number ∧ n ∉ s.unpublished

structure StoreInv (scanned : TsKey → Bool) (s : Store) : Prop where
  name_eq : s.vmgr.manifest_name = joinPath s.vmgr.db_dir manifestFile
  ordered : s.vmgr.current.Ordered
  below : s.vmgr.Below
  live : ∀ l, ∀ f ∈ s.vmgr.current.level_files l, Live s f
  one_level : ∀ l, ∀ f ∈ s.vmgr.current.level_files l, ∀ l', ∀ f' ∈ s.vmgr.current.level_files l',
    f.file_number = f'.file_number → l = l'
  level_one : ∀ key, (s.versionsIn (s.vmgr.current.level_files 1) key).length ≤ 1
  readers : ∀ r ∈ s.sst_readers, ∃ n, s.Settled n ∧ r.file_name = s.vmgr.newFileName n
  retired : ∀ name ∈ s.vmgr.obsolete_files ++ s.pending_delete.map PendingDelete.file_name,
    ∃ n, s.Settled n ∧ (∀ l, ∀ f ∈ s.vmgr.current.level_files l, f.file_number ≠ n) ∧
      name = s.vmgr.newFileName n
  unpublished_lt : ∀ n ∈ s.unpublished, n < s.vmgr.next_file_number
  unpublished_new : ∀ n ∈ s.unpublished, ∀ l, ∀ f ∈ s.vmgr.current.level_files l,
    f.file_number ≠ n
  unpublished_nodup : s.unpublished.Nodup
  built : ∀ n t, s.built = some (n, t) →
    openTable s.vmgr.db_dir s.dir (s.vmgr.newFileName n) = some t ∧
      Ascending Prod.fst t.entries ∧ ∀ f ∈ s.vmgr.current.level_files 0, f.file_number < n
  in_progress : s.compaction_in_progress = s.compaction.isSome
  compacting : s.compacting_files = (s.compaction.map fun run => run.work.job.numbers).getD []
  run : ∀ run, s.compaction = some run → RunInv scanned s run

theorem StoreInv.issued {s : Store} (h : StoreInv scanned s) :
    Issued s.vmgr.next_file_number s.unpublished :=
  ⟨h.unpublished_lt, h.unpublished_nodup⟩

theorem storeInv_opened {st : Startup} {target : ℕ}
    (hname : st.vm.manifest_name = joinPath st.vm.db_dir manifestFile)
    (hord : st.vm.current.Ordered) (hbelow : st.vm.Below) (hobsolete : st.vm.obsolete_files = [])
    (hlive : ∀ l, ∀ f ∈ st.vm.current.level_files l, Live (st.store target) f)
    (hone : ∀ l, ∀ f ∈ st.vm.current.level_files l, ∀ l', ∀ f' ∈ st.vm.current.level_files l',
      f.file_number = f'.file_number → l = l')
    (hlevel : ∀ key, ((st.store target).versionsIn (st.vm.current.level_files 1) key).length ≤ 1)
    (hreaders : ∀ r ∈ st.sst_readers, ∃ n < st.vm.next_file_number,
      r.file_name = st.vm.newFileName n) : StoreInv scanned (st.store target) := by
  have hnone : (st.store target).unpublished = [] := rfl
  refine ⟨hname, hord, hbelow, hlive, hone, hlevel, ?_, ?_, ?_, ?_, ?_, ?_, rfl, rfl, ?_⟩
  · intro r hr
    obtain ⟨n, hn, heq⟩ := hreaders r hr
    exact ⟨n, ⟨hn, by rw [hnone]; exact List.not_mem_nil⟩, heq⟩
  · intro name hm
    change name ∈ st.vm.obsolete_files ++ [] at hm
    rw [hobsolete] at hm
    contradiction
  · intro n hn
    contradiction
  · intro n hn
    contradiction
  · rw [hnone]
    exact List.nodup_nil
  · intro n t hb
    contradiction
  · intro run hr
    contradiction

theorem JobShape.congr {s s' : Store} {job : CompactionJob} {u v : Fin kMaxLevel}
    {p : FileMeta → Bool} {upper newer newer' : List FileMeta} (h : JobShape s job u v p upper newer)
    (hv : s'.vmgr.current.level_files v = s.vmgr.current.level_files v)
    (hu : s'.vmgr.current.level_files u = upper ++ newer') (hwhole : u.val ≠ 0 → newer' = [])
    (htab : ∀ l, ∀ f ∈ s.vmgr.current.level_files l, s'.tableAt f = s.tableAt f) :
    JobShape s' job u v p upper newer' := by
  have hsame : ∀ files ⊆ s.vmgr.current.level_files v, ∀ key,
      s'.versionsIn files key = s.versionsIn files key := by
    intro files hsub key
    exact versionsIn_congr (fun f hf => htab v f (hsub hf)) key
  have hupper : ∀ key, s'.versionsIn upper key = s.versionsIn upper key := by
    apply versionsIn_congr
    intro f hf
    exact htab u f (h.upper_eq ▸ List.mem_append_left newer hf)
  refine ⟨h.next_level, h.output, ?_, hu, hwhole, fun key => ?_, fun hzero key => ?_⟩
  · rw [hv]
    exact h.inputs
  · rw [hv, hsame _ (List.Subset.refl _), hsame _ (List.filter_subset_self _),
      hsame _ (List.filter_subset_self _)]
    exact h.before key
  · rw [hv, versionsIn_append, hsame _ (List.filter_subset_self _), hsame _ (List.filter_subset_self _),
      hupper, ← versionsIn_append]
    exact h.apart hzero key

theorem JobShape.mem_input {s : Store} {job : CompactionJob} {u v : Fin kMaxLevel}
    {p : FileMeta → Bool} {upper newer : List FileMeta} (h : JobShape s job u v p upper newer)
    {input : CompactionInput} (hi : input ∈ job.inputs) :
    ∃ l : Fin kMaxLevel, input.level = l.val ∧ input.file ∈ s.vmgr.current.level_files l := by
  rw [h.inputs] at hi
  rcases List.mem_append.mp hi with hi | hi
  · obtain ⟨f, hf, rfl⟩ := List.mem_map.mp hi
    exact ⟨v, rfl, List.mem_of_mem_filter hf⟩
  · obtain ⟨f, hf, rfl⟩ := List.mem_map.mp hi
    exact ⟨u, rfl, h.upper_eq ▸ List.mem_append_left newer hf⟩

theorem mem_addedNumbers_out {s : Store} {run : CompactionRun} {v : Fin kMaxLevel}
    {outs : List (FileMeta × SSTable)} (h : Outputs s run v outs) :
    run.result.edit.addedNumbers = outs.map fun o => o.1.file_number := by
  rw [VersionEdit.addedNumbers, h.added, List.map_map]
  rfl

theorem RunInv.congr {s s' : Store} {run : CompactionRun} (h : RunInv scanned s run)
    (hdir : s'.vmgr.db_dir = s.vmgr.db_dir)
    (hlevels : ∀ l : Fin kMaxLevel, l.val ≠ 0 →
      s'.vmgr.current.level_files l = s.vmgr.current.level_files l)
    {m : List FileMeta}
    (hzero : s'.vmgr.current.level_files 0 = s.vmgr.current.level_files 0 ++ m)
    (htab : ∀ l, ∀ f ∈ s.vmgr.current.level_files l, s'.tableAt f = s.tableAt f)
    (hdisk : ∀ n ∈ run.result.edit.addedNumbers,
      openTable s.vmgr.db_dir s'.dir (s.vmgr.newFileName n) =
        openTable s.vmgr.db_dir s.dir (s.vmgr.newFileName n)) : RunInv scanned s' run := by
  obtain ⟨u, v, p, upper, newer, hshape, hstate⟩ := h
  have hv := hlevels v (by rw [hshape.next_level]; omega)
  have hshape' : ∃ newer', JobShape s' run.work.job u v p upper newer' := by
    by_cases hu : u.val = 0
    · obtain rfl : u = 0 := Fin.ext hu
      refine ⟨newer ++ m, hshape.congr hv ?_ (fun hne => absurd hu hne) htab⟩
      rw [hzero, hshape.upper_eq, List.append_assoc]
    · exact ⟨newer, hshape.congr hv ((hlevels u hu).trans hshape.upper_eq) hshape.whole htab⟩
  obtain ⟨newer', hshape'⟩ := hshape'
  refine ⟨u, v, p, upper, newer', hshape', ?_⟩
  unfold RunState at hstate ⊢
  cases hrest : run.rest with
  | none => rw [hrest] at hstate; exact hstate
  | some rest =>
    rw [hrest] at hstate
    obtain ⟨outs, houts, hmerge⟩ := hstate
    refine ⟨outs, ⟨houts.deleted, houts.added, houts.readers, ?_, houts.numbers, ?_⟩, ?_⟩
    · intro o ho
      obtain ⟨hpath, hopen, hmeta, hasc⟩ := houts.ready o ho
      have hn : o.1.file_number ∈ run.result.edit.addedNumbers := by
        rw [mem_addedNumbers_out houts]
        exact List.mem_map_of_mem ho
      refine ⟨?_, ?_, hmeta, hasc⟩
      · rw [hpath, VersionManager.newFileName, VersionManager.newFileName, hdir]
      · rw [hdir, hpath, hdisk _ hn, ← hpath]
        exact hopen
    · rw [hv]
      exact houts.above
    · have htabs : (run.work.job.inputs.map fun input => s'.tableAt input.file) =
          run.work.job.inputs.map fun input => s.tableAt input.file := by
        apply List.map_congr_left
        intro input hi
        obtain ⟨l, -, hf⟩ := hshape.mem_input hi
        exact htab l _ hf
      rw [htabs]
      exact hmerge

theorem mem_unpublished_run {s : Store} {run : CompactionRun} (h : s.compaction = some run) {n : ℕ}
    (hn : n ∈ run.result.edit.addedNumbers) : n ∈ s.unpublished := by
  rw [Store.unpublished, h]
  exact List.mem_append_right _ hn

theorem mem_unpublished_built {s : Store} {n : ℕ} {t : SSTable} (h : s.built = some (n, t)) :
    n ∈ s.unpublished := by
  rw [Store.unpublished, h]
  exact List.mem_append_left _ List.mem_cons_self

theorem newFileName_injective (vm : VersionManager) {m n : ℕ}
    (h : vm.newFileName m = vm.newFileName n) : m = n := path_injective h

theorem openTable_write_old {s : Store} {m n : ℕ} (t : SSTable) (h : m ≠ n) :
    openTable s.vmgr.db_dir (writeTable s.dir (sstName n) t) (s.vmgr.newFileName m) =
      openTable s.vmgr.db_dir s.dir (s.vmgr.newFileName m) :=
  openTable_writeTable_of_ne s.dir t fun he => h (sstName_injective he)

/-- The steps that take a number and write its file: what is left to show is about the
flush and the run themselves. -/
theorem StoreInv.allocate {s s' : Store} (h : StoreInv scanned s) {t : SSTable}
    (hvm : s'.vmgr = s.vmgr.newFileNumber.2) (hreaders : s'.sst_readers = s.sst_readers)
    (hdir : s'.dir = writeTable s.dir (sstName s.vmgr.next_file_number) t)
    (hpending : s'.pending_delete = s.pending_delete)
    (hunpublished : s'.unpublished.Perm (s.vmgr.next_file_number :: s.unpublished))
    (hbuilt : ∀ n t, s'.built = some (n, t) →
      openTable s'.vmgr.db_dir s'.dir (s'.vmgr.newFileName n) = some t ∧
        Ascending Prod.fst t.entries ∧ ∀ f ∈ s'.vmgr.current.level_files 0, f.file_number < n)
    (hprogress : s'.compaction_in_progress = s'.compaction.isSome)
    (hcompacting : s'.compacting_files =
      (s'.compaction.map fun run => run.work.job.numbers).getD [])
    (hrun : ∀ run, s'.compaction = some run → RunInv scanned s' run) : StoreInv scanned s' := by
  have hcurrent : s'.vmgr.current = s.vmgr.current := by rw [hvm]; rfl
  have hdb : s'.vmgr.db_dir = s.vmgr.db_dir := by rw [hvm]; rfl
  have hnext : s'.vmgr.next_file_number = s.vmgr.next_file_number + 1 := by rw [hvm]; rfl
  have hpath : ∀ n, s'.vmgr.newFileName n = s.vmgr.newFileName n := fun n => by rw [hvm]; rfl
  have hobsolete : s'.vmgr.obsolete_files = s.vmgr.obsolete_files := by rw [hvm]; rfl
  have htab : ∀ f, s'.tableAt f = s.tableAt f := fun f => tableAt_congr (by rw [hreaders])
  have hissued : Issued s'.vmgr.next_file_number s'.unpublished := by
    rw [hnext]
    exact h.issued.issue hunpublished
  have hsettled : ∀ n, s.Settled n → s'.Settled n := by
    intro n hn
    refine ⟨by have := hn.1; omega, fun hmem => ?_⟩
    rcases List.mem_cons.mp (hunpublished.subset hmem) with rfl | hmem
    · exact lt_irrefl _ hn.1
    · exact hn.2 hmem
  refine ⟨?_, hcurrent ▸ h.ordered, ?_, ?_, hcurrent ▸ h.one_level, ?_, ?_, ?_, hissued.lt, ?_,
    hissued.nodup, hbuilt, hprogress, hcompacting, hrun⟩
  · rw [hdb, hvm]
    exact h.name_eq
  · intro l f hf
    rw [hcurrent] at hf
    rw [hnext]
    exact Nat.lt_succ_of_lt (h.below l f hf)
  · intro l f hf
    rw [hcurrent] at hf
    have hlive := h.live l f hf
    apply hlive.congr hdb (by rw [hreaders])
    rw [hdir, hlive.path]
    exact openTable_write_old t (h.below l f hf).ne
  · intro key
    rw [hcurrent, versionsIn_congr (fun f _ => htab f)]
    exact h.level_one key
  · intro r hr
    rw [hreaders] at hr
    obtain ⟨n, hn, hname⟩ := h.readers r hr
    exact ⟨n, hsettled n hn, by rw [hpath]; exact hname⟩
  · intro name hname
    rw [hobsolete, hpending] at hname
    obtain ⟨n, hn, hfree, heq⟩ := h.retired name hname
    exact ⟨n, hsettled n hn, hcurrent ▸ hfree, by rw [hpath]; exact heq⟩
  · intro n hn l f hf
    rw [hcurrent] at hf
    rcases List.mem_cons.mp (hunpublished.subset hn) with rfl | hn
    · exact (h.below l f hf).ne
    · exact h.unpublished_new n hn l f hf

theorem addOutput_addedNumbers (result : CompactionResult) (level : ℤ) (file : FileMeta) (t : SSTable) :
    (result.addOutput level file t).edit.addedNumbers =
      result.edit.addedNumbers ++ [file.file_number] := by
  simp [CompactionResult.addOutput, VersionEdit.addedNumbers]

theorem unpublished_withRun (s : Store) {run : Option CompactionRun} (progress : Bool) (files : List ℕ)
    (hrun : ∀ r, run = some r → r.Unwritten) :
    (s.withRun run progress files).unpublished.Sublist s.unpublished := by
  refine List.Sublist.append (List.Sublist.refl _) ?_
  cases run with
  | none => exact List.nil_sublist _
  | some r =>
    rw [Store.withRun, Option.map_some, Option.getD_some, VersionEdit.addedNumbers, (hrun r rfl).1]
    exact List.nil_sublist _

theorem afterBuild_unpublished {s : Store} (hnone : s.built = none) (t : SSTable) :
    (s.afterBuild t).unpublished = s.vmgr.next_file_number :: s.unpublished := by
  rw [Store.unpublished, Store.unpublished, hnone]
  rfl

theorem afterOutput_unpublished {s : Store} {run : CompactionRun} (hrun : s.compaction = some run)
    (records : List Record) (t : SSTable) :
    (s.afterOutput run records t).unpublished.Perm (s.vmgr.next_file_number :: s.unpublished) := by
  rw [Store.unpublished, Store.unpublished, hrun, Store.afterOutput, Option.map_some, Option.map_some,
    Option.getD_some, Option.getD_some, addOutput_addedNumbers, ← List.append_assoc]
  exact List.perm_append_singleton _ _

theorem storeInv_afterBuild {s : Store} {entries : List (TsKey × InternalEntry)} {t : SSTable}
    (h : StoreInv scanned s) (hasc : Ascending Prod.fst entries) (hnone : s.built = none)
    (ht : finishTable entries = some t) : StoreInv scanned (s.afterBuild t) := by
  have hentries := finishTable_entries ht
  refine h.allocate (t := t) rfl rfl rfl rfl (List.Perm.of_eq (afterBuild_unpublished hnone t)) ?_
    h.in_progress h.compacting ?_
  · intro n t' hbuilt
    obtain ⟨rfl, rfl⟩ : s.vmgr.next_file_number = n ∧ t = t' := by
      simpa [Store.afterBuild, VersionManager.newFileNumber] using hbuilt
    exact ⟨openTable_writeTable_self _ _ _ _, hentries ▸ hasc, fun f hf => h.below 0 f hf⟩
  · intro run hrun
    refine (h.run run hrun).congr rfl (fun _ _ => rfl) (m := []) (List.append_nil _).symm
      (fun _ _ _ => rfl) fun n hn => ?_
    apply openTable_write_old
    exact (h.unpublished_lt n (mem_unpublished_run (s := s) hrun hn)).ne

theorem storeInv_afterOutput {s : Store} {run : CompactionRun} {records : List Record} {t : SSTable}
    (h : StoreInv scanned s) (hrun : s.compaction = some run) (hrest : run.rest = some records)
    (ht : s.chunkTable records = some t) : StoreInv scanned (s.afterOutput run records t) := by
  have hsplit := takeChunk_append (targetBytes s.target_file_size) 0 records
  have hentries := finishTable_entries ht
  obtain ⟨u, v, p, upper, newer, hshape, hstate⟩ := h.run run hrun
  unfold RunState at hstate
  rw [hrest] at hstate
  obtain ⟨outs, houts, hmerge⟩ := hstate
  have hlt : ∀ o ∈ outs, o.1.file_number < s.vmgr.next_file_number := by
    intro o ho
    apply h.unpublished_lt _ (mem_unpublished_run hrun _)
    rw [mem_addedNumbers_out houts]
    exact List.mem_map_of_mem ho
  rw [← hsplit, List.map_append, ← List.append_assoc] at hmerge
  have hasc : Ascending Prod.fst t.entries :=
    hentries ▸ (ascending_append.mp (ascending_append.mp hmerge.ascending).1).2.1
  refine h.allocate (t := t) rfl rfl rfl rfl (afterOutput_unpublished hrun records t) ?_
    (h.in_progress.trans (by rw [hrun]; rfl)) (h.compacting.trans (by rw [hrun]; rfl)) ?_
  · intro n t' hbuilt
    obtain ⟨hopen, hasc', hzero⟩ := h.built n t' hbuilt
    refine ⟨?_, hasc', hzero⟩
    rw [← hopen]
    exact openTable_write_old (s := s) t (h.unpublished_lt n (mem_unpublished_built hbuilt)).ne
  · intro run' hrun'
    obtain rfl := Option.some.inj hrun'
    refine ⟨u, v, p, upper, newer, hshape.congr rfl hshape.upper_eq hshape.whole
      fun _ _ _ => rfl, outs ++ [(t.fileMeta s.vmgr.next_file_number
        (s.vmgr.newFileName s.vmgr.next_file_number), t)],
      ⟨houts.deleted, ?_, ?_, ?_, ?_, ?_⟩, ?_⟩
    · rw [List.map_append, ← houts.added]
      rfl
    · rw [List.map_append, ← houts.readers]
      rfl
    · intro o ho
      rcases List.mem_append.mp ho with ho | ho
      · obtain ⟨hpath, hopen, hmeta, hasc'⟩ := houts.ready o ho
        refine ⟨hpath, ?_, hmeta, hasc'⟩
        rw [hpath] at hopen ⊢
        rw [← hopen]
        exact openTable_write_old (s := s) t (hlt o ho).ne
      · rw [List.mem_singleton.mp ho]
        exact ⟨rfl, openTable_writeTable_self _ _ _ _, rfl, hasc⟩
    · refine ascending_append.mpr ⟨houts.numbers, List.pairwise_singleton _ _, ?_⟩
      intro o ho o' ho'
      rw [List.mem_singleton.mp ho']
      exact hlt o ho
    · intro o ho f hf
      rcases List.mem_append.mp ho with ho | ho
      · exact houts.above o ho f hf
      · rw [List.mem_singleton.mp ho]
        exact h.below v f hf
    · rw [List.flatMap_append, List.flatMap_singleton, hentries]
      exact hmerge

theorem StoreInv.change_run {s s' : Store} (h : StoreInv scanned s) (hvm : s'.vmgr = s.vmgr)
    (hreaders : s'.sst_readers = s.sst_readers) (hdir : s'.dir = s.dir)
    (hpending : s'.pending_delete = s.pending_delete) (hbuilt : s'.built = s.built)
    (hunpublished : s'.unpublished = s.unpublished)
    (hprogress : s'.compaction_in_progress = s'.compaction.isSome)
    (hcompacting : s'.compacting_files =
      (s'.compaction.map fun run => run.work.job.numbers).getD [])
    (hrun : ∀ run, s'.compaction = some run → RunInv scanned s' run) : StoreInv scanned s' := by
  have hsettled : ∀ n, s.Settled n → s'.Settled n := by
    intro n hn
    rw [Store.Settled, hvm, hunpublished]
    exact hn
  refine ⟨?_, ?_, ?_, ?_, ?_, ?_, ?_, ?_, ?_, ?_, ?_, ?_, hprogress, hcompacting, hrun⟩
  · rw [hvm]; exact h.name_eq
  · rw [hvm]; exact h.ordered
  · rw [hvm]; exact h.below
  · rw [hvm]
    intro l f hf
    exact (h.live l f hf).congr (by rw [hvm]) (by rw [hreaders]) (by rw [hdir])
  · rw [hvm]; exact h.one_level
  · intro key
    rw [hvm, versionsIn_congr (s := s) fun f _ => tableAt_congr (by rw [hreaders])]
    exact h.level_one key
  · intro r hr
    obtain ⟨n, hn, hname⟩ := h.readers r (hreaders ▸ hr)
    exact ⟨n, hsettled n hn, by rw [hvm]; exact hname⟩
  · intro name hname
    rw [hvm, hpending] at hname
    obtain ⟨n, hn, hfree, heq⟩ := h.retired name hname
    exact ⟨n, hsettled n hn, by rw [hvm]; exact hfree, by rw [hvm]; exact heq⟩
  · rw [hunpublished, hvm]; exact h.unpublished_lt
  · rw [hunpublished, hvm]; exact h.unpublished_new
  · rw [hunpublished]; exact h.unpublished_nodup
  · rw [hbuilt, hdir, hvm]; exact h.built

theorem smallestKey_le (front : FileMeta) (files : List FileMeta) :
    smallestKey front files ≤ front.smallest ∧ ∀ f ∈ files, smallestKey front files ≤ f.smallest := by
  have hfold : ∀ (files : List FileMeta) (k : TsKey),
      let r := files.foldl
        (fun k f => if tsKeyComparator f.smallest k = .lt then f.smallest else k) k
      r ≤ k ∧ ∀ f ∈ files, r ≤ f.smallest := by
    intro files
    induction files with
    | nil => exact fun k => ⟨le_rfl, fun f hf => by contradiction⟩
    | cons g files ih =>
      intro k
      obtain ⟨hk, hall⟩ := ih (if tsKeyComparator g.smallest k = .lt then g.smallest else k)
      have hstep : (if tsKeyComparator g.smallest k = .lt then g.smallest else k) ≤ k ∧
          (if tsKeyComparator g.smallest k = .lt then g.smallest else k) ≤ g.smallest := by
        split_ifs with hlt
        · exact ⟨(tsKeyComparator_lt_iff.mp hlt).le, le_rfl⟩
        · exact ⟨le_rfl, not_lt.mp fun h => hlt (tsKeyComparator_lt_iff.mpr h)⟩
      refine ⟨hk.trans hstep.1, fun f hf => ?_⟩
      rcases List.mem_cons.mp hf with rfl | hf
      · exact hk.trans hstep.2
      · exact hall f hf
  exact hfold files front.smallest

theorem le_largestKey (front : FileMeta) (files : List FileMeta) :
    front.largest ≤ largestKey front files ∧ ∀ f ∈ files, f.largest ≤ largestKey front files := by
  have hfold : ∀ (files : List FileMeta) (k : TsKey),
      let r := files.foldl
        (fun k f => if tsKeyComparator f.largest k = .gt then f.largest else k) k
      k ≤ r ∧ ∀ f ∈ files, f.largest ≤ r := by
    intro files
    induction files with
    | nil => exact fun k => ⟨le_rfl, fun f hf => by contradiction⟩
    | cons g files ih =>
      intro k
      obtain ⟨hk, hall⟩ := ih (if tsKeyComparator g.largest k = .gt then g.largest else k)
      have hstep : k ≤ (if tsKeyComparator g.largest k = .gt then g.largest else k) ∧
          g.largest ≤ (if tsKeyComparator g.largest k = .gt then g.largest else k) := by
        split_ifs with hgt
        · exact ⟨(tsKeyComparator_gt_iff.mp hgt).le, le_rfl⟩
        · exact ⟨le_rfl, not_lt.mp fun h => hgt (tsKeyComparator_gt_iff.mpr h)⟩
      refine ⟨hstep.1.trans hk, fun f hf => ?_⟩
      rcases List.mem_cons.mp hf with rfl | hf
      · exact hstep.2.trans hk
      · exact hall f hf
  exact hfold files front.largest

theorem exists_of_versionsIn_ne_nil {s : Store} {files : List FileMeta} {key : TsKey}
    (h : s.versionsIn files key ≠ []) : ∃ f ∈ files, ∃ e, (s.tableAt f).getEntry key = some e := by
  obtain ⟨e, he⟩ := List.exists_mem_of_ne_nil _ h
  obtain ⟨t, ht, hget⟩ := List.mem_filterMap.mp he
  obtain ⟨f, hf, rfl⟩ := List.mem_map.mp (List.mem_reverse.mp ht)
  exact ⟨f, hf, e, hget⟩

theorem Live.bounds {s : Store} {f : FileMeta} (h : Live s f) {key : TsKey} {e : InternalEntry}
    (hkey : (s.tableAt f).getEntry key = some e) : f.smallest ≤ key ∧ key ≤ f.largest := by
  have hsmall : f.smallest = (s.tableAt f).minKey := congrArg FileMeta.smallest h.meta_eq
  have hlarge : f.largest = (s.tableAt f).maxKey := congrArg FileMeta.largest h.meta_eq
  rw [hsmall, hlarge]
  exact bounds_of_mem h.ascending (mem_of_lookup hkey)

/-- Where a key occurs at most once, any split of the files puts it in one part. -/
theorem versionsIn_split {s : Store} {files : List FileMeta} (p : FileMeta → Bool) {key : TsKey}
    (h : (s.versionsIn files key).length ≤ 1) :
    s.versionsIn files key =
      s.versionsIn (files.filter p) key ++ s.versionsIn (files.filter fun f => !p f) key := by
  rw [← versionsIn_append]
  have hperm : (s.versionsIn ((files.filter fun f => !p f) ++ files.filter p) key).Perm
      (s.versionsIn files key) := by
    apply List.Perm.filterMap
    apply (List.reverse_perm _).trans
    refine List.Perm.trans ?_ (List.reverse_perm _).symm
    apply List.Perm.map
    exact List.perm_append_comm.trans (List.filter_append_perm p files)
  cases hv : s.versionsIn files key with
  | nil => rw [hv] at hperm; exact hperm.eq_nil.symm
  | cons e rest =>
    rw [hv, List.length_cons] at h
    obtain rfl : rest = [] := List.length_eq_zero_iff.mp (by omega)
    rw [hv] at hperm
    exact (List.perm_singleton.mp hperm).symm

theorem inner_level : ∀ level ∈ ([1, 2, 3, 4, 5] : List (Fin kMaxLevel)),
    level.val + 1 < kMaxLevel ∧ level.val ≠ 0 := by decide

/-- What a pick can choose: L0 with the L1 files in its key range, or one whole level. -/
theorem pick_shape {s : Store} {force : Bool} {ttl_map : TtlMap} {work : CompactionWork}
    (h : StoreInv scanned s) (hp : s.pickCompactionWork force ttl_map = some work) :
    s.compaction = none ∧ work.ttl_snapshot = ttl_map ∧
      ∃ u v p upper newer, JobShape s work.job u v p upper newer := by
  unfold Store.pickCompactionWork at hp
  split_ifs at hp with hprogress
  have hnone : s.compaction = none := by
    rw [h.in_progress] at hprogress
    simpa using hprogress
  have hall : (s.vmgr.current.level_files 0).filter (fun f =>
      !s.compacting_files.contains f.file_number) = s.vmgr.current.level_files 0 := by
    rw [h.compacting, hnone]
    simp
  have hlevel : s.pickLevel ttl_map = some work → work.ttl_snapshot = ttl_map ∧
      ∃ u v p upper newer, JobShape s work.job u v p upper newer := by
    intro hpick
    obtain ⟨level, hmem, hsome⟩ := List.exists_of_findSome?_eq_some hpick
    dsimp only at hsome
    split_ifs at hsome
    obtain rfl := Option.some.inj hsome
    have hlt := inner_level level hmem
    refine ⟨rfl, level, ⟨level.val + 1, hlt.1⟩, fun _ => false, s.vmgr.current.level_files level, [],
      rfl, by push_cast; rfl, by simp, (List.append_nil _).symm, fun _ => rfl, fun key => ?_,
      fun hzero => absurd hzero hlt.2⟩
    simp
  rw [hall] at hp
  refine ⟨hnone, ?_⟩
  cases hl0 : s.vmgr.current.level_files 0 with
  | nil =>
    rw [hl0] at hp
    exact hlevel hp
  | cons front others =>
    rw [hl0] at hp
    dsimp only at hp
    split_ifs at hp with hforce
    · obtain rfl := Option.some.inj hp
      refine ⟨rfl, 0, 1, _, front :: others, [], rfl, rfl, rfl, by rw [hl0, List.append_nil],
        fun _ => rfl, fun key => versionsIn_split _ (h.level_one key), fun _ key hne => ?_⟩
      by_contra hkept
      have hone := h.level_one key
      obtain ⟨f, hf, e, hfe⟩ := exists_of_versionsIn_ne_nil hkept
      rw [versionsIn_split (fun f => !(tsKeyComparator f.largest
        (smallestKey front (front :: others)) == .lt || tsKeyComparator f.smallest
        (largestKey front (front :: others)) == .gt)) hone, List.length_append] at hone
      rw [versionsIn_append] at hne
      obtain ⟨c, hc, e', hce⟩ : ∃ c ∈ front :: others, ∃ e, (s.tableAt c).getEntry key = some e := by
        apply exists_of_versionsIn_ne_nil
        intro hnil
        rw [hnil, List.nil_append] at hne
        have h1 := List.length_pos_of_ne_nil hne
        have h2 := List.length_pos_of_ne_nil hkept
        omega
      -- both bounds of `f` reach the key, so the pick takes it
      obtain ⟨hmem, hout⟩ := List.mem_filter.mp hf
      obtain ⟨hf1, hf2⟩ := (h.live 1 f hmem).bounds hfe
      obtain ⟨hc1, hc2⟩ := (h.live 0 c (hl0 ▸ hc)).bounds hce
      have hlo := (smallestKey_le front (front :: others)).2 c hc
      have hhi := (le_largestKey front (front :: others)).2 c hc
      have hnotlt : tsKeyComparator f.largest (smallestKey front (front :: others)) ≠ .lt := fun hlt =>
        not_le.mpr (tsKeyComparator_lt_iff.mp hlt) ((hlo.trans hc1).trans hf2)
      have hnotgt : tsKeyComparator f.smallest (largestKey front (front :: others)) ≠ .gt := fun hgt =>
        not_le.mpr (tsKeyComparator_gt_iff.mp hgt) ((hf1.trans hc2).trans hhi)
      simp [hnotlt, hnotgt] at hout
    · exact hlevel hp

theorem storeInv_afterPick {s : Store} {force : Bool} {ttl_map : TtlMap} {work : CompactionWork}
    (h : StoreInv scanned s) (hp : s.pickCompactionWork force ttl_map = some work) :
    StoreInv scanned (s.afterPick work) := by
  obtain ⟨hnone, -, u, v, p, upper, newer, hshape⟩ := pick_shape h hp
  refine h.change_run rfl rfl rfl rfl rfl ?_ rfl ?_ ?_
  · rw [Store.unpublished, Store.unpublished, hnone]
    rfl
  · change s.compacting_files ++ work.job.numbers = _
    rw [h.compacting, hnone]
    rfl
  · intro run hrun
    obtain rfl := Option.some.inj hrun
    exact ⟨u, v, p, upper, newer, hshape.congr rfl hshape.upper_eq hshape.whole fun _ _ _ => rfl,
      rfl⟩

end MiniTsdb
