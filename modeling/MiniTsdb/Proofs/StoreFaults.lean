import MiniTsdb.Proofs.DiskSteps
import MiniTsdb.Proofs.StoreDisk

/-! Steps of the store that end with an error: the version, what a search meets and the
invariant stay. -/

namespace MiniTsdb
open Lib

variable {scanned : TsKey → Bool}

/-- What an error leaves: the version and the readers, and of the files in the making those
that are still in the making. -/
structure Forgets (s s' : Store) : Prop where
  name_eq : s'.vmgr.manifest_name = s.vmgr.manifest_name
  db_dir : s'.vmgr.db_dir = s.vmgr.db_dir
  current : s'.vmgr.current = s.vmgr.current
  obsolete : s'.vmgr.obsolete_files = s.vmgr.obsolete_files
  next : s.vmgr.next_file_number ≤ s'.vmgr.next_file_number
  pending : s'.pending_delete = s.pending_delete
  readers : ∃ more, s'.sst_readers = s.sst_readers ++ more ∧ ∀ r ∈ more,
    ∃ n ∈ s.unpublished, n ∉ s'.unpublished ∧ r.file_name = s.vmgr.newFileName n
  unpublished : s'.unpublished.Sublist s.unpublished
  disk : ∀ n, (n ∈ s.unpublished → n ∈ s'.unpublished) →
    openTable s.vmgr.db_dir s'.dir (s.vmgr.newFileName n) =
      openTable s.vmgr.db_dir s.dir (s.vmgr.newFileName n)
  built : ∀ b, s'.built = some b → s.built = some b
  run : s'.compaction = s.compaction ∧ s'.compaction_in_progress = s.compaction_in_progress ∧
      s'.compacting_files = s.compacting_files ∨
    s'.compaction = none ∧ s'.compaction_in_progress = false ∧ s'.compacting_files = []

theorem Forgets.trans {s s' s'' : Store} (h : Forgets s s') (h' : Forgets s' s'') : Forgets s s'' := by
  obtain ⟨more, hmore, hnew⟩ := h.readers
  obtain ⟨more', hmore', hnew'⟩ := h'.readers
  have hpath : ∀ n, s'.vmgr.newFileName n = s.vmgr.newFileName n := fun n => by
    rw [VersionManager.newFileName, VersionManager.newFileName, h.db_dir]
  refine ⟨h'.name_eq.trans h.name_eq, h'.db_dir.trans h.db_dir, h'.current.trans h.current,
    h'.obsolete.trans h.obsolete, h.next.trans h'.next, h'.pending.trans h.pending,
    ⟨more ++ more', ?_, fun r hr => ?_⟩, h'.unpublished.trans h.unpublished, fun n hn => ?_,
    fun b hb => h.built b (h'.built b hb), ?_⟩
  · rw [hmore', hmore, List.append_assoc]
  · rcases List.mem_append.mp hr with hr | hr
    · obtain ⟨n, hn, hgone, hname⟩ := hnew r hr
      exact ⟨n, hn, fun hm => hgone (h'.unpublished.subset hm), hname⟩
    · obtain ⟨n, hn, hgone, hname⟩ := hnew' r hr
      exact ⟨n, h.unpublished.subset hn, hgone, hname.trans (hpath n)⟩
  · have hsecond := h'.disk n fun hm => hn (h.unpublished.subset hm)
    rw [h.db_dir, hpath] at hsecond
    exact hsecond.trans (h.disk n fun hm => h'.unpublished.subset (hn hm))
  · rcases h'.run with ⟨hsame, hprogress, hfiles⟩ | hnone
    · rw [hsame, hprogress, hfiles]
      exact h.run
    · exact Or.inr hnone

section
variable {s s' : Store} (h : StoreInv scanned s) (hf : Forgets s s')
include h hf

theorem Forgets.preserves : Preserves s s' := by
  obtain ⟨more, hmore, hnew⟩ := hf.readers
  refine ⟨hf.name_eq, hf.db_dir, hf.current, hf.next, fun l f hmem => ?_, fun l f hmem => ?_,
    fun r hr => ?_, fun name hname => ?_, hf.unpublished, fun n hn => hf.disk n fun _ => hn, hf.built,
    hf.run⟩
  · rw [hmore, (h.live l f hmem).reader]
    exact findReader_append_of_some (h.live l f hmem).reader more
  · rw [(h.live l f hmem).path]
    exact hf.disk _ fun hn => absurd rfl (h.unpublished_new _ hn l f hmem)
  · rw [hmore] at hr
    exact (List.mem_append.mp hr).imp_right (hnew r)
  · rw [hf.obsolete, hf.pending] at hname
    exact hname

theorem storeInv_forgets : StoreInv scanned s' := storeInv_preserves h (hf.preserves h)

theorem met_forgets (key : TsKey) : s'.met key = s.met key := met_preserves (hf.preserves h) key

end

theorem forgets_counter (s : Store) : Forgets s { s with vmgr := s.vmgr.newFileNumber.2 } :=
  ⟨rfl, rfl, rfl, rfl, Nat.le_succ s.vmgr.next_file_number, rfl, ⟨[], (List.append_nil _).symm, fun r hr => by contradiction⟩,
    List.Sublist.refl _, fun _ _ => rfl, fun _ hb => hb, Or.inl ⟨rfl, rfl, rfl⟩⟩

section
variable {s : Store} (h : StoreInv scanned s)
include h

theorem forgets_manifest (files : Files) :
    Forgets s { s with vmgr := { s.vmgr with manifest_name := s.vmgr.manifestPath }, files := files } :=
  ⟨(manifestPath_eq h.name_eq).trans h.name_eq.symm, rfl, rfl, rfl, le_rfl, rfl,
    ⟨[], (List.append_nil _).symm, fun r hr => by contradiction⟩,
    List.Sublist.refl _, fun _ _ => rfl, fun _ hb => hb, Or.inl ⟨rfl, rfl, rfl⟩⟩

theorem forgets_dropBuilt {n : ℕ} {t : SSTable} (hb : s.built = some (n, t)) (readers : List TableReader)
    (hreaders : ∀ r ∈ readers, r.file_name = s.vmgr.newFileName n) (dir : SstDir)
    (hdir : ∀ m, m ≠ n → openTable s.vmgr.db_dir dir (s.vmgr.newFileName m) =
      openTable s.vmgr.db_dir s.dir (s.vmgr.newFileName m)) :
    Forgets s { s with built := none, sst_readers := s.sst_readers ++ readers, dir := dir } := by
  have hold : s.unpublished = n :: Store.unpublished { s with
      built := none, sst_readers := s.sst_readers ++ readers, dir := dir } := by
    rw [Store.unpublished, hb]
    rfl
  have hgone : n ∉ Store.unpublished { s with
      built := none, sst_readers := s.sst_readers ++ readers, dir := dir } := by
    have hnodup := h.unpublished_nodup
    rw [hold] at hnodup
    exact (List.nodup_cons.mp hnodup).1
  refine ⟨rfl, rfl, rfl, rfl, le_rfl, rfl, ⟨readers, rfl, fun r hr => ?_⟩, ?_, fun m hm => hdir m ?_,
    fun b hb => by contradiction, Or.inl ⟨rfl, rfl, rfl⟩⟩
  · exact ⟨n, mem_unpublished_built hb, hgone, hreaders r hr⟩
  · rw [hold]
    exact List.sublist_cons_self _ _
  · rintro rfl
    exact hgone (hm (mem_unpublished_built hb))

theorem forgets_abort (hn : Numbered s) {run : CompactionRun} (hrun : s.compaction = some run) :
    Forgets s (s.abortCompaction run) := by
  have hold : s.unpublished = (s.abortCompaction run).unpublished ++ run.result.edit.addedNumbers := by
    rw [Store.unpublished, hrun, Store.unpublished]
    simp [Store.abortCompaction, Store.finishCompaction]
  refine ⟨rfl, rfl, rfl, rfl, le_rfl, rfl, ⟨[], (List.append_nil _).symm, fun r hr => by contradiction⟩,
    ?_, fun n hkept => ?_, fun _ hb => hb, Or.inr ⟨rfl, rfl, ?_⟩⟩
  · rw [hold]
    exact List.sublist_append_left _ _
  · refine openTable_foldl_removeTable _ _ fun hm => ?_
    obtain ⟨hnew, hpath⟩ := hn.run run hrun
    rw [hnew] at hm
    obtain ⟨a, ha, heq⟩ := List.mem_map.mp hm
    have hadded : n ∈ run.result.edit.addedNumbers := by
      rw [hpath a ha] at heq
      exact List.mem_map.mpr ⟨a, ha, newFileName_injective _ heq⟩
    have hnodup := h.unpublished_nodup
    rw [hold] at hnodup
    exact (List.nodup_append.mp hnodup).2.2 n (hkept (mem_unpublished_run hrun hadded)) n hadded rfl
  · change s.compacting_files.filter _ = []
    rw [h.compacting, hrun]
    refine List.filter_eq_nil_iff.mpr fun n hn => ?_
    simpa using hn

theorem forgets_fails {s' : Store} {a : DiskAction} (hn : Numbered s) (hs : FailStep s a s') :
    Forgets s s' := by
  cases hs with
  | finish hbuilt => exact forgets_counter s
  | @openTable n t readable hbuilt =>
    have hdrop := forgets_dropBuilt h hbuilt [] (fun r hr => by contradiction)
      ((s.dir.filter fun e => e.1 != sstName n) ++ [(sstName n, if readable then some t else none)])
      fun m hm => openTable_replaced s.dir _ fun he => hm (sstName_injective he)
    rw [List.append_nil] at hdrop
    exact hdrop
  | @logFlush n t failure hbuilt =>
    have hlog := forgets_manifest h
      (failure.files s.vmgr s.files (editText (flushEdit (s.flushFile n t)) s.vmgr.next_file_number))
    refine hlog.trans (forgets_dropBuilt (storeInv_forgets h hlog) hbuilt _ (fun r hr => ?_) _ fun _ _ => rfl)
    rw [List.mem_singleton.mp hr]
    rfl
  | run hrun hrest =>
    have hcounter := forgets_counter s
    exact hcounter.trans (forgets_abort (storeInv_forgets h hcounter) hn.counter hrun)
  | @commit run failure hrun hrest hvalid =>
    have hlog := forgets_manifest h
      (failure.files s.vmgr s.files (editText run.result.edit s.vmgr.next_file_number))
    exact hlog.trans (forgets_abort (storeInv_forgets h hlog)
      (hn.manifest s.vmgr.manifestPath _) hrun)

end

/-- The failures before the first byte. -/
def LogFailure.silent : LogFailure → Bool
  | .manifestOpen => true
  | .manifestWrite n => n == 0
  | _ => false

/-- Such a failure leaves the manifest as it is, or empty where there was none. -/
theorem logged_silent {vm : VersionManager} {files : Files} {failure : LogFailure} (text : Bytes)
    (hname : vm.manifest_name = joinPath vm.db_dir manifestFile)
    (hlog : Logged vm.db_dir vm.current files) (hsilent : failure.silent = true) :
    Logged vm.db_dir vm.current (failure.files vm files text) := by
  cases failure with
  | manifestOpen => exact hlog
  | manifestWrite n =>
    obtain rfl : n = 0 := by simpa [LogFailure.silent] using hsilent
    simp only [LogFailure.files, manifestPath_eq hname, List.take_zero, List.append_nil]
    refine ⟨namesManifest_update hlog.current_file _, ?_⟩
    have hmanifest := hlog.manifest
    rw [Function.update_self]
    cases hfile : files (joinPath vm.db_dir manifestFile) with
    | none =>
      rw [hfile] at hmanifest
      rw [hmanifest]
      exact manifestHolds_nil vm.db_dir
    | some old =>
      rw [hfile] at hmanifest
      exact hmanifest
  | currentOpen => contradiction
  | currentWrite n => contradiction

def DiskAction.silent : DiskAction → Bool
  | .logFlushError failure => failure.silent
  | .commitError failure => failure.silent
  | _ => true

section
variable {s s' : Store} {a : DiskAction} (hs : FailStep s a s')
include hs

/-- Files go, or the finished file of the flush thread is left over, readable or not. -/
theorem dir_fails : s'.dir.Sublist s.dir ∨ ∃ n t o, s.built = some (n, t) ∧
    (∀ t', o = some t' → t' = t) ∧
      s'.dir = (s.dir.filter fun e => e.1 != sstName n) ++ [(sstName n, o)] := by
  cases hs with
  | finish hbuilt => exact Or.inl (List.Sublist.refl _)
  | @openTable n t readable hbuilt =>
    refine Or.inr ⟨n, t, if readable then some t else none, hbuilt, fun t' ht' => ?_, rfl⟩
    split_ifs at ht'
    exact (Option.some.inj ht').symm
  | logFlush hbuilt => exact Or.inl (List.Sublist.refl _)
  | run hrun hrest => exact Or.inl (foldl_removeTable_sublist _ _ _)
  | commit hrun hrest hvalid => exact Or.inl (foldl_removeTable_sublist _ _ _)

theorem diskInv_fails (h : StoreInv scanned s) (hd : DiskInv s) : DiskInv s' := by
  rcases dir_fails hs with hdir | ⟨n, t, o, hb, ho, hdir⟩
  · exact hd.keep hdir
  · exact hd.write (fun t' ht' => ho t' ht' ▸ (h.built n t hb).2.1) hdir

theorem logged_fails (h : StoreInv scanned s) (hn : Numbered s) (hsilent : a.silent = true)
    (hlog : Logged s.vmgr.db_dir s.vmgr.current s.files) :
    Logged s'.vmgr.db_dir s'.vmgr.current s'.files := by
  have hf := forgets_fails h hn hs
  rw [hf.db_dir, hf.current]
  cases hs with
  | logFlush hbuilt => exact logged_silent _ h.name_eq hlog hsilent
  | commit hrun hrest hvalid => exact logged_silent _ h.name_eq hlog hsilent
  | _ => exact hlog

end

end MiniTsdb
