import MiniTsdb.Proofs.StoreRuns

/-! What the store leaves on disk: finished tables under their own numbers, and a manifest
that stands for the current version. -/

namespace MiniTsdb
open Lib

variable {scanned : TsKey → Bool}

def Store.pendingEdit (s : Store) : StoreAction → Option VersionEdit
  | .commitFlush => s.built.map fun b => flushEdit (s.flushFile b.1 b.2)
  | .commit _ _ => s.compaction.map fun run => run.result.edit
  | .shutdown _ => some ⟨s.vmgr.current.allFiles, []⟩
  | _ => none

/-- Where the entries of a new table come from: the memtable, or live tables. -/
def Store.Sourced (s : Store) (a : StoreAction) (t : SSTable) : Prop :=
  a = .build t.entries ∨ ∀ key entry, t.getEntry key = some entry →
    ∃ l, ∃ f ∈ s.vmgr.current.level_files l, (s.tableAt f).getEntry key = some entry

inductive DiskStep (s s' : Store) (a : StoreAction) : Prop
  | keep (hdir : s'.dir.Sublist s.dir) (hfiles : s'.files = s.files)
      (hvm : s'.vmgr = { s.vmgr with obsolete_files := s'.vmgr.obsolete_files })
  | write (t : SSTable) (hasc : Ascending Prod.fst t.entries) (hsource : s.Sourced a t)
      (hvm : s'.vmgr = s.vmgr.newFileNumber.2) (hdir : s'.dir = writeTable s.dir (sstName s.vmgr.next_file_number) t)
      (hfiles : s'.files = s.files)
  | commit (edit : VersionEdit) (hedit : s.pendingEdit a = some edit) (hnew : edit.NewIn s.vmgr.current)
      (hdir : s'.dir.Sublist s.dir) (hfiles : s'.files = (s.vmgr.logAndApply s.files edit).2)
      (hcurrent : s'.vmgr.current = (s.vmgr.applyUnlocked edit).current)
      (hnext : s'.vmgr.next_file_number = s.vmgr.next_file_number)
      (hdb : s'.vmgr.db_dir = s.vmgr.db_dir)
  | snapshot (hedit : s.pendingEdit a = some ⟨s.vmgr.current.allFiles, []⟩)
      (hdir : s'.dir.Sublist s.dir) (hfiles : s'.files = (s'.vmgr.writeSnapshotManifest s.files).2)
      (hvm : s'.vmgr = { s.vmgr with obsolete_files := s'.vmgr.obsolete_files })

theorem diskStep_cleaned {s s' : Store} {a : StoreAction} (hc : Cleaned s s') : DiskStep s s' a :=
  .keep hc.dir hc.files hc.vmgr

/-- A finished file of a run is ascending, and part of the merge of the inputs. -/
theorem output_sourced {s : Store} {run : CompactionRun} {records : List Record} {t : SSTable}
    {a : StoreAction} (h : StoreInv scanned s) (hrun : s.compaction = some run)
    (hrest : run.rest = some records)
    (ht : s.chunkTable records = some t) : Ascending Prod.fst t.entries ∧ s.Sourced a t := by
  have hsplit := takeChunk_append (targetBytes s.target_file_size) 0 records
  have hentries := finishTable_entries ht
  obtain ⟨u, v, p, upper, newer, hshape, hstate⟩ := h.run run hrun
  unfold RunState at hstate
  rw [hrest] at hstate
  obtain ⟨outs, -, hmerge⟩ := hstate
  rw [← hsplit, List.map_append, ← List.append_assoc] at hmerge
  refine ⟨hentries ▸ (ascending_append.mp (ascending_append.mp hmerge.ascending).1).2.1,
    Or.inr fun key entry hentry => ?_⟩
  have hmem : (key, entry) ∈ outs.flatMap (fun o => o.2.entries) ++
      (takeChunk (targetBytes s.target_file_size) 0 records).1.map Record.pair ++
      (takeChunk (targetBytes s.target_file_size) 0 records).2.map Record.pair :=
    List.mem_append_left _ (List.mem_append_right _ (hentries ▸ mem_of_lookup hentry))
  have hlookup := hmerge.ascending.lookup_eq_some hmem
  rw [hmerge.lookup] at hlookup
  split_ifs at hlookup
  obtain ⟨table, htable, hget⟩ := List.mem_filterMap.mp (List.mem_of_head? hlookup)
  obtain ⟨input, hi, rfl⟩ := List.mem_map.mp (List.mem_reverse.mp htable)
  obtain ⟨l, -, hf⟩ := hshape.mem_input hi
  exact ⟨l, input.file, hf, hget⟩

theorem newIn_pending {s : Store} (h : StoreInv scanned s) {edit : VersionEdit}
    (hsub : edit.addedNumbers.Sublist s.unpublished) : edit.NewIn s.vmgr.current :=
  newIn_of_fresh (h.unpublished_nodup.sublist hsub) fun n hn => h.unpublished_new n (hsub.subset hn)

theorem commitFlush_disk {s s' : Store} (h : StoreInv scanned s) (hs : s.commitFlush = some s') :
    DiskStep s s' .commitFlush := by
  obtain ⟨n, t, hb, rfl⟩ := commitFlush_eq h hs
  refine .commit (flushEdit (s.flushFile n t)) (by rw [Store.pendingEdit, hb]; rfl) ?_
    (List.Sublist.refl _) rfl rfl (afterFlush_next h hb) afterFlush_db_dir
  apply newIn_pending h
  rw [afterFlush_unpublished hb]
  exact (List.nil_sublist _).cons_cons n

theorem commit_disk {s s' : Store} {run : CompactionRun} {cleanup_obsolete : Bool} {held : List Bytes}
    (h : StoreInv scanned s) (hrun : s.compaction = some run)
    (hs : s.commitCompaction run cleanup_obsolete held = some s') :
    DiskStep s s' (.commit cleanup_obsolete held) := by
  obtain ⟨hrest, -, rfl⟩ := commitCompaction_eq h hrun hs
  obtain ⟨u, v, p, upper, newer, hshape, hstate⟩ := h.run run hrun
  unfold RunState at hstate
  rw [hrest] at hstate
  obtain ⟨outs, houts, -⟩ := hstate
  have hedit : s.pendingEdit (.commit cleanup_obsolete held) = some run.result.edit := by
    rw [Store.pendingEdit, hrun]
    rfl
  have hnew : run.result.edit.NewIn s.vmgr.current := by
    apply newIn_pending h
    rw [afterCompaction_unpublished hrun]
    exact List.sublist_append_right _ _
  have hnext := afterCompaction_next h hrun houts
  cases cleanup_obsolete with
  | false =>
    exact .commit run.result.edit hedit hnew (List.Sublist.refl _) rfl rfl hnext afterCompaction_db_dir
  | true =>
    have hc := cleaned (s.afterCompaction run) held
    refine .commit run.result.edit hedit hnew hc.dir hc.files ?_ ?_ ?_
    · rw [if_pos rfl, hc.vmgr]
      rfl
    · rw [if_pos rfl, hc.vmgr]
      exact hnext
    · rw [if_pos rfl, hc.vmgr]
      exact afterCompaction_db_dir

theorem disk_step {s s' : Store} {a : StoreAction} (h : StoreInv scanned s)
    (hok : StoreScans scanned s a) (hs : s.step a = some s') : DiskStep s s' a := by
  cases store_kind hs with
  | build hnone ht =>
    have hentries := finishTable_entries ht
    exact .write _ (hentries ▸ hok) (Or.inl (hentries ▸ rfl)) rfl rfl rfl
  | commitFlush hc => exact commitFlush_disk h hc
  | pick => exact .keep (List.Sublist.refl _) rfl rfl
  | @skip _ _ held => exact diskStep_cleaned (cleaned_tryDelete s held)
  | refused => exact .keep (List.Sublist.refl _) rfl rfl
  | read => exact .keep (List.Sublist.refl _) rfl rfl
  | output hrun hrest hne ht =>
    obtain ⟨hasc, hsource⟩ := output_sourced h hrun hrest ht
    exact .write _ hasc hsource rfl rfl rfl
  | commit hrun hc => exact commit_disk h hrun hc
  | @cleanup held => exact diskStep_cleaned (cleaned s held)
  | @shutdown held =>
    have hc := cleaned s held
    rw [shutdown_eq h]
    exact .snapshot rfl hc.dir rfl hc.vmgr

/-- What a step writes to the manifest parses back. -/
def Store.LogsBack (s : Store) (a : StoreAction) : Prop :=
  ∀ edit, s.pendingEdit a = some edit → EditReadsBack s.vmgr.db_dir edit s.vmgr.next_file_number

structure DiskInv (s : Store) : Prop where
  names : (s.dir.map Prod.fst).Nodup
  tables : ∀ e ∈ s.dir, ∃ n o, e = (sstName n, o) ∧ ∀ t, o = some t → Ascending Prod.fst t.entries

theorem DiskInv.ascending {s : Store} (h : DiskInv s) {n : ℕ} {t : SSTable}
    (hmem : (sstName n, some t) ∈ s.dir) : Ascending Prod.fst t.entries := by
  obtain ⟨m, o, heq, hasc⟩ := h.tables _ hmem
  exact hasc t (Prod.mk.inj heq).2.symm

theorem DiskInv.keep {s s' : Store} (h : DiskInv s) (hdir : s'.dir.Sublist s.dir) : DiskInv s' :=
  ⟨h.names.sublist (hdir.map _), fun e he => h.tables e (hdir.subset he)⟩

theorem nodup_replaced {dir : SstDir} (h : (dir.map Prod.fst).Nodup) (name : Bytes)
    (content : Option SSTable) :
    (((dir.filter fun e => e.1 != name) ++ [(name, content)]).map Prod.fst).Nodup := by
  rw [List.map_append, List.nodup_append]
  refine ⟨h.sublist (List.filter_sublist.map _), List.nodup_singleton _, ?_⟩
  intro name' hname' name'' hname''
  obtain ⟨e, he, rfl⟩ := List.mem_map.mp hname'
  rw [List.mem_singleton.mp hname'']
  simpa using (List.mem_filter.mp he).2

theorem DiskInv.write {s s' : Store} (h : DiskInv s) {n : ℕ} {o : Option SSTable}
    (hasc : ∀ t, o = some t → Ascending Prod.fst t.entries)
    (hdir : s'.dir = (s.dir.filter fun e => e.1 != sstName n) ++ [(sstName n, o)]) : DiskInv s' := by
  refine ⟨?_, fun e he => ?_⟩
  · rw [hdir]
    exact nodup_replaced h.names (sstName n) o
  · rw [hdir] at he
    rcases List.mem_append.mp he with he | he
    · exact h.tables e (List.mem_of_mem_filter he)
    · exact ⟨n, o, List.mem_singleton.mp he, hasc⟩

theorem diskInv_step {s s' : Store} {a : StoreAction} (h : DiskInv s) (hinv : StoreInv scanned s)
    (hok : StoreScans scanned s a) (hs : s.step a = some s') : DiskInv s' := by
  cases disk_step hinv hok hs with
  | keep hdir hfiles hvm => exact h.keep hdir
  | snapshot hedit hdir hfiles hvm => exact h.keep hdir
  | commit edit hedit hnew hdir hfiles hcurrent hnext hdb => exact h.keep hdir
  | write t hasc hsource hvm hdir hfiles =>
    exact h.write (fun t' ht' => Option.some.inj ht' ▸ hasc) hdir

theorem logged_step {s s' : Store} {a : StoreAction} (hinv : StoreInv scanned s)
    (hlog : Logged s.vmgr.db_dir s.vmgr.current s.files) (hok : StoreScans scanned s a)
    (hback : s.LogsBack a) (hs : s.step a = some s') :
    s'.vmgr.db_dir = s.vmgr.db_dir ∧ Logged s.vmgr.db_dir s'.vmgr.current s'.files := by
  cases disk_step hinv hok hs with
  | keep hdir hfiles hvm =>
    rw [hfiles, hvm]
    exact ⟨rfl, hlog⟩
  | write t hasc hsource hvm hdir hfiles =>
    rw [hfiles, hvm]
    exact ⟨rfl, hlog⟩
  | commit edit hedit hnew hdir hfiles hcurrent hnext hdb =>
    obtain ⟨hlogged, happly⟩ := logged_logAndApply rfl hinv.name_eq hinv.ordered hlog hnew
      (hback edit hedit)
    rw [happly] at hlogged
    rw [hfiles, hcurrent]
    exact ⟨hdb, hlogged⟩
  | snapshot hedit hdir hfiles hvm =>
    have hname : s'.vmgr.manifest_name = joinPath s.vmgr.db_dir manifestFile := by
      rw [hvm]
      exact hinv.name_eq
    have hsame : s'.vmgr.current = s.vmgr.current ∧ s'.vmgr.db_dir = s.vmgr.db_dir ∧
        s'.vmgr.next_file_number = s.vmgr.next_file_number := by
      rw [hvm]
      exact ⟨rfl, rfl, rfl⟩
    obtain ⟨hcurrent, hdb, hnext⟩ := hsame
    rw [hfiles]
    refine ⟨hdb, (logged_writeSnapshotManifest hname (hcurrent ▸ hinv.ordered) hlog.current_file ?_).1⟩
    rw [hcurrent, hnext]
    exact hback _ hedit

end MiniTsdb
