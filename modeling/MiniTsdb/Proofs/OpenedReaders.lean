import MiniTsdb.Proofs.Reopen

/-! The readers of an opened directory, whatever its manifest says: they hold tables of the
directory, and are those of the files of the version. -/

namespace MiniTsdb
open Lib

theorem init_below (db_dir : Bytes) (files : Files) : (VersionManager.init db_dir files).1.Below := by
  apply below_recoverFromManifest
  exact fun l f hf => absurd hf List.not_mem_nil

theorem readers_foldl_addScanned (es : List (Bytes × Option SSTable)) (s : Startup) :
    (es.foldl Startup.addScanned s).sst_readers = s.sst_readers ++ es.filterMap fun e =>
      e.2.map fun t => ⟨joinPath s.vm.db_dir e.1, t⟩ := by
  induction es generalizing s with
  | nil => exact (List.append_nil _).symm
  | cons e es ih =>
    rw [List.foldl_cons, ih, addScanned_db_dir, List.filterMap_cons, Startup.addScanned]
    cases e.2 with
    | none => rfl
    | some t => exact List.append_assoc _ _ _

/-- What the scan puts into the version is a table it met. -/
theorem scanned_path (es : List (Bytes × Option SSTable)) (s : Startup) {l : Fin kMaxLevel} {f : FileMeta}
    (hf : f ∈ (es.foldl Startup.addScanned s).vm.current.level_files l) :
    f ∈ s.vm.current.level_files l ∨
      ∃ e ∈ es, ∃ t, e.2 = some t ∧ f.file_name = joinPath s.vm.db_dir e.1 := by
  induction es generalizing s with
  | nil => exact Or.inl hf
  | cons e es ih =>
    rcases ih (s.addScanned e) hf with hf | ⟨e', he', t, ht, hname⟩
    · rcases (mem_addScanned s e l f).mp hf with hf | ⟨-, t, ht, rfl⟩
      · exact Or.inl hf
      · exact Or.inr ⟨e, List.mem_cons_self, t, ht, rfl⟩
    · rw [addScanned_db_dir] at hname
      exact Or.inr ⟨e', List.mem_cons_of_mem e he', t, ht, hname⟩

/-- The directory is `dir` before obsolete files are removed. -/
structure Startup.ReadsDir (dir : SstDir) (st : Startup) : Prop where
  kept : st.dir.Sublist dir
  held : ∀ r ∈ st.sst_readers, ∃ e ∈ dir, joinPath st.vm.db_dir e.1 = r.file_name ∧ e.2 = some r.table
  listed : ∀ r ∈ st.sst_readers, ∃ l, ∃ f ∈ st.vm.current.level_files l, f.file_name = r.file_name
  opened : ∀ l, ∀ f ∈ st.vm.current.level_files l, ∀ e ∈ dir, joinPath st.vm.db_dir e.1 = f.file_name →
    ∀ t, e.2 = some t → ∃ r ∈ st.sst_readers, r.file_name = f.file_name

theorem openTable_eq_some {db_dir : Bytes} {dir : SstDir} {path : Bytes} {t : SSTable}
    (h : openTable db_dir dir path = some t) : ∃ e ∈ dir, joinPath db_dir e.1 = path ∧ e.2 = some t := by
  obtain ⟨e, he, ht⟩ := Option.bind_eq_some_iff.mp h
  exact ⟨e, List.mem_of_find?_eq_some he, by simpa using List.find?_some he, ht⟩

theorem openTable_of_mem (db_dir : Bytes) {dir : SstDir} (h : (dir.map Prod.fst).Nodup)
    {e : Bytes × Option SSTable} (he : e ∈ dir) : openTable db_dir dir (joinPath db_dir e.1) = e.2 := by
  rw [openTable]
  cases hfind : dir.find? fun e' => joinPath db_dir e'.1 == joinPath db_dir e.1 with
  | none => simpa using List.find?_eq_none.mp hfind e he
  | some e' =>
    have hname : e'.1 = e.1 := by
      have heq := List.find?_some hfind
      rw [joinPath_beq] at heq
      simpa using heq
    obtain rfl := List.inj_on_of_nodup_map h (List.mem_of_find?_eq_some hfind) he hname
    rfl

theorem readsDir_version {st : Startup} (hnodup : (st.dir.map Prod.fst).Nodup) (hbelow : st.vm.Below)
    (hnone : st.sst_readers = []) (hne : ¬ st.vm.current.IsEmpty) :
    st.loadExistingSSTables.ReadsDir st.dir := by
  have ho := opened_version hbelow hnone hne
  have hload : st.loadExistingSSTables.sst_readers =
      ((st.vm.current.allFiles.map Prod.snd).foldl Startup.openReader st).sst_readers := by
    rw [Startup.loadExistingSSTables, if_pos ((numFiles_pos_iff _).mpr hne)]
    rfl
  obtain ⟨hvm, hfaithful, -, -⟩ := openReaders_spec (st.vm.current.allFiles.map Prod.snd)
    (s := st) (fun f hf => by
      obtain ⟨l, hl⟩ := mem_allFiles.mp hf
      exact hbelow l f hl)
    (fun r hr => by
      rw [hnone] at hr
      contradiction)
  obtain ⟨-, hdir, -⟩ := openReaders_frame (st.vm.current.allFiles.map Prod.snd) st
  refine ⟨?_, fun r hr => ?_, fun r hr => ?_, fun l f hf e he hpath t ht => ?_⟩
  · rw [ho.dir]
    exact List.filter_sublist
  · rw [hload] at hr
    have hopen := hfaithful r hr
    rw [hvm, hdir] at hopen
    rw [ho.vm]
    exact openTable_eq_some hopen
  · obtain ⟨l, f, hf, heq⟩ := ho.readers r hr
    exact ⟨l, f, ho.vm ▸ hf, heq.symm⟩
  · rw [ho.vm] at hf hpath
    have hopen := openTable_of_mem st.vm.db_dir hnodup he
    rw [hpath, ht] at hopen
    obtain ⟨hmem, hname⟩ := findReader_spec (ho.find l f hf t hopen)
    exact ⟨_, hmem, hname⟩

theorem readsDir_scan {st : Startup} (hnone : st.sst_readers = []) (hempty : st.vm.current.IsEmpty) :
    st.loadExistingSSTables.ReadsDir st.dir := by
  obtain ⟨hcurrent, hdir⟩ := scanDirectory_frame st
  have hfound : st.scanDirectory.sst_readers = ((scanOrder st.dir).foldl Startup.addScanned st).sst_readers ∧
      st.scanDirectory.vm.db_dir = ((scanOrder st.dir).foldl Startup.addScanned st).vm.db_dir := by
    unfold Startup.scanDirectory
    dsimp only
    split_ifs <;> exact ⟨rfl, rfl⟩
  have hdb : ∀ (es : SstDir) (s : Startup), (es.foldl Startup.addScanned s).vm.db_dir = s.vm.db_dir := by
    intro es
    induction es with
    | nil => exact fun s => rfl
    | cons e es ih => exact fun s => (ih _).trans (addScanned_db_dir s e)
  have hreaders : ∀ r, r ∈ st.scanDirectory.sst_readers ↔ ∃ e ∈ st.dir, isSst e.1 = true ∧
      ∃ t, e.2 = some t ∧ r = ⟨joinPath st.vm.db_dir e.1, t⟩ := by
    intro r
    rw [hfound.1, readers_foldl_addScanned, hnone, List.nil_append, List.mem_filterMap]
    refine ⟨?_, ?_⟩
    · rintro ⟨e, he, hr⟩
      obtain ⟨t, ht, rfl⟩ := Option.map_eq_some_iff.mp hr
      obtain ⟨hmem, hsst⟩ := mem_scanOrder.mp he
      exact ⟨e, hmem, hsst, t, ht, rfl⟩
    · rintro ⟨e, he, hsst, t, ht, rfl⟩
      exact ⟨e, mem_scanOrder.mpr ⟨he, hsst⟩, by rw [ht]; rfl⟩
  rw [load_of_empty hempty]
  refine ⟨?_, fun r hr => ?_, fun r hr => ?_, fun l f hf e he hpath t ht => ?_⟩
  · rw [hdir, foldl_addScanned_dir]
  · rw [hfound.2, hdb]
    obtain ⟨e, he, -, t, ht, rfl⟩ := (hreaders r).mp hr
    exact ⟨e, he, rfl, ht⟩
  · obtain ⟨e, he, hsst, t, ht, rfl⟩ := (hreaders r).mp hr
    obtain ⟨f, hf, hname⟩ := exists_scanned (s := st) (mem_scanOrder.mpr ⟨he, hsst⟩) ht
    rw [hcurrent]
    exact ⟨0, f, hf, hname⟩
  · rw [hcurrent] at hf
    rcases scanned_path _ st hf with hf | ⟨e', he', t', ht', hname⟩
    · rw [hempty l] at hf
      contradiction
    · obtain ⟨hmem, hsst⟩ := mem_scanOrder.mp he'
      exact ⟨_, (hreaders _).mpr ⟨e', hmem, hsst, t', ht', rfl⟩, hname.symm⟩

theorem readsDir_startup (db_dir : Bytes) (files : Files) {dir : SstDir} (h : (dir.map Prod.fst).Nodup) :
    (startup db_dir files dir).ReadsDir dir := by
  set st : Startup := ⟨(VersionManager.init db_dir files).1, [], files, dir⟩ with hst
  change st.loadExistingSSTables.ReadsDir st.dir
  by_cases hempty : st.vm.current.IsEmpty
  · exact readsDir_scan rfl hempty
  · exact readsDir_version h (init_below db_dir files) rfl hempty

theorem Startup.ReadsDir.find {dir : SstDir} {st : Startup} (h : st.ReadsDir dir)
    (hnodup : (dir.map Prod.fst).Nodup) {r : TableReader} (hr : r ∈ st.sst_readers) :
    findReader st.sst_readers r.file_name = some r := by
  cases hfind : findReader st.sst_readers r.file_name with
  | none => simpa using List.find?_eq_none.mp hfind r hr
  | some r' =>
    obtain ⟨hmem, hname⟩ := findReader_spec hfind
    obtain ⟨e, he, hpath, ht⟩ := h.held r hr
    obtain ⟨e', he', hpath', ht'⟩ := h.held r' hmem
    have hsame := openTable_of_mem st.vm.db_dir hnodup he
    have hsame' := openTable_of_mem st.vm.db_dir hnodup he'
    rw [hpath', hname, ← hpath, hsame, ht, ht'] at hsame'
    obtain ⟨path, t⟩ := r
    obtain ⟨path', t'⟩ := r'
    obtain rfl : path' = path := hname
    obtain rfl : t = t' := Option.some.inj hsame'
    rfl

end MiniTsdb
