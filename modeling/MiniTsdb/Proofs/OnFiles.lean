import MiniTsdb.Proofs.DeltaOfDelta
import MiniTsdb.Proofs.Journal
import MiniTsdb.Spec.OnFiles

/-! The engine on the bytes of its SSTables. Behind small operations every table in the
directory has a file that opens, of the size that was noted, and whatever the engine asks the
table, the file answers. -/

namespace MiniTsdb
open Lib

def Small (x : TsKey × InternalEntry) : Prop := x.1.measurement.length + x.2.value.length < 2 ^ 30

theorem Small.short {x : TsKey × InternalEntry} (h : Small x) : Short x := by
  unfold Small at h
  unfold Short
  omega

theorem encodeKey_length_le (key : TsKey) : (encodeKey key).length ≤ key.measurement.length + 13 := by
  have hvarint := encodeVarint_length_le_five key.measurement.length
  simp only [encodeKey, encodeFixed64, List.length_append, leBytes_length]
  omega

theorem encodeEntry_length_le (key : TsKey) (entry : InternalEntry) :
    (encodeEntry key entry).length ≤ key.measurement.length + entry.value.length + 24 := by
  have hkey := encodeKey_length_le key
  have hkeylen := encodeVarint_length_le_five (encodeKey key).length
  have hvalue := encodeVarint_length_le_five entry.value.length
  simp only [encodeEntry, List.length_append, List.length_cons]
  omega

/-- Only its last entry takes a block over the size at which it is cut. -/
theorem cutBlocks_length_lt {block_size n : ℕ} (hpos : 0 < block_size) (hsmall : block_size + n ≤ 2 ^ 31)
    {entries current : List (TsKey × InternalEntry)}
    (hentries : ∀ e ∈ entries, (encodeEntry e.1 e.2).length ≤ n)
    (hcurrent : (encodeBlock current).length < block_size) :
    ∀ b ∈ cutBlocks block_size current entries, (encodeBlock b).length < block_size + n := by
  induction entries generalizing current with
  | nil =>
    intro b hb
    rw [cutBlocks] at hb
    split_ifs at hb
    · contradiction
    · obtain rfl := List.mem_singleton.mp hb
      omega
  | cons e entries ih =>
    obtain ⟨he, hentries⟩ := List.forall_mem_cons.mp hentries
    have hone : encodeBlock [e] = encodeEntry e.1 e.2 := by simp [encodeBlock]
    have hlength : (encodeBlock (current ++ [e])).length < block_size + n := by
      rw [encodeBlock_append, hone, List.length_append]
      omega
    have hsize := asInt32_of_lt (hlength.trans_le hsmall)
    intro b hb
    rw [cutBlocks, hsize] at hb
    split_ifs at hb with hfull
    · rcases List.mem_cons.mp hb with rfl | hb
      · exact hlength
      · exact ih hentries (by simpa [encodeBlock] using hpos) b hb
    · exact ih hentries (by omega) b hb

theorem fits_of_small {t : SSTable} (hfinished : t.Finished) (hsmall : ∀ x ∈ t.entries, Small x) : t.Fits := by
  refine ⟨fun x hx => ?_, fun b hb => ?_, ?_⟩
  · have hx := hsmall x hx
    have hkey := encodeKey_length_le x.1
    unfold Small at hx
    constructor <;> omega
  · have hentries : ∀ x ∈ t.entries, (encodeEntry x.1 x.2).length ≤ 2 ^ 30 + 24 := by
      intro x hx
      have hx := hsmall x hx
      have hentry := encodeEntry_length_le x.1 x.2
      unfold Small at hx
      omega
    have hlt := @cutBlocks_length_lt 4096 (2 ^ 30 + 24) (by norm_num) (by norm_num) t.entries [] hentries
      (by simp [encodeBlock]) b hb
    omega
  · obtain ⟨file, hbuilt, -⟩ := Option.map_eq_some_iff.mp hfinished
    exact (buildSSTable_isSome_iff 4096 t.entries).mp (by rw [hbuilt]; rfl)

/-- The reader of a file answers what the engine asks the table. -/
structure SSTable.ReadBy (t : SSTable) (reader : SSTableReader) : Prop where
  size : reader.file.length = t.file_size
  min_key : reader.min_key = t.minKey
  max_key : reader.max_key = t.maxKey
  get : ∀ key, reader.getEntry key = some (t.getEntry key)
  scan : ∀ first last, reader.rangeScanEntries first last = t.rangeScanEntries first last

theorem recordsBetween_rangeScanEntries (t : SSTable) (first last : TsKey) :
    recordsBetween t.entries first last = t.rangeScanEntries first last := by
  rw [recordsBetween, SSTable.rangeScanEntries, SSTable.records, List.filter_map]
  rfl

theorem openFile_readBy {t : SSTable} (hfinished : t.Finished) (hasc : Ascending Prod.fst t.entries)
    (hfits : t.Fits) : ∃ reader, t.openFile = some reader ∧ buildSSTable 4096 t.entries = some reader.file ∧
      SSTableReader.open reader.file = some (.ok reader) ∧ t.ReadBy reader := by
  obtain ⟨file, reader, hbuilt, hopen, hreads⟩ :=
    roundTrips_of_count hasc hfits.entries hfits.blocks hfits.count
  obtain ⟨file', bloom, hbuilt', hopen', -⟩ := opens_of_count hfits.entries hfits.blocks hfits.count
  obtain rfl := Option.some.inj (hbuilt.symm.trans hbuilt')
  have hreader := Except.ok.inj (Option.some.inj (hopen.symm.trans hopen'))
  have hfile : reader.file = file := by rw [hreader]; rfl
  have hsize : file.length = t.file_size := by
    obtain ⟨file', hfile', ht⟩ := Option.map_eq_some_iff.mp hfinished
    obtain rfl := Option.some.inj (hbuilt.symm.trans hfile')
    exact congrArg SSTable.file_size ht
  refine ⟨reader, ?_, hfile ▸ hbuilt, hfile ▸ hopen, ?_, ?_, ?_, fun key => ?_, fun first last => ?_⟩
  · rw [SSTable.openFile, hbuilt, Option.bind_some, hopen]
  · rw [hfile]
    exact hsize
  · cases hfirst : t.entries.head? with
    | some x => rw [hreads.min_key x hfirst, SSTable.minKey, hfirst]; rfl
    | none => rw [hreader, SSTable.minKey, hfirst, List.head?_eq_none_iff.mp hfirst]; rfl
  · cases hlast : t.entries.getLast? with
    | some x => rw [hreads.max_key x hlast, SSTable.maxKey, hlast]; rfl
    | none => rw [hreader, SSTable.maxKey, hlast, List.getLast?_eq_none_iff.mp hlast]; rfl
  · by_cases hmem : ∃ x ∈ t.entries, x.1 = key
    · obtain ⟨x, hx, rfl⟩ := hmem
      rw [hreads.found x hx, SSTable.getEntry, hasc.lookup_eq_some hx]
    · have habsent : ∀ x ∈ t.entries, x.1 ≠ key := fun x hx heq => hmem ⟨x, hx, heq⟩
      rw [hreads.absent key habsent, SSTable.getEntry, lookup_eq_none_of_ne habsent]
  · rw [hreads.scan, recordsBetween_rangeScanEntries]

theorem forall₂_filterMap {α β : Type} {R : α → β → Prop} {f : β → Option α} {ys : List β}
    (h : ∀ y ∈ ys, ∃ x, f y = some x ∧ R x y) : List.Forall₂ R (ys.filterMap f) ys := by
  induction ys with
  | nil => exact .nil
  | cons y ys ih =>
    obtain ⟨⟨x, hx, hrel⟩, hys⟩ := List.forall_mem_cons.mp h
    rw [List.filterMap_cons_some hx]
    exact .cons hrel (ih hys)

theorem Filed.openFile {dir : SstDir} (h : Filed Small dir) {f : Bytes × Option SSTable} (hf : f ∈ dir)
    {t : SSTable} (ht : f.2 = some t) :
    ∃ reader, t.openFile = some reader ∧ buildSSTable 4096 t.entries = some reader.file ∧
      SSTableReader.open reader.file = some (.ok reader) ∧ t.ReadBy reader :=
  openFile_readBy (h.finished f hf t ht) (h.ascending f hf t ht)
    (fits_of_small (h.finished f hf t ht) (h.entries f hf t ht))

variable {e : Engine}

theorem onFiles_opens (hinv : EngineInv e) (hfiled : Filed Small e.store.dir) (l : Fin kMaxLevel) :
    List.Forall₂ FileRef.Opens (e.captureReadView.onFiles.levels l) (e.store.captureLevels l) := by
  refine forall₂_filterMap fun c hc => ?_
  change c ∈ e.store.captureLevels l at hc
  rw [captureLevels_live (hinv.store.live l)] at hc
  obtain ⟨f, hf, rfl⟩ := List.mem_map.mp hc
  have hlive := hinv.store.live l f hf
  obtain ⟨g, hg, ht⟩ := openTable_mem hlive.disk
  obtain ⟨reader, hopen, hbuilt, hopened, -⟩ := hfiled.openFile hg ht
  have hfits := fits_of_small (hfiled.finished g hg _ ht) (hfiled.entries g hg _ ht)
  refine ⟨⟨f, reader⟩, ?_, rfl, 4096, hlive.ascending, hfits.entries, hfits.blocks, hbuilt, hopened,
    fun x hx => ?_⟩
  · rw [ReaderRef.onFile, hopen, Option.map_some]
  · exact hlive.bounds (hlive.ascending.lookup_eq_some hx)

theorem readFile_eq (hfiled : Filed Small e.store.dir) (fname : Bytes) :
    e.store.readFile fname = e.store.makeSSTReader fname := by
  rw [Store.readFile, Store.makeSSTReader]
  cases ht : openTable e.store.vmgr.db_dir e.store.dir fname with
  | none => rfl
  | some t =>
    obtain ⟨g, hg, ht⟩ := openTable_mem ht
    obtain ⟨reader, hopen, -, -, hreads⟩ := hfiled.openFile hg ht
    rw [Option.bind_some, hopen]
    exact hreads.scan sstScanFirst sstScanLast

theorem onFiles_get (hinv : EngineInv e) (hfiled : Filed Small e.store.dir) (key : TsKey) :
    e.captureReadView.onFiles.get key = some (e.get key) := by
  have htables := getFromSSTables_opens (onFiles_opens hinv hfiled) key
  have hmem : e.captureReadView.onFiles.mem = e.mem := rfl
  have himm : e.captureReadView.onFiles.imm = e.imm := rfl
  have httl : e.captureReadView.onFiles.ttl_map = e.ttl_map := rfl
  rw [FileView.get, htables, hmem, himm, httl, Engine.get, Engine.captureReadView, ReadView.get]
  dsimp only
  split_ifs
  · rfl
  · cases e.mem.getEntry key with
    | some entry => rfl
    | none =>
      cases e.imm.bind fun m => m.getEntry key with
      | some entry => rfl
      | none => cases MiniTsdb.getFromSSTables e.store.captureLevels key <;> rfl

/-- Where a version has fewer files in a level than the ranks of a scan tell apart. -/
theorem onFiles_shows (hinv : EngineInv e) (hfiled : Filed Small e.store.dir)
    (hfew : ∀ l, (e.store.vmgr.current.level_files l).length < 100000) :
    e.captureReadView.onFiles.Shows e := by
  have hopens := onFiles_opens hinv hfiled
  refine ⟨rfl, rfl, rfl, hopens, fun l => ?_⟩
  rw [(hopens l).length_eq, captureLevels_live (hinv.store.live l), List.length_map]
  exact hfew l

/-- In a sound run whose operations are small, whatever writers, flushes, compactions and deaths it has,
every table in the directory has a file that opens, has the size noted and answers what the engine
asks the table: its bounds, a look-up, a scan. So the metas of the version are those of its files,
compactions read of the files what they read of the tables, a `Get` on the open files returns
what the engine's does, and so does every point of a `RangeQuery` on them, while no level has as many
files as the ranks of its sources tell apart. -/
theorem reads_on_files (sync_on_write : Bool) (db_dir : Bytes) (limit : Int64) (target : ℕ) {j : Journaled}
    (h : Reach (Journaled.step sync_on_write)
      (fun j a => j.Sound a ∧ ∀ ops ∈ a.operations, Written Small ops) (.start db_dir limit target) j) :
    (∀ f ∈ j.engine.store.dir, ∀ t, f.2 = some t → ∃ reader, t.openFile = some reader ∧ t.ReadBy reader) ∧
    (∀ l, ∀ f ∈ j.engine.store.vmgr.current.level_files l, ∃ reader,
      (j.engine.store.tableAt f).openFile = some reader ∧ f.file_size = reader.file.length ∧
        f.smallest = reader.min_key ∧ f.largest = reader.max_key) ∧
    (∀ fname, j.engine.store.readFile fname = j.engine.store.makeSSTReader fname) ∧
    (∀ key, j.engine.captureReadView.onFiles.get key = some (j.engine.get key)) ∧
    ((∀ l, (j.engine.store.vmgr.current.level_files l).length < 100000) → ∀ m t_start t_end,
      Ascending Record.key (j.engine.captureReadView.onFiles.rangeQuery m t_start t_end) ∧
      ∀ r, r ∈ j.engine.captureReadView.onFiles.rangeQuery m t_start t_end ↔
        ∃ t v, r = ⟨m, t, v, false⟩ ∧ t_start ≤ t ∧ t ≤ t_end ∧ j.engine.get ⟨m, t⟩ = some v) := by
  have hinv : JournalInv Small sync_on_write j := h.invariant (I := JournalInv Small sync_on_write)
    (journal_start db_dir limit target) fun _ _ _ hi hok hs =>
      journal_step (fun _ => Small.short) hi hok.1 hok.2 hs
  refine ⟨fun f hf t ht => ?_, fun l f hf => ?_, readFile_eq hinv.filed, onFiles_get hinv.engine hinv.filed,
    fun hfew m t_start t_end => ?_⟩
  · obtain ⟨reader, hopen, -, -, hreads⟩ := hinv.filed.openFile hf ht
    exact ⟨reader, hopen, hreads⟩
  · have hlive := hinv.engine.store.live l f hf
    obtain ⟨g, hg, ht⟩ := openTable_mem hlive.disk
    obtain ⟨reader, hopen, -, -, hreads⟩ := hinv.filed.openFile hg ht
    refine ⟨reader, hopen, ?_, ?_, ?_⟩
    · rw [hreads.size]
      exact congrArg FileMeta.file_size hlive.meta_eq
    · rw [hreads.min_key]
      exact congrArg FileMeta.smallest hlive.meta_eq
    · rw [hreads.max_key]
      exact congrArg FileMeta.largest hlive.meta_eq
  · have hshows := onFiles_shows hinv.engine hinv.filed hfew
    refine ⟨ascending_rangeQuery hshows.intact m t_start t_end, fun r => ?_⟩
    rw [mem_rangeQuery_iff_get hshows.intact]
    simp only [hshows.get, Option.some_inj]

instance : DecidablePred Small := fun _ => inferInstanceAs (Decidable (_ < _))

instance (ops : List Operation) : Decidable (Written Small ops) :=
  inferInstanceAs (Decidable (∀ op ∈ ops, Small op.stored))

def Journaled.smallFlushed (j : Journaled) (a : JournalAction) : Bool :=
  j.soundFlushed a && decide (∀ ops ∈ a.operations, Written Small ops)

/-- Behind the torn log, with one table. -/
theorem reads_on_files_tornOnce : ∃ j,
    Reach (Journaled.step false) (fun j a => j.Sound a ∧ ∀ ops ∈ a.operations, Written Small ops)
      (.start (ascii "db") 1000 0) j ∧
    (j.engine.store.dir.map Prod.fst = [sstName 1]) ∧
    (∀ f ∈ j.engine.store.dir, ∀ t, f.2 = some t → ∃ reader, t.openFile = some reader ∧ t.ReadBy reader) ∧
    j.engine.captureReadView.onFiles.get ⟨ascii "cpu", 5⟩ = some (some (ascii "v")) := by
  have hrun : (tornOnce.foldlM (guarded (Journaled.step false) fun j a => j.smallFlushed a = true)
      (Journaled.start (ascii "db") 1000 0)).map (fun j =>
        (j.engine.store.dir.map Prod.fst, j.engine.get ⟨ascii "cpu", 5⟩)) =
      some ([sstName 1], some (ascii "v")) := by decide +kernel
  obtain ⟨j, hj, hstate⟩ := Option.map_eq_some_iff.mp hrun
  obtain ⟨hdir, hread⟩ := Prod.mk.inj hstate
  have hreach : Reach (Journaled.step false)
      (fun j a => j.Sound a ∧ ∀ ops ∈ a.operations, Written Small ops) (.start (ascii "db") 1000 0) j := by
    refine (reach_of_foldlM hj).mono fun j a hok => ?_
    obtain ⟨hsound, hsmall⟩ := Bool.and_eq_true_iff.mp hok
    exact ⟨sound_of_flushed hsound, of_decide_eq_true hsmall⟩
  obtain ⟨htables, -, -, hget, -⟩ := reads_on_files false (ascii "db") 1000 0 hreach
  exact ⟨j, hreach, hdir, htables, (hget _).trans (congrArg some hread)⟩

end MiniTsdb
