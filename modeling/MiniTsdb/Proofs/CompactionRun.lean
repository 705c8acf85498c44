import MiniTsdb.Proofs.SSTableRoundTrip
import MiniTsdb.Proofs.StoreKinds
import MiniTsdb.Proofs.Tables

/-! `Compaction::Run` as a whole: its output files hold the newest-wins merge of its inputs,
cut by the target size. -/

namespace MiniTsdb
open Lib

/-- One record for each key that has a record passing the filter, the one from the last input
among those. -/
structure IsNewestMerge (job : CompactionJob) (reader : Bytes → List Record) (filter : Record → Bool)
    (merged : List Record) : Prop where
  ascending : Ascending Record.key merged
  newest : ∀ r, r ∈ merged ↔ ∃ (i : ℕ) (input : CompactionInput), job.inputs[i]? = some input ∧
    r ∈ reader input.file.file_name ∧ filter r = true ∧
    ∀ (j : ℕ) (input' : CompactionInput), job.inputs[j]? = some input' →
      ∀ r' ∈ reader input'.file.file_name, filter r' = true → r'.key = r.key → j ≤ i

/-- A list cut into the parts that the target size makes of it. -/
def cutRecords (target : ℕ) (records : List Record) : List (List Record) :=
  if _h : records = [] then []
  else (takeChunk target 0 records).1 :: cutRecords target (takeChunk target 0 records).2
termination_by records.length
decreasing_by exact takeChunk_snd_lt _ _ _h

/-- The files hold `merged` in order, each with its bounds, and the edit puts them in the
place of the inputs. -/
structure RunsExactly (job : CompactionJob) (merged : List Record) (result : CompactionResult) : Prop where
  merged : (result.new_readers.flatMap fun r => r.table.entries) = merged.map Record.pair
  outputs : List.Forall₂ (fun a r => a.1 = job.output_level ∧ a.2.file_name = r.file_name ∧
    r.table.entries ≠ [] ∧ (r.table.entries.head?.map Prod.fst) = some a.2.smallest ∧
    (r.table.entries.getLast?.map Prod.fst) = some a.2.largest)
    result.edit.added_files result.new_readers
  disjoint : result.edit.added_files.Pairwise fun a b => a.2.largest < b.2.smallest
  deleted : result.edit.deleted_files = job.inputs.map fun i => (i.level, i.file.file_number)
  new_files : result.new_files = result.edit.added_files.map fun a => a.2.file_name

theorem isNewestMerge_mergeRecords (job : CompactionJob) (reader : Bytes → List Record)
    (filter : Record → Bool)
    (h : ∀ input ∈ job.inputs, ((reader input.file.file_name).map Record.key).Nodup) :
    IsNewestMerge job reader filter
      (mergeRecords filter (job.inputs.map fun input => reader input.file.file_name)) := by
  have hnodup : ∀ xs ∈ (job.inputs.map fun input => reader input.file.file_name).map fun records =>
      records.filter filter, (xs.map Record.key).Nodup := by
    intro xs hxs
    obtain ⟨records, hrecords, rfl⟩ := List.mem_map.mp hxs
    obtain ⟨input, hinput, rfl⟩ := List.mem_map.mp hrecords
    exact (h input hinput).sublist (List.filter_sublist.map _)
  have hget : ∀ (i : ℕ) (xs : List Record),
      ((job.inputs.map fun input => reader input.file.file_name).map fun records =>
        records.filter filter)[i]? = some xs ↔ ∃ input, job.inputs[i]? = some input ∧
          (reader input.file.file_name).filter filter = xs := by
    intro i xs
    simp
  refine ⟨ascending_mergeRanked hnodup, fun r => ?_⟩
  rw [mergeRecords, mem_mergeRanked hnodup]
  refine ⟨fun hr => ?_, fun hr => ?_⟩
  · obtain ⟨i, xs, hxs, hmem, hmax⟩ := hr
    obtain ⟨input, hinput, rfl⟩ := (hget i xs).mp hxs
    obtain ⟨hread, hpass⟩ := List.mem_filter.mp hmem
    exact ⟨i, input, hinput, hread, hpass, fun j input' hj r' hr' hpass' hkey =>
      hmax j _ ((hget j _).mpr ⟨input', hj, rfl⟩) r' (List.mem_filter.mpr ⟨hr', hpass'⟩) hkey⟩
  · obtain ⟨i, input, hinput, hread, hpass, hmax⟩ := hr
    refine ⟨i, _, (hget i _).mpr ⟨input, hinput, rfl⟩, List.mem_filter.mpr ⟨hread, hpass⟩,
      fun j ys hys r' hr' hkey => ?_⟩
    obtain ⟨input', hj, rfl⟩ := (hget j ys).mp hys
    obtain ⟨hread', hpass'⟩ := List.mem_filter.mp hr'
    exact hmax j input' hj r' hread' hpass' hkey

theorem IsNewestMerge.unique {job : CompactionJob} {reader : Bytes → List Record}
    {filter : Record → Bool} {merged merged' : List Record}
    (h : IsNewestMerge job reader filter merged) (h' : IsNewestMerge job reader filter merged') :
    merged = merged' :=
  h.ascending.ext h'.ascending fun r => (h.newest r).trans (h'.newest r).symm

theorem cutRecords_flatten (target : ℕ) (records : List Record) :
    (cutRecords target records).flatten = records := by
  induction records using cutRecords.induct target with
  | case1 => rw [cutRecords, dif_pos rfl, List.flatten_nil]
  | case2 records hne ih =>
    rw [cutRecords, dif_neg hne, List.flatten_cons, ih, takeChunk_append]

theorem cutRecords_ne_nil (target : ℕ) (records : List Record) :
    ∀ chunk ∈ cutRecords target records, chunk ≠ [] := by
  induction records using cutRecords.induct target with
  | case1 =>
    rw [cutRecords, dif_pos rfl]
    simp
  | case2 records hne ih =>
    rw [cutRecords, dif_neg hne]
    intro chunk hchunk
    rcases List.mem_cons.mp hchunk with rfl | hchunk
    · exact takeChunk_ne_nil target 0 hne
    · exact ih chunk hchunk

theorem takeChunk_all {target approx : ℕ} {records : List Record}
    (h : approx + (records.map fun r => r.measurement.length + r.value.length + 32).sum < target) :
    takeChunk target approx records = (records, []) := by
  induction records generalizing approx with
  | nil => rfl
  | cons r records ih =>
    rw [List.map_cons, List.sum_cons] at h
    rw [takeChunk]
    dsimp only
    rw [if_neg (by omega), ih (by omega)]

theorem finishTable_isSome_iff (entries : List (TsKey × InternalEntry)) :
    (finishTable entries).isSome ↔ entries.length ≤ kMaxBloomKeys := by
  rw [finishTable, Option.isSome_map, buildSSTable_isSome_iff]

/-- The files that the loop adds to a result. -/
structure AddsOutputs (target : ℕ) (level : ℤ) (records : List Record) (result result' : CompactionResult)
    (outs : List (FileMeta × SSTable)) : Prop where
  edit : result'.edit = { result.edit with
    added_files := result.edit.added_files ++ outs.map fun o => (level, o.1) }
  new_readers : result'.new_readers = result.new_readers ++ outs.map fun o => ⟨o.1.file_name, o.2⟩
  new_files : result'.new_files = result.new_files ++ outs.map fun o => o.1.file_name
  entries : (outs.map fun o => o.2.entries) = (cutRecords target records).map (List.map Record.pair)
  bounds : ∀ o ∈ outs, o.1.smallest = o.2.minKey ∧ o.1.largest = o.2.maxKey

theorem outputs_runOutputs {target_file_size : ℕ} {level : ℤ} {records : List Record}
    {vm vm' : VersionManager} {result result' : CompactionResult}
    (h : runOutputs target_file_size level vm result records = some (vm', result')) :
    ∃ outs, AddsOutputs (targetBytes target_file_size) level records result result' outs := by
  induction records using cutRecords.induct (targetBytes target_file_size) generalizing vm result with
  | case1 =>
    rw [runOutputs, dif_pos rfl] at h
    obtain ⟨-, rfl⟩ := Prod.mk.inj (Option.some.inj h)
    refine ⟨[], ?_, by simp, by simp, ?_, by simp⟩
    · simp
    · rw [cutRecords, dif_pos rfl]
      rfl
  | case2 records hne ih =>
    rw [runOutputs, dif_neg hne] at h
    dsimp only at h
    split at h
    · contradiction
    · rename_i t ht
      obtain ⟨outs, hedit, hreaders, hfiles, hentries, hbounds⟩ := ih h
      set file := t.fileMeta vm.newFileNumber.1
        (vm.newFileNumber.2.newFileName vm.newFileNumber.1) with hfile
      refine ⟨(file, t) :: outs, ?_, ?_, ?_, ?_, fun o ho => ?_⟩
      · rw [hedit]
        simp [CompactionResult.addOutput]
      · rw [hreaders]
        simp [CompactionResult.addOutput]
      · rw [hfiles]
        simp [CompactionResult.addOutput]
      · rw [cutRecords, dif_neg hne, List.map_cons, List.map_cons, hentries, finishTable_entries ht]
      · rcases List.mem_cons.mp ho with rfl | ho
        · exact ⟨rfl, rfl⟩
        · exact hbounds o ho

/-- The loop gets through exactly if no file gets more keys than a bloom filter takes. -/
theorem runOutputs_isSome_iff (target_file_size : ℕ) (level : ℤ) (vm : VersionManager)
    (result : CompactionResult) (records : List Record) :
    (runOutputs target_file_size level vm result records).isSome ↔
      ∀ chunk ∈ cutRecords (targetBytes target_file_size) records, chunk.length ≤ kMaxBloomKeys := by
  induction records using cutRecords.induct (targetBytes target_file_size) generalizing vm result with
  | case1 =>
    rw [runOutputs, dif_pos rfl, cutRecords, dif_pos rfl]
    simp
  | case2 records hne ih =>
    have hfirst := finishTable_isSome_iff
      ((takeChunk (targetBytes target_file_size) 0 records).1.map Record.pair)
    rw [List.length_map] at hfirst
    rw [runOutputs, dif_neg hne, cutRecords, dif_neg hne, List.forall_mem_cons, ← hfirst]
    dsimp only
    cases ht : finishTable ((takeChunk (targetBytes target_file_size) 0 records).1.map Record.pair) with
    | none => simp
    | some t =>
      dsimp only
      rw [ih]
      simp

theorem runOutputs_writeOutput {s s' : Store} {run : CompactionRun} {records : List Record}
    (hrest : run.rest = some records) (hs : s.writeOutput run = some s') :
    ∃ run' rest, s'.compaction = some run' ∧ run'.rest = some rest ∧
      runOutputs s.target_file_size run.work.job.output_level s.vmgr run.result records =
        runOutputs s'.target_file_size run'.work.job.output_level s'.vmgr run'.result rest := by
  obtain ⟨records', t, hrest', hne, ht, rfl⟩ := writeOutput_eq hs
  obtain rfl := Option.some.inj (hrest'.symm.trans hrest)
  rw [Store.chunkTable] at ht
  refine ⟨_, _, rfl, rfl, ?_⟩
  rw [runOutputs, dif_neg hne]
  dsimp only
  rw [ht]
  rfl

theorem minKey_spec {t : SSTable} (h : t.entries ≠ []) :
    (t.entries.head?.map Prod.fst) = some t.minKey ∧ ∃ e ∈ t.entries, e.1 = t.minKey := by
  obtain ⟨first, rest, hsplit⟩ := List.exists_cons_of_ne_nil h
  rw [SSTable.minKey, hsplit]
  exact ⟨rfl, first, List.mem_cons_self, rfl⟩

theorem maxKey_spec {t : SSTable} (h : t.entries ≠ []) :
    (t.entries.getLast?.map Prod.fst) = some t.maxKey ∧ ∃ e ∈ t.entries, e.1 = t.maxKey := by
  rw [SSTable.maxKey, List.getLast?_eq_getLast_of_ne_nil h]
  exact ⟨rfl, _, List.getLast_mem h, rfl⟩

theorem runsExactly_of_outputs {job : CompactionJob} {target : ℕ} {merged : List Record}
    {result result' : CompactionResult} {outs : List (FileMeta × SSTable)}
    (hasc : Ascending Record.key merged) (hempty : result.edit.added_files = [])
    (hreaders : result.new_readers = []) (hfiles : result.new_files = [])
    (hdeleted : result.edit.deleted_files = job.inputs.map fun i => (i.level, i.file.file_number))
    (h : AddsOutputs target job.output_level merged result result' outs) :
    RunsExactly job merged result' := by
  have hne : ∀ o ∈ outs, o.2.entries ≠ [] := by
    intro o ho
    have hmem := List.mem_map_of_mem (f := fun o : FileMeta × SSTable => o.2.entries) ho
    rw [h.entries] at hmem
    obtain ⟨chunk, hchunk, heq⟩ := List.mem_map.mp hmem
    rw [← heq]
    simpa using cutRecords_ne_nil target merged chunk hchunk
  have hflat : (outs.map fun o => o.2.entries).flatten = merged.map Record.pair := by
    rw [h.entries, ← List.map_flatten, cutRecords_flatten]
  have hadded : result'.edit.added_files = outs.map fun o => (job.output_level, o.1) := by
    rw [h.edit, hempty]
    rfl
  have hnew : result'.new_readers = outs.map fun o => ⟨o.1.file_name, o.2⟩ := by
    rw [h.new_readers, hreaders]
    rfl
  refine ⟨?_, ?_, ?_, ?_, ?_⟩
  · rw [hnew, List.flatMap_map, List.flatMap_def, hflat]
  · rw [hadded, hnew, List.forall₂_map_left_iff, List.forall₂_map_right_iff, List.forall₂_same]
    intro o ho
    obtain ⟨hsmallest, hlargest⟩ := h.bounds o ho
    rw [hsmallest, hlargest]
    exact ⟨rfl, rfl, hne o ho, (minKey_spec (hne o ho)).1, (maxKey_spec (hne o ho)).1⟩
  · -- the entries ascend across the files
    have hsorted : Ascending Prod.fst (outs.map fun o => o.2.entries).flatten := by
      rw [hflat]
      exact ascending_map_pair.mpr hasc
    have hacross := List.pairwise_map.mp (List.pairwise_flatten.mp hsorted).2
    rw [hadded, List.pairwise_map]
    refine hacross.imp_of_mem fun {a b} ha hb hab => ?_
    obtain ⟨x, hx, hlast⟩ := (maxKey_spec (hne a ha)).2
    obtain ⟨y, hy, hfirst⟩ := (minKey_spec (hne b hb)).2
    rw [(h.bounds a ha).2, (h.bounds b hb).1, ← hlast, ← hfirst]
    exact hab x hx y hy
  · rw [h.edit]
    exact hdeleted
  · rw [h.new_files, hfiles, hadded, List.map_map]
    rfl

def twoInputs : CompactionJob :=
  ⟨[⟨0, 1, ascii "db/000001.sst", 80, ⟨ascii "cpu", 5⟩, ⟨ascii "cpu", 6⟩⟩,
    ⟨0, 2, ascii "db/000002.sst", 80, ⟨ascii "cpu", 5⟩, ⟨ascii "cpu", 5⟩⟩], 1⟩

def twoReader (fname : Bytes) : List Record :=
  if fname = ascii "db/000001.sst" then [⟨ascii "cpu", 5, ascii "old", false⟩, ⟨ascii "cpu", 6, ascii "w", false⟩]
  else [⟨ascii "cpu", 5, [], true⟩]

def manyRecords : List Record := manyEntries.map fun e => toRecord e.1 e.2

def oneInput : CompactionJob :=
  ⟨[⟨0, 1, ascii "db/000001.sst", 80, ⟨[], 0⟩, ⟨[], 214748364⟩⟩], 1⟩

theorem manyRecords_ascending : Ascending Record.key manyRecords := by
  refine List.pairwise_map.mpr ?_
  rw [manyEntries, List.pairwise_map]
  refine List.pairwise_lt_range.imp_of_mem fun {i j} _ hj hij => nthEntry_lt hij ?_
  have hlt := List.mem_range.mp hj
  unfold kMaxBloomKeys at hlt
  omega

theorem isNewestMerge_manyRecords :
    IsNewestMerge oneInput (fun _ => manyRecords) (fun _ => true) manyRecords := by
  refine ⟨manyRecords_ascending, fun r => ⟨fun hr => ?_, fun hr => ?_⟩⟩
  · refine ⟨0, _, rfl, hr, rfl, fun j input hj _ _ _ _ => ?_⟩
    obtain ⟨hlt, -⟩ := List.getElem?_eq_some_iff.mp hj
    exact Nat.lt_succ_iff.mp hlt
  · obtain ⟨-, -, -, hread, -⟩ := hr
    exact hread

theorem size_manyRecords :
    (manyRecords.map fun r => r.measurement.length + r.value.length + 32).sum < targetBytes 0 := by
  have hsame : (manyRecords.map fun r => r.measurement.length + r.value.length + 32) =
      List.replicate (kMaxBloomKeys + 1) 32 := by
    rw [manyRecords, manyEntries, List.map_map, List.map_map, List.eq_replicate_iff]
    refine ⟨by rw [List.length_map, List.length_range], fun n hn => ?_⟩
    obtain ⟨i, -, rfl⟩ := List.mem_map.mp hn
    rfl
  rw [hsame, List.sum_replicate]
  unfold kMaxBloomKeys targetBytes
  decide

/-- Records that stay below the target size go to one file, whose builder may not get through. -/
theorem runOutputs_eq_none {target_file_size : ℕ} (level : ℤ) (vm : VersionManager)
    (result : CompactionResult) {records : List Record} (hlen : kMaxBloomKeys < records.length)
    (hsize : (records.map fun r => r.measurement.length + r.value.length + 32).sum <
      targetBytes target_file_size) :
    runOutputs target_file_size level vm result records = none := by
  have hne : records ≠ [] := List.ne_nil_of_length_pos (Nat.zero_lt_of_lt hlen)
  have hall : takeChunk (targetBytes target_file_size) 0 records = (records, []) :=
    takeChunk_all (by rw [Nat.zero_add]; exact hsize)
  rw [Option.eq_none_iff_forall_ne_some]
  intro out hout
  have hchunks := (runOutputs_isSome_iff target_file_size level vm result records).mp (by rw [hout]; rfl)
  rw [cutRecords, dif_neg hne, hall, List.forall_mem_cons] at hchunks
  exact absurd hchunks.1 (not_le.mpr hlen)

theorem one_output_too_large (vm : VersionManager) :
    compactionRun vm 0 oneInput (fun _ => manyRecords) (fun _ => true) = none := by
  have hmerged := (isNewestMerge_mergeRecords oneInput (fun _ => manyRecords) (fun _ => true)
    fun _ _ => manyRecords_ascending.nodup_map).unique isNewestMerge_manyRecords
  have hlen : kMaxBloomKeys < manyRecords.length := by
    rw [manyRecords, manyEntries, List.length_map, List.length_map, List.length_range]
    exact Nat.lt_succ_self _
  rw [compactionRun, runInputs, if_neg (by decide), if_neg (by decide)]
  dsimp only
  rw [hmerged, runOutputs_eq_none _ _ _ hlen size_manyRecords]
  rfl

end MiniTsdb
