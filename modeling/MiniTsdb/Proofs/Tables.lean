import MiniTsdb.Proofs.StartupScan
import MiniTsdb.Spec.Store

/-! Tables as lists of entries: their bounds and records, what a merge of tables holds,
how its records are cut into files, and the tables of a directory. -/

namespace MiniTsdb
open Lib

@[simp] theorem toRecord_pair (key : TsKey) (entry : InternalEntry) :
    (toRecord key entry).pair = (key, entry) := by
  obtain ⟨value, type⟩ := entry
  cases type <;> rfl

@[simp] theorem toRecord_key (key : TsKey) (entry : InternalEntry) :
    (toRecord key entry).key = key := rfl

theorem map_pair_records (t : SSTable) : t.records.map Record.pair = t.entries := by
  rw [SSTable.records, List.map_map]
  exact List.map_id'' (fun e => toRecord_pair e.1 e.2) t.entries

theorem lookup_map_pair (records : List Record) (key : TsKey) :
    (records.map Record.pair).lookup key =
      (records.find? fun r => r.key = key).map fun r => r.pair.2 := by
  induction records with
  | nil => rfl
  | cons r records ih =>
    rw [List.map_cons, List.find?_cons]
    by_cases h : r.key = key
    · have hbeq : (key == r.key) = true := by simp [h]
      rw [show r.pair = (r.key, r.pair.2) from rfl, List.lookup_cons, hbeq]
      simp [h]
    · have hbeq : (key == r.key) = false := by simpa using fun he => h he.symm
      rw [show r.pair = (r.key, r.pair.2) from rfl, List.lookup_cons, hbeq, ih]
      simp [h]

theorem ascending_map_pair {records : List Record} :
    Ascending Prod.fst (records.map Record.pair) ↔ Ascending Record.key records :=
  List.pairwise_map

theorem getEntry_eq (t : SSTable) (key : TsKey) :
    t.getEntry key = (t.records.find? fun r => r.key = key).map fun r => r.pair.2 := by
  rw [SSTable.getEntry, ← lookup_map_pair, map_pair_records]

theorem ascending_records {t : SSTable} (h : Ascending Prod.fst t.entries) :
    Ascending Record.key t.records := by
  rw [← ascending_map_pair, map_pair_records]
  exact h

theorem mem_of_lookup {entries : List (TsKey × InternalEntry)} {key : TsKey} {e : InternalEntry}
    (h : entries.lookup key = some e) : (key, e) ∈ entries := by
  obtain ⟨l₁, l₂, rfl, -⟩ := List.lookup_eq_some_iff.mp h
  exact List.mem_append_right _ List.mem_cons_self

theorem bounds_of_mem {t : SSTable} (h : Ascending Prod.fst t.entries)
    {e : TsKey × InternalEntry} (he : e ∈ t.entries) : t.minKey ≤ e.1 ∧ e.1 ≤ t.maxKey := by
  have hne := List.ne_nil_of_mem he
  refine ⟨?_, ?_⟩
  · obtain ⟨first, rest, hsplit⟩ := List.exists_cons_of_ne_nil hne
    have hmin : t.minKey = first.1 := by rw [SSTable.minKey, hsplit]; rfl
    rw [hsplit] at h he
    rw [hmin]
    rcases List.mem_cons.mp he with rfl | he
    · exact le_rfl
    · exact ((ascending_cons.mp h).1 e he).le
  · have hmax : t.maxKey = (t.entries.getLast hne).1 := by
      rw [SSTable.maxKey, List.getLast?_eq_getLast_of_ne_nil hne]
      rfl
    rw [hmax]
    rw [← List.dropLast_append_getLast hne] at h he
    rcases List.mem_append.mp he with he | he
    · exact ((ascending_append.mp h).2.2 e he _ (List.mem_singleton_self _)).le
    · rw [List.mem_singleton.mp he]

/-- Whether the filter of a job keeps the records of a key. -/
def keepsKey (ttl_map : TtlMap) (key : TsKey) : Bool :=
  keepRecordForCompaction ⟨key.measurement, key.timestamp, [], false⟩ ttl_map

theorem keepRecord_eq (ttl_map : TtlMap) (r : Record) :
    keepRecordForCompaction r ttl_map = keepsKey ttl_map r.key := rfl

theorem find?_filter_key (keeps : TsKey → Bool) (records : List Record) (key : TsKey) :
    ((records.filter fun r => keeps r.key).find? fun r => r.key = key) =
      if keeps key then records.find? fun r => r.key = key else none := by
  rw [List.find?_filter]
  cases hk : keeps key with
  | true =>
    rw [if_pos rfl]
    congr 1
    funext r
    by_cases h : r.key = key
    · simp [h, hk]
    · simp [h]
  | false =>
    rw [if_neg (by simp), List.find?_eq_none]
    intro r _ hr
    obtain ⟨hkeep, hkey⟩ : keeps r.key = true ∧ r.key = key := by simpa using hr
    rw [hkey, hk] at hkeep
    contradiction

/-- The versions of a key in a list of tables, the last table first. -/
def versionsOf (tables : List SSTable) (key : TsKey) : List InternalEntry :=
  tables.reverse.filterMap fun t => t.getEntry key

theorem versionsOf_append (as bs : List SSTable) (key : TsKey) :
    versionsOf (as ++ bs) key = versionsOf bs key ++ versionsOf as key := by
  simp [versionsOf]

@[simp] theorem versionsOf_nil (key : TsKey) : versionsOf [] key = [] := rfl

theorem versionsOf_singleton (t : SSTable) (key : TsKey) :
    versionsOf [t] key = (t.getEntry key).toList := by
  cases h : t.getEntry key <;> simp [versionsOf, h]

/-- What a list of pairs must be to be the merge of what `keeps` leaves of the tables. -/
structure IsMerge (keeps : TsKey → Bool) (tables : List SSTable)
    (pairs : List (TsKey × InternalEntry)) : Prop where
  ascending : Ascending Prod.fst pairs
  lookup : ∀ key, pairs.lookup key =
    if keeps key then (versionsOf tables key).head? else none

/-- The merge of the records that were scanned and that the filter keeps. -/
theorem isMerge_mergeRecords {tables : List SSTable} (scanned : TsKey → Bool) (ttl_map : TtlMap)
    (h : ∀ t ∈ tables, Ascending Prod.fst t.entries) :
    IsMerge (fun key => scanned key && keepsKey ttl_map key) tables
      ((mergeRecords (fun r => keepRecordForCompaction r ttl_map)
        (tables.map fun t => t.records.filter fun r => scanned r.key)).map Record.pair) := by
  have hfilter : ∀ t : SSTable, ((t.records.filter fun r => scanned r.key).filter
      fun r => keepRecordForCompaction r ttl_map) =
      t.records.filter fun r => scanned r.key && keepsKey ttl_map r.key := by
    intro t
    rw [List.filter_filter]
    apply List.filter_congr
    intro r _
    rw [keepRecord_eq, Bool.and_comm]
  have hasc : ∀ xs ∈ (tables.map fun t => t.records.filter fun r => scanned r.key).map fun records =>
      records.filter fun r => keepRecordForCompaction r ttl_map, Ascending Record.key xs := by
    intro xs hxs
    obtain ⟨records, hrecords, rfl⟩ := List.mem_map.mp hxs
    obtain ⟨t, ht, rfl⟩ := List.mem_map.mp hrecords
    exact ((ascending_records (h t ht)).filter _).filter _
  refine ⟨ascending_map_pair.mpr (ascending_mergeRanked fun xs hxs => (hasc xs hxs).nodup_map), fun key => ?_⟩
  rw [lookup_map_pair, mergeRecords, find?_mergeRanked hasc, List.map_map, ← List.map_reverse,
    List.findSome?_map]
  simp only [Function.comp_def, hfilter,
    find?_filter_key (fun key => scanned key && keepsKey ttl_map key)]
  cases scanned key && keepsKey ttl_map key with
  | false => simp
  | true =>
    rw [if_pos rfl, versionsOf, List.head?_filterMap, List.map_findSome?]
    simp only [if_true]
    congr 1
    funext t
    exact (getEntry_eq t key).symm

theorem takeChunk_append (target approx : ℕ) (records : List Record) :
    (takeChunk target approx records).1 ++ (takeChunk target approx records).2 = records := by
  induction records generalizing approx with
  | nil => rfl
  | cons r records ih =>
    rw [takeChunk]
    dsimp only
    split_ifs
    · rfl
    · rw [List.cons_append, ih]

theorem takeChunk_ne_nil (target approx : ℕ) {records : List Record} (h : records ≠ []) :
    (takeChunk target approx records).1 ≠ [] := by
  cases records with
  | nil => contradiction
  | cons r records =>
    rw [takeChunk]
    dsimp only
    split_ifs <;> simp

theorem finishTable_entries {entries : List (TsKey × InternalEntry)} {t : SSTable}
    (h : finishTable entries = some t) : t.entries = entries := by
  obtain ⟨file, -, rfl⟩ := Option.map_eq_some_iff.mp h
  rfl

theorem versionsOf_flatten {tables : List SSTable}
    (h : Ascending Prod.fst (tables.flatMap SSTable.entries)) (key : TsKey) :
    versionsOf tables key = ((tables.flatMap SSTable.entries).lookup key).toList := by
  induction tables with
  | nil => rfl
  | cons t tables ih =>
    rw [List.flatMap_cons, ascending_append] at h
    obtain ⟨-, hrest, hlt⟩ := h
    rw [← List.singleton_append, versionsOf_append, versionsOf_singleton, ih hrest,
      List.singleton_append, List.flatMap_cons, List.lookup_append]
    cases hkey : t.entries.lookup key with
    | none => simp [SSTable.getEntry, hkey]
    | some e =>
      have hnone : (tables.flatMap SSTable.entries).lookup key = none := by
        rw [List.lookup_eq_none_iff]
        intro e' he'
        simpa using (hlt _ (mem_of_lookup hkey) e' he').ne
      simp [SSTable.getEntry, hkey, hnone]

theorem sstName_injective {m n : ℕ} (h : sstName m = sstName n) : m = n := by
  have hstem := congrArg (fun name => digitsValue (stem name)) h
  simpa only [stem_sstName, digitsValue_zeros, digitsValue_decimal] using hstem

theorem path_injective {dir : Bytes} {m n : ℕ}
    (h : joinPath dir (sstName m) = joinPath dir (sstName n)) : m = n :=
  sstName_injective (joinPath_inj h)

theorem joinPath_beq (dir a b : Bytes) : (joinPath dir a == joinPath dir b) = (a == b) := by
  by_cases h : a = b
  · simp [h]
  · have hne : joinPath dir a ≠ joinPath dir b := fun he => h (joinPath_inj he)
    simp [h, hne]

theorem openTable_writeTable_self (db_dir : Bytes) (dir : SstDir) (name : Bytes) (t : SSTable) :
    openTable db_dir (writeTable dir name t) (joinPath db_dir name) = some t := by
  have hnone : (dir.filter fun e => e.1 != name).find?
      (fun e => joinPath db_dir e.1 == joinPath db_dir name) = none := by
    rw [List.find?_eq_none]
    intro e he
    have hne := (List.mem_filter.mp he).2
    rw [joinPath_beq]
    simpa using hne
  rw [openTable, writeTable, List.find?_append, hnone]
  simp

theorem openTable_replaced {db_dir : Bytes} (dir : SstDir) {name other : Bytes}
    (content : Option SSTable) (h : other ≠ name) :
    openTable db_dir ((dir.filter fun e => e.1 != name) ++ [(name, content)]) (joinPath db_dir other) =
      openTable db_dir dir (joinPath db_dir other) := by
  have hlast : ([(name, content)] : SstDir).find?
      (fun e => joinPath db_dir e.1 == joinPath db_dir other) = none := by
    rw [List.find?_singleton, joinPath_beq]
    simpa using fun he : name = other => h he.symm
  have hkeep : (dir.filter fun e => e.1 != name).find?
      (fun e => joinPath db_dir e.1 == joinPath db_dir other) =
      dir.find? fun e => joinPath db_dir e.1 == joinPath db_dir other := by
    rw [List.find?_filter]
    congr 1
    funext e
    rw [joinPath_beq]
    by_cases he : e.1 = other
    · simp [he, h]
    · simp [he]
  rw [openTable, List.find?_append, hlast, hkeep, Option.or_none]
  rfl

theorem openTable_writeTable_of_ne {db_dir : Bytes} (dir : SstDir) {name other : Bytes} (t : SSTable)
    (h : other ≠ name) :
    openTable db_dir (writeTable dir name t) (joinPath db_dir other) =
      openTable db_dir dir (joinPath db_dir other) :=
  openTable_replaced dir (some t) h

theorem openTable_removeTable {db_dir : Bytes} (dir : SstDir) {path other : Bytes} (h : other ≠ path) :
    openTable db_dir (removeTable db_dir dir path) other = openTable db_dir dir other := by
  rw [openTable, removeTable, List.find?_filter]
  unfold openTable
  congr 2
  funext e
  by_cases he : joinPath db_dir e.1 = other
  · simp [he, h]
  · simp [he]

theorem mem_foldl_removeTable {db_dir : Bytes} {paths : List Bytes} {dir : SstDir}
    {e : Bytes × Option SSTable} (he : e ∈ dir) (h : joinPath db_dir e.1 ∉ paths) :
    e ∈ paths.foldl (removeTable db_dir) dir := by
  induction paths generalizing dir with
  | nil => exact he
  | cons path paths ih =>
    obtain ⟨hne, hrest⟩ := not_or.mp (List.mem_cons.not.mp h)
    exact ih (List.mem_filter.mpr ⟨he, by simpa using hne⟩) hrest

theorem openTable_foldl_removeTable {db_dir : Bytes} (paths : List Bytes) (dir : SstDir)
    {other : Bytes} (h : other ∉ paths) :
    openTable db_dir (paths.foldl (removeTable db_dir) dir) other = openTable db_dir dir other := by
  induction paths generalizing dir with
  | nil => rfl
  | cons path paths ih =>
    rw [List.foldl_cons, ih _ (fun hm => h (List.mem_cons_of_mem _ hm))]
    exact openTable_removeTable dir fun he => h (he ▸ List.mem_cons_self)

end MiniTsdb
