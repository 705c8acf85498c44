import MiniTsdb.Proofs.MemTable
import MiniTsdb.Proofs.SSTableRoundTrip
import MiniTsdb.Spec.RangeQuery

/-! A range query against the look-ups on the same view. Both come down to the first source
that has the key: the look-up walks the sources in the order of their ranks, and the query
sorts by key and rank and takes the first of each key. -/

namespace MiniTsdb
open Lib

theorem find?_recordsBetween (entries : List (TsKey × InternalEntry)) {first last key : TsKey}
    (hkey : first ≤ key ∧ key ≤ last) :
    ((recordsBetween entries first last).find? fun r => r.key = key) =
      (entries.lookup key).map (toRecord key) := by
  induction entries with
  | nil => rfl
  | cons e entries ih =>
    have hcons : recordsBetween (e :: entries) first last =
        recordsBetween [e] first last ++ recordsBetween entries first last :=
      recordsBetween_append [e] entries first last
    rw [hcons, List.find?_append, ih, List.lookup_cons]
    by_cases heq : key = e.1
    · subst heq
      have hone : recordsBetween [e] first last = [toRecord e.1 e.2] := by
        simp [recordsBetween, hkey]
      rw [hone, beq_self_eq_true, List.find?_singleton]
      simp [Record.key, toRecord]
    · have hne : (key == e.1) = false := by simpa using heq
      have hnone : ((recordsBetween [e] first last).find? fun r => r.key = key) = none := by
        refine List.find?_eq_none.mpr fun r hr hk => heq ?_
        obtain ⟨e', he', rfl⟩ := List.mem_map.mp hr
        obtain rfl := List.mem_singleton.mp (List.mem_of_mem_filter he')
        exact (of_decide_eq_true hk).symm
      rw [hnone, hne]
      rfl

theorem nodup_recordsBetween {entries : List (TsKey × InternalEntry)}
    (h : Ascending Prod.fst entries) (first last : TsKey) :
    ((recordsBetween entries first last).map Record.key).Nodup := by
  have hkeys : (recordsBetween entries first last).map Record.key =
      (entries.filter fun e => decide (first ≤ e.1 ∧ e.1 ≤ last)).map Prod.fst := by
    rw [recordsBetween, List.map_map]
    rfl
  rw [hkeys]
  exact (h.filter _).nodup_map

theorem mem_recordsBetween {entries : List (TsKey × InternalEntry)} {first last : TsKey} {r : Record}
    (h : r ∈ recordsBetween entries first last) : first ≤ r.key ∧ r.key ≤ last := by
  obtain ⟨e, he, rfl⟩ := List.mem_map.mp h
  exact of_decide_eq_true (List.mem_filter.mp he).2

theorem takeWhile_upTo {nodes : List (TsKey × InternalEntry)} (h : Ascending Prod.fst nodes)
    {first : TsKey} (hfirst : ∀ e ∈ nodes, first ≤ e.1) (last : TsKey) :
    (nodes.takeWhile fun node => tsKeyComparator node.1 last != .gt) =
      nodes.filter fun e => decide (first ≤ e.1 ∧ e.1 ≤ last) := by
  induction nodes with
  | nil => rfl
  | cons node nodes ih =>
    obtain ⟨hlt, hrest⟩ := ascending_cons.mp h
    rw [List.takeWhile_cons, List.filter_cons]
    by_cases hle : node.1 ≤ last
    · have hcmp : (tsKeyComparator node.1 last != .gt) = true := by
        rw [bne_iff_ne, ne_eq, tsKeyComparator_gt_iff]
        exact not_lt.mpr hle
      rw [if_pos hcmp, if_pos (decide_eq_true ⟨hfirst node List.mem_cons_self, hle⟩),
        ih hrest fun e he => hfirst e (List.mem_cons_of_mem node he)]
    · -- every later key is behind `last` as well
      have hcmp : ¬ (tsKeyComparator node.1 last != .gt) = true := by
        rw [bne_iff_ne, ne_eq, not_not, tsKeyComparator_gt_iff]
        exact not_le.mp hle
      have hnone : (nodes.filter fun e => decide (first ≤ e.1 ∧ e.1 ≤ last)) = [] := by
        refine List.filter_eq_nil_iff.mpr fun e he hmem => ?_
        exact hle ((hlt e he).le.trans (of_decide_eq_true hmem).2)
      rw [if_neg hcmp, if_neg (by simp [hle]), hnone]

/-- From the first key not below `first` up to the last one not behind `last`. -/
theorem takeWhile_dropWhile_between {nodes : List (TsKey × InternalEntry)}
    (h : Ascending Prod.fst nodes) (first last : TsKey) :
    ((nodes.dropWhile fun node => tsKeyComparator node.1 first == .lt).takeWhile fun node =>
      tsKeyComparator node.1 last != .gt) =
      nodes.filter fun e => decide (first ≤ e.1 ∧ e.1 ≤ last) := by
  induction nodes with
  | nil => rfl
  | cons node nodes ih =>
    obtain ⟨hlt, hrest⟩ := ascending_cons.mp h
    rw [List.dropWhile_cons]
    split_ifs with hbefore
    · have hnode : node.1 < first := tsKeyComparator_lt_iff.mp (beq_iff_eq.mp hbefore)
      rw [ih hrest, List.filter_cons, if_neg (by simp [hnode])]
    · have hnode : first ≤ node.1 :=
        not_lt.mp fun hlt => hbefore (beq_iff_eq.mpr (tsKeyComparator_lt_iff.mpr hlt))
      refine takeWhile_upTo h (fun e he => ?_) last
      rcases List.mem_cons.mp he with rfl | he
      · exact hnode
      · exact hnode.trans (hlt e he).le

theorem rangeQueryEntries_eq (m : MemTable) (measurement : Bytes) {t_start t_end : Int64}
    (hle : ¬ t_end < t_start) :
    m.rangeQueryEntries measurement t_start t_end =
      recordsBetween m.table ⟨measurement, t_start⟩ ⟨measurement, t_end⟩ := by
  rw [MemTable.rangeQueryEntries, if_neg hle, MemTable.findGreaterOrEqual,
    takeWhile_dropWhile_between m.ascending, recordsBetween]

/-- The file was built from the entries, ascending and of sizes that the format has room for,
it was opened, and the bounds of its meta hold them all. -/
structure FileRef.BuiltFrom (ref : FileRef) (block_size : ℤ)
    (entries : List (TsKey × InternalEntry)) : Prop where
  ascending : Ascending Prod.fst entries
  fits : ∀ e ∈ entries, FitsEntry e
  blocks : ∀ b ∈ cutBlocks block_size [] entries, (encodeBlock b).length < 2 ^ 31
  built : buildSSTable block_size entries = some ref.reader.file
  opened : SSTableReader.open ref.reader.file = some (.ok ref.reader)
  bounds : ∀ e ∈ entries, ref.file.smallest ≤ e.1 ∧ e.1 ≤ ref.file.largest

/-- Every file is an intact SSTable within its bounds, and the levels fit the stride of the
ranks. -/
structure FileView.Intact (view : FileView) : Prop where
  files : ∀ l, ∀ ref ∈ view.levels l, ∃ block_size entries, ref.BuiltFrom block_size entries
  few : ∀ l, (view.levels l).length < 100000

/-- The answers of a file are those of a list of entries. -/
structure FileRef.Answers (ref : FileRef) (entries : List (TsKey × InternalEntry)) : Prop where
  ascending : Ascending Prod.fst entries
  get : ∀ key, ref.getEntry key = some (entries.lookup key)
  scan : ∀ first last, ref.reader.rangeScanEntries first last = recordsBetween entries first last

theorem FileRef.BuiltFrom.answers {ref : FileRef} {block_size : ℤ}
    {entries : List (TsKey × InternalEntry)} (h : ref.BuiltFrom block_size entries) :
    ref.Answers entries := by
  have hcount := (buildSSTable_isSome_iff block_size entries).mp (by rw [h.built]; rfl)
  obtain ⟨file, r, hbuild, hopen, hreads⟩ := roundTrips_of_count h.ascending h.fits h.blocks hcount
  obtain rfl := Option.some.inj (h.built.symm.trans hbuild)
  obtain rfl : r = ref.reader := by
    rw [h.opened] at hopen
    exact (Except.ok.inj (Option.some.inj hopen)).symm
  refine ⟨h.ascending, fun key => ?_, hreads.scan⟩
  rw [FileRef.getEntry]
  by_cases hmem : ∃ e ∈ entries, e.1 = key
  · obtain ⟨e, he, rfl⟩ := hmem
    have hbounds := h.bounds e he
    rw [if_neg, hreads.found e he, h.ascending.lookup_eq_some he]
    rw [tsKeyComparator_lt_iff, tsKeyComparator_gt_iff, not_or, not_lt, not_lt]
    exact hbounds
  · have habsent : ∀ e ∈ entries, e.1 ≠ key := fun e he heq => hmem ⟨e, he, heq⟩
    rw [hreads.absent key habsent, lookup_eq_none_of_ne habsent, ite_self]

def FileView.rankedFiles (view : FileView) : List (FileRef × ℕ) :=
  (List.finRange kMaxLevel).flatMap fun l =>
    (view.levels l).reverse.zipIdx.map fun f => (f.1, 2 + l.val * 100000 + f.2)

theorem map_fst_rankedFiles (view : FileView) :
    view.rankedFiles.map Prod.fst = view.newestFirst := by
  rw [FileView.rankedFiles, FileView.newestFirst, List.map_flatMap]
  congr 1
  funext l
  rw [List.map_map]
  exact List.zipIdx_map_fst _ _

theorem rank_of_mem_zipIdx {files : List FileRef} {level : ℕ} {f : FileRef × ℕ}
    (h : f ∈ files.zipIdx.map fun f => (f.1, 2 + level * 100000 + f.2)) :
    f.1 ∈ files ∧ 2 + level * 100000 ≤ f.2 ∧ f.2 < 2 + level * 100000 + files.length := by
  obtain ⟨⟨ref, i⟩, hi, rfl⟩ := List.mem_map.mp h
  have hget := List.mem_zipIdx_iff_getElem?.mp hi
  obtain ⟨hlt, -⟩ := List.getElem?_eq_some_iff.mp hget
  dsimp only at hlt ⊢
  exact ⟨List.mem_of_getElem? hget, by omega, by omega⟩

theorem rankedFiles_ascending {view : FileView} (h : ∀ l, (view.levels l).length < 100000) :
    view.rankedFiles.Pairwise fun f g => f.2 < g.2 := by
  refine List.pairwise_flatMap.mpr ⟨fun l _ => ?_, ?_⟩
  · have hidx : (view.levels l).reverse.zipIdx.Pairwise fun f g => f.2 < g.2 := by
      rw [← List.pairwise_map (f := Prod.snd) (R := fun i j : ℕ => i < j), List.zipIdx_map_snd]
      exact List.pairwise_lt_range'
    refine List.pairwise_map.mpr (hidx.imp fun hlt => ?_)
    exact Nat.add_lt_add_left hlt _
  · refine (List.pairwise_lt_finRange kMaxLevel).imp fun {k l} hkl f hf g hg => ?_
    obtain ⟨-, -, hlast⟩ := rank_of_mem_zipIdx hf
    obtain ⟨-, hfirst, -⟩ := rank_of_mem_zipIdx hg
    have hfew := h k
    have hlt : k.val < l.val := hkl
    rw [List.length_reverse] at hlast
    omega

theorem two_le_of_mem_rankedFiles {view : FileView} {f : FileRef × ℕ} (h : f ∈ view.rankedFiles) :
    2 ≤ f.2 := by
  obtain ⟨l, -, hf⟩ := List.mem_flatMap.mp h
  have := (rank_of_mem_zipIdx hf).2.1
  omega

theorem mem_newestFirst {view : FileView} {ref : FileRef} :
    ref ∈ view.newestFirst ↔ ∃ l, ref ∈ view.levels l := by
  simp [FileView.newestFirst]

/-- What each source has between two keys, with its rank. -/
def FileView.sources (view : FileView) (first last : TsKey) : List (List Record × ℕ) :=
  (recordsBetween view.mem.table first last, 0) ::
    ((view.imm.map fun imm => (recordsBetween imm.table first last, 1)).toList ++
      view.rankedFiles.map fun f => (f.1.reader.rangeScanEntries first last, f.2))

theorem withRanks_rankedFiles (view : FileView) (first last : TsKey) :
    withRanks (view.rankedFiles.map fun f => (f.1.reader.rangeScanEntries first last, f.2)) =
      (List.finRange kMaxLevel).flatMap fun l => levelRecords (view.levels l) l.val first last := by
  rw [withRanks, List.flatMap_map, FileView.rankedFiles, List.flatMap_assoc]
  congr 1
  funext l
  rw [List.flatMap_map]
  rfl

theorem sourceRecords_eq (view : FileView) (measurement : Bytes) {t_start t_end : Int64}
    (hle : ¬ t_end < t_start) :
    view.sourceRecords measurement t_start t_end =
      withRanks (view.sources ⟨measurement, t_start⟩ ⟨measurement, t_end⟩) := by
  rw [FileView.sourceRecords, FileView.sources, ← withRanks_rankedFiles,
    rangeQueryEntries_eq view.mem measurement hle]
  cases himm : view.imm with
  | none => rfl
  | some imm =>
    dsimp only
    rw [rangeQueryEntries_eq imm measurement hle]
    rfl

theorem FileView.Intact.answers {view : FileView} (h : view.Intact) {ref : FileRef}
    (href : ref ∈ view.newestFirst) : ∃ entries, ref.Answers entries := by
  obtain ⟨l, hl⟩ := mem_newestFirst.mp href
  obtain ⟨block_size, entries, hbuilt⟩ := h.files l ref hl
  exact ⟨entries, hbuilt.answers⟩

theorem mem_newestFirst_of_mem_rankedFiles {view : FileView} {f : FileRef × ℕ}
    (h : f ∈ view.rankedFiles) : f.1 ∈ view.newestFirst :=
  map_fst_rankedFiles view ▸ List.mem_map_of_mem h

theorem sources_ascending {view : FileView} (h : view.Intact) (first last : TsKey) :
    (view.sources first last).Pairwise fun s t => s.2 < t.2 := by
  have hfiles : (view.rankedFiles.map fun f => (f.1.reader.rangeScanEntries first last, f.2)).Pairwise
      fun s t => s.2 < t.2 := List.pairwise_map.mpr (rankedFiles_ascending h.few)
  have hlow : ∀ s ∈ view.rankedFiles.map fun f => (f.1.reader.rangeScanEntries first last, f.2),
      2 ≤ s.2 := by
    intro s hs
    obtain ⟨f, hf, rfl⟩ := List.mem_map.mp hs
    exact two_le_of_mem_rankedFiles hf
  rw [FileView.sources]
  cases view.imm with
  | none =>
    refine List.pairwise_cons.mpr ⟨fun s hs => ?_, hfiles⟩
    exact Nat.zero_lt_two.trans_le (hlow s hs)
  | some imm =>
    refine List.pairwise_cons.mpr ⟨fun s hs => ?_, List.pairwise_cons.mpr ⟨fun s hs => ?_, hfiles⟩⟩
    · rcases List.mem_cons.mp hs with rfl | hs
      · exact Nat.zero_lt_one
      · exact Nat.zero_lt_two.trans_le (hlow s hs)
    · exact Nat.one_lt_two.trans_le (hlow s hs)

theorem source_of_mem {view : FileView} (h : view.Intact) {first last : TsKey}
    {s : List Record × ℕ} (hs : s ∈ view.sources first last) :
    ∃ entries, Ascending Prod.fst entries ∧ s.1 = recordsBetween entries first last := by
  rw [FileView.sources] at hs
  rcases List.mem_cons.mp hs with rfl | hs
  · exact ⟨_, view.mem.ascending, rfl⟩
  rcases List.mem_append.mp hs with hs | hs
  · obtain ⟨imm, -, rfl⟩ := Option.map_eq_some_iff.mp (Option.mem_toList.mp hs)
    exact ⟨_, imm.ascending, rfl⟩
  · obtain ⟨f, hf, rfl⟩ := List.mem_map.mp hs
    obtain ⟨entries, hanswers⟩ := h.answers (mem_newestFirst_of_mem_rankedFiles hf)
    exact ⟨entries, hanswers.ascending, hanswers.scan first last⟩

theorem nodup_source {view : FileView} (h : view.Intact) {first last : TsKey}
    {s : List Record × ℕ} (hs : s ∈ view.sources first last) : (s.1.map Record.key).Nodup := by
  obtain ⟨entries, hasc, heq⟩ := source_of_mem h hs
  rw [heq]
  exact nodup_recordsBetween hasc first last

theorem searchFiles_eq {files : List FileRef} (h : ∀ ref ∈ files, ∃ entries, ref.Answers entries)
    {first last key : TsKey} (hkey : first ≤ key ∧ key ≤ last) :
    ∃ found, searchFiles key files = some found ∧
      (files.findSome? fun ref => (ref.reader.rangeScanEntries first last).find? fun r => r.key = key) =
        found.map (toRecord key) := by
  induction files with
  | nil => exact ⟨none, rfl, rfl⟩
  | cons ref files ih =>
    obtain ⟨entries, hanswers⟩ := h ref List.mem_cons_self
    have hscan : ((ref.reader.rangeScanEntries first last).find? fun r => r.key = key) =
        (entries.lookup key).map (toRecord key) := by
      rw [hanswers.scan, find?_recordsBetween entries hkey]
    rw [searchFiles, hanswers.get, List.findSome?_cons, hscan]
    cases entries.lookup key with
    | some entry => exact ⟨some entry, rfl, rfl⟩
    | none => exact ih fun ref' href' => h ref' (List.mem_cons_of_mem ref href')

theorem met_of_view {view : FileView} (h : view.Intact) {first last key : TsKey}
    (hkey : first ≤ key ∧ key ≤ last) :
    ∃ found : Option InternalEntry,
      view.get key = some (if isExpiredInMap view.ttl_map key.measurement key.timestamp then none
        else found.bind InternalEntry.read) ∧
      ((view.sources first last).findSome? fun s => s.1.find? fun r => r.key = key) =
        found.map (toRecord key) := by
  obtain ⟨found, hsearch, hfiles⟩ := searchFiles_eq (fun ref href => h.answers href) hkey
  have hranked : ((view.rankedFiles.map fun f => (f.1.reader.rangeScanEntries first last, f.2)).findSome?
      fun s => s.1.find? fun r => r.key = key) = found.map (toRecord key) := by
    rw [← hfiles, ← map_fst_rankedFiles, List.findSome?_map, List.findSome?_map]
    rfl
  rw [FileView.get, FileView.getFromSSTables, hsearch, getEntry_eq_lookup, FileView.sources,
    List.findSome?_cons, find?_recordsBetween _ hkey, List.findSome?_append, hranked]
  cases hmem : view.mem.table.lookup key with
  | some entry =>
    refine ⟨some entry, ?_, rfl⟩
    split_ifs <;> rfl
  | none =>
    cases himm : view.imm with
    | none =>
      refine ⟨found, ?_, rfl⟩
      split_ifs <;> rfl
    | some imm =>
      simp only [Option.bind_some, getEntry_eq_lookup, Option.map_some, Option.toList_some,
        List.findSome?_cons, find?_recordsBetween _ hkey, Option.map_none]
      cases imm.table.lookup key with
      | some entry =>
        refine ⟨some entry, ?_, rfl⟩
        split_ifs <;> rfl
      | none =>
        refine ⟨found, ?_, rfl⟩
        split_ifs <;> rfl

theorem between_iff {m m' : Bytes} {t_start t t_end : Int64} :
    ((⟨m, t_start⟩ : TsKey) ≤ ⟨m', t⟩ ∧ (⟨m', t⟩ : TsKey) ≤ ⟨m, t_end⟩) ↔
      m' = m ∧ t_start ≤ t ∧ t ≤ t_end := by
  simp only [TsKey.le_iff]
  refine ⟨?_, ?_⟩
  · rintro ⟨h | ⟨rfl, hstart⟩, h' | ⟨heq, hend⟩⟩
    · exact absurd h (not_lt_of_gt h')
    · exact absurd heq h.ne'
    · exact absurd h' (lt_irrefl _)
    · exact ⟨rfl, hstart, hend⟩
  · rintro ⟨rfl, hstart, hend⟩
    exact ⟨Or.inr ⟨rfl, hstart⟩, Or.inr ⟨rfl, hend⟩⟩

theorem int64_not_lt_of_le {t_start t t_end : Int64} (hstart : t_start ≤ t) (hend : t ≤ t_end) :
    ¬ t_end < t_start := by
  rw [Int64.le_iff_toInt_le] at hstart hend
  rw [Int64.lt_iff_toInt_lt]
  omega

/-- A record that is live is returned with its value. -/
theorem toRecord_live_iff {key : TsKey} {entry : InternalEntry} {v : Bytes} :
    toRecord key entry = ⟨key.measurement, key.timestamp, v, false⟩ ↔ entry.read = some v := by
  rw [toRecord, InternalEntry.read]
  cases entry.isDeletion <;> simp

/-- The first of each key, cut to the live ones, is what the look-ups return. -/
theorem mem_rangeQuery {view : FileView} (h : view.Intact) (m : Bytes) {t_start t_end : Int64}
    (hle : ¬ t_end < t_start) {r : Record} :
    r ∈ view.rangeQuery m t_start t_end ↔
      ((view.sources ⟨m, t_start⟩ ⟨m, t_end⟩).findSome? fun s => s.1.find? fun a => a.key = r.key) =
        some r ∧ r.deleted = false ∧ isExpiredInMap view.ttl_map m r.timestamp = false := by
  rw [FileView.rangeQuery, if_neg hle, sourceRecords_eq view m hle, List.mem_filter,
    mem_firstOfEach_withRanks (sources_ascending h _ _) fun s hs => nodup_source h hs]
  simp

theorem key_of_mem_sources {view : FileView} (h : view.Intact) {m : Bytes} {t_start t_end : Int64}
    {r : Record} {k : TsKey}
    (hr : ((view.sources ⟨m, t_start⟩ ⟨m, t_end⟩).findSome? fun s => s.1.find? fun a => a.key = k) =
      some r) : r.measurement = m ∧ t_start ≤ r.timestamp ∧ r.timestamp ≤ t_end := by
  obtain ⟨s, hs, hfind⟩ := List.exists_of_findSome?_eq_some hr
  obtain ⟨entries, -, heq⟩ := source_of_mem h hs
  have hmem := List.mem_of_find?_eq_some hfind
  rw [heq] at hmem
  exact between_iff.mp (mem_recordsBetween hmem)

/-- A record is in the answer exactly if `Get` finds its value. -/
theorem mem_rangeQuery_iff_get {view : FileView} (h : view.Intact) (m : Bytes) (t_start t_end : Int64)
    (r : Record) : r ∈ view.rangeQuery m t_start t_end ↔
      ∃ t v, r = ⟨m, t, v, false⟩ ∧ t_start ≤ t ∧ t ≤ t_end ∧ view.get ⟨m, t⟩ = some (some v) := by
  by_cases hle : t_end < t_start
  · have hnil : view.rangeQuery m t_start t_end = [] := by rw [FileView.rangeQuery, if_pos hle]
    rw [hnil]
    refine ⟨fun hr => absurd hr List.not_mem_nil, ?_⟩
    rintro ⟨t, v, -, hstart, hend, -⟩
    exact absurd hle (int64_not_lt_of_le hstart hend)
  rw [mem_rangeQuery h m hle]
  refine ⟨?_, ?_⟩
  · rintro ⟨hfirst, hdel, hexp⟩
    obtain ⟨m', t, v, d⟩ := r
    obtain ⟨rfl, hstart, hend⟩ := key_of_mem_sources h hfirst
    obtain rfl : d = false := hdel
    obtain ⟨found, hget, hmet⟩ := met_of_view h (between_iff.mpr ⟨rfl, hstart, hend⟩)
    obtain ⟨entry, rfl, hentry⟩ := Option.map_eq_some_iff.mp (hmet.symm.trans hfirst)
    refine ⟨t, v, rfl, hstart, hend, ?_⟩
    rw [hget, hexp, if_neg Bool.false_ne_true, Option.bind_some, toRecord_live_iff.mp hentry]
  · rintro ⟨t, v, rfl, hstart, hend, hread⟩
    obtain ⟨found, hget, hmet⟩ := met_of_view h (between_iff.mpr ⟨rfl, hstart, hend⟩)
    rw [hget] at hread
    cases hexp : isExpiredInMap view.ttl_map m t with
    | true => simp [hexp] at hread
    | false =>
      simp only [hexp, Bool.false_eq_true, if_false, Option.some.injEq] at hread
      obtain ⟨entry, rfl, hentry⟩ := Option.bind_eq_some_iff.mp hread
      refine ⟨hmet.trans ?_, rfl, rfl⟩
      rw [Option.map_some, toRecord_live_iff.mpr hentry]

theorem ascending_rangeQuery {view : FileView} (h : view.Intact) (m : Bytes) (t_start t_end : Int64) :
    Ascending Record.key (view.rangeQuery m t_start t_end) := by
  rw [FileView.rangeQuery]
  split_ifs with hle
  · exact ascending_nil
  · dsimp only
    rw [sourceRecords_eq view m hle]
    refine Ascending.filter ?_ _
    exact ascending_firstOfEach (sorted_of_byRank (ascending_sortBy
      (nodup_byRank_withRanks (sources_ascending h _ _) fun s hs => nodup_source h hs)))
      fun _ hl => by contradiction

/-- The range query returns, by ascending time, the records that `Get` finds. -/
theorem range_query_agrees {view : FileView} (h : view.Intact) (m : Bytes) (t_start t_end : Int64) :
    ((view.rangeQuery m t_start t_end).Pairwise fun a b => a.timestamp < b.timestamp) ∧
      ∀ r, r ∈ view.rangeQuery m t_start t_end ↔
        ∃ t v, r = ⟨m, t, v, false⟩ ∧ t_start ≤ t ∧ t ≤ t_end ∧ view.get ⟨m, t⟩ = some (some v) := by
  have hmem := mem_rangeQuery_iff_get h m t_start t_end
  refine ⟨?_, hmem⟩
  refine (ascending_rangeQuery h m t_start t_end).imp_of_mem fun {a b} ha hb hlt => ?_
  obtain ⟨t, v, rfl, -⟩ := (hmem a).mp ha
  obtain ⟨t', v', rfl, -⟩ := (hmem b).mp hb
  exact (TsKey.lt_iff.mp hlt).elim (fun h => absurd h (lt_irrefl m)) And.right

/-- What the builder writes, opened under a meta whose bounds hold it, is an intact file. -/
theorem exists_builtFrom (file : FileMeta) (block_size : ℤ) {entries : List (TsKey × InternalEntry)}
    (hasc : Ascending Prod.fst entries) (hfits : ∀ e ∈ entries, FitsEntry e)
    (hblocks : ∀ b ∈ cutBlocks block_size [] entries, (encodeBlock b).length < 2 ^ 31)
    (hcount : entries.length ≤ kMaxBloomKeys)
    (hbounds : ∀ e ∈ entries, file.smallest ≤ e.1 ∧ e.1 ≤ file.largest) :
    ∃ reader, (FileRef.mk file reader).BuiltFrom block_size entries := by
  obtain ⟨text, bloom, hbuild, hopen, -⟩ := opens_of_count hfits hblocks hcount
  exact ⟨readerOf text _ bloom, hasc, hfits, hblocks, hbuild, hopen, hbounds⟩

def twoPoints : List (TsKey × InternalEntry) :=
  [(⟨[99], 1⟩, ⟨[7], .kValue⟩), (⟨[99], 2⟩, ⟨[8], .kValue⟩)]

/-- The later of two points deleted in the memtable, the file in the first level. -/
theorem range_query_agrees_deleted : ∃ (reader : SSTableReader) (view : FileView),
    buildSSTable 4096 twoPoints = some reader.file ∧
      view.mem = MemTable.new.delete [99] 2 ∧
      view.levels 0 = [⟨⟨1, [], 0, ⟨[99], 1⟩, ⟨[99], 2⟩⟩, reader⟩] ∧
      ((view.rangeQuery [99] 0 5).Pairwise fun a b => a.timestamp < b.timestamp) ∧
      ∀ r, r ∈ view.rangeQuery [99] 0 5 ↔
        ∃ t v, r = ⟨[99], t, v, false⟩ ∧ 0 ≤ t ∧ t ≤ 5 ∧ view.get ⟨[99], t⟩ = some (some v) := by
  have hasc : Ascending Prod.fst twoPoints := by
    unfold Ascending
    decide +kernel
  have hfits : ∀ e ∈ twoPoints, FitsEntry e := by
    unfold FitsEntry
    decide +kernel
  obtain ⟨reader, hbuilt⟩ := exists_builtFrom ⟨1, [], 0, ⟨[99], 1⟩, ⟨[99], 2⟩⟩ 4096 hasc hfits
    (by decide +kernel) (by decide) (by decide +kernel)
  refine ⟨reader, ⟨MemTable.new.delete [99] 2, none, fun l => if l = 0 then [⟨_, reader⟩] else [],
    fun _ => none⟩, hbuilt.built, rfl, rfl, range_query_agrees ⟨fun l ref href => ?_, fun l => ?_⟩ ..⟩
  · dsimp only at href
    split_ifs at href with hl
    · exact ⟨4096, twoPoints, List.mem_singleton.mp href ▸ hbuilt⟩
    · exact absurd href List.not_mem_nil
  · dsimp only
    split_ifs <;> norm_num

end MiniTsdb
