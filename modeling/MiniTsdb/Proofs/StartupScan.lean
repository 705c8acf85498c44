import MiniTsdb.Proofs.ManifestLog
import MiniTsdb.Spec.Startup

/-! What `LoadExistingSSTables` leaves: the recovered version and its own tables, or,
from an empty version, one L0 file for every table of the directory. -/

namespace MiniTsdb
open Lib

def Version.IsEmpty (v : Version) : Prop := ∀ l, v.level_files l = []

theorem numFiles_pos_iff (vm : VersionManager) : 0 < vm.numFiles ↔ ¬ vm.current.IsEmpty := by
  have hzero : vm.numFiles = 0 ↔ vm.current.IsEmpty := by
    unfold VersionManager.numFiles Version.IsEmpty
    rw [List.sum_eq_zero_iff]
    constructor
    · intro h l
      exact List.length_eq_zero_iff.mp (h _ (List.mem_map_of_mem (List.mem_finRange l)))
    · intro h x hx
      obtain ⟨l, -, rfl⟩ := List.mem_map.mp hx
      exact List.length_eq_zero_iff.mpr (h l)
  rw [← hzero]
  exact Nat.pos_iff_ne_zero

theorem digitsValue_zeros (k : ℕ) (ds : Bytes) :
    digitsValue (List.replicate k 48 ++ ds) = digitsValue ds := by
  have hz : digitsValue (List.replicate k 48) = 0 := by
    induction k with
    | zero => rfl
    | succ k ih =>
      rw [List.replicate_succ, ← List.singleton_append, digitsValue_append, ih]
      simp [digitsValue]
  rw [digitsValue_append, hz]
  simp

theorem stem_sstName (n : ℕ) :
    stem (sstName n) = List.replicate (6 - (decimal n).length) 48 ++ decimal n := by
  have hlen : (ascii ".sst").length = 4 := by decide
  rw [stem, sstName, ← List.append_assoc, List.length_append, hlen, Nat.add_sub_cancel,
    List.take_left]

theorem readUnsigned_stem {n : ℕ} (h : n < 2 ^ 64) :
    readUnsigned 64 (stem (sstName n)) = some (n, []) := by
  have hd : ∀ b ∈ List.replicate (6 - (decimal n).length) 48 ++ decimal n, isDigit b = true := by
    intro b hb
    rcases List.mem_append.mp hb with hb | hb
    · rw [List.eq_of_mem_replicate hb]; decide
    · exact decimal_isDigit n b hb
  have hnum := readNumber_digits (by simp [decimal_ne_nil]) hd atBlank_nil
  rw [List.append_nil, digitsValue_zeros, digitsValue_decimal] at hnum
  rw [stem_sstName, readUnsigned, hnum]
  dsimp only
  rw [if_neg (by omega)]
  rfl

theorem sstName_inj {m n : ℕ} (hm : m < 2 ^ 64) (hn : n < 2 ^ 64) (h : sstName m = sstName n) :
    m = n := by
  have hread := readUnsigned_stem hm
  rw [h, readUnsigned_stem hn] at hread
  simpa using hread.symm

theorem isSst_sstName (n : ℕ) : isSst (sstName n) = true := by
  have hne : 0 < (decimal n).length := List.length_pos_of_ne_nil (decimal_ne_nil n)
  have hlen : (ascii ".sst").length = 4 := by decide
  have hsuffix : (ascii ".sst").isSuffixOf (sstName n) = true :=
    List.isSuffixOf_iff_suffix.mpr ⟨_, List.append_assoc ..⟩
  have hlong : 4 < (sstName n).length := by
    rw [sstName, List.length_append, List.length_append, hlen]
    omega
  rw [isSst, hsuffix]
  simpa using hlong

theorem slash_not_mem_sstName (n : ℕ) : slash ∉ sstName n := by
  intro h
  rcases List.mem_append.mp h with h | h
  · exact absurd (List.eq_of_mem_replicate h) (by decide)
  · rcases List.mem_append.mp h with h | h
    · have := decimal_isDigit n _ h
      revert this; decide
    · revert h; decide

theorem sstName_isToken (n : ℕ) : IsToken (sstName n) := by
  have hext : ∀ b ∈ ascii ".sst", isSpace b = false := by decide +kernel
  refine ⟨by simp [sstName, ascii], fun b hb => ?_⟩
  rcases List.mem_append.mp hb with hb | hb
  · rw [List.eq_of_mem_replicate hb]; decide
  · rcases List.mem_append.mp hb with hb | hb
    · exact not_isSpace_of_isDigit (decimal_isDigit n b hb)
    · exact hext b hb

theorem baseName_newFileName (db_dir : Bytes) (n : ℕ) :
    baseName (joinPath db_dir (sstName n)) = sstName n :=
  baseName_joinPath db_dir (slash_not_mem_sstName n)

/-- A table of the directory is the file `f`. -/
structure OnDisk (db_dir : Bytes) (dir : SstDir) (f : FileMeta) : Prop where
  number : f.file_number < 2 ^ 64
  name : f.file_name = joinPath db_dir (sstName f.file_number)
  table : ∃ t, (sstName f.file_number, some t) ∈ dir ∧
    f = t.fileMeta f.file_number (joinPath db_dir (sstName f.file_number))

theorem openReader_frame (s : Startup) (f : FileMeta) :
    (s.openReader f).vm.current = s.vm.current ∧ (s.openReader f).dir = s.dir ∧
      (s.openReader f).files = s.files := by
  have hmark : ∀ n, (s.vm.markFileNumberUsed n).current = s.vm.current := fun n => by
    unfold VersionManager.markFileNumberUsed
    split_ifs <;> rfl
  unfold Startup.openReader
  split_ifs
  · exact ⟨rfl, rfl, rfl⟩
  · split
    · exact ⟨rfl, rfl, rfl⟩
    · exact ⟨hmark _, rfl, rfl⟩

theorem openReaders_frame (fs : List FileMeta) (s : Startup) :
    (fs.foldl Startup.openReader s).vm.current = s.vm.current ∧
      (fs.foldl Startup.openReader s).dir = s.dir ∧
      (fs.foldl Startup.openReader s).files = s.files := by
  induction fs generalizing s with
  | nil => exact ⟨rfl, rfl, rfl⟩
  | cons f fs ih =>
    obtain ⟨h1, h2, h3⟩ := ih (s.openReader f)
    obtain ⟨g1, g2, g3⟩ := openReader_frame s f
    exact ⟨h1.trans g1, h2.trans g2, h3.trans g3⟩

theorem mem_liveFiles {v : Version} {l : Fin kMaxLevel} {f : FileMeta}
    (h : f ∈ v.level_files l) : baseName f.file_name ∈ v.liveFiles := by
  refine List.mem_map.mpr ⟨((l.val : ℤ), f), ?_, rfl⟩
  exact List.mem_flatMap.mpr ⟨l, List.mem_finRange l, List.mem_map_of_mem h⟩

theorem load_of_files {s : Startup} (h : ¬ s.vm.current.IsEmpty) :
    s.loadExistingSSTables.vm.current = s.vm.current ∧
      ∀ l, ∀ f ∈ s.vm.current.level_files l, ∀ t, (baseName f.file_name, t) ∈ s.dir →
        (baseName f.file_name, t) ∈ s.loadExistingSSTables.dir := by
  obtain ⟨hcurrent, hdir, -⟩ := openReaders_frame (s.vm.current.allFiles.map Prod.snd) s
  rw [Startup.loadExistingSSTables, if_pos ((numFiles_pos_iff _).mpr h)]
  refine ⟨hcurrent, fun l f hf t ht => ?_⟩
  have hlive := mem_liveFiles hf
  refine List.mem_filter.mpr ⟨hdir ▸ ht, ?_⟩
  change (!(isSst (baseName f.file_name) && !(Version.liveFiles
    (Startup.openReadersForCurrentVersion s).vm.current).contains (baseName f.file_name))) = true
  rw [show (Startup.openReadersForCurrentVersion s).vm.current = s.vm.current from hcurrent]
  simp [hlive]

theorem addScanned_db_dir (s : Startup) (e : Bytes × Option SSTable) :
    (s.addScanned e).vm.db_dir = s.vm.db_dir := by
  unfold Startup.addScanned
  split
  · rfl
  · dsimp only
    rw [applyUnlocked_db_dir]
    split <;> rfl

theorem addedAt_single (f : FileMeta) (l : Fin kMaxLevel) :
    VersionEdit.addedAt ⟨[(0, f)], []⟩ l = if l = 0 then [f] else [] := by
  have h0 : levelIndex 0 = some 0 := levelIndex_val 0
  by_cases hl : l = 0
  · subst hl
    simp [VersionEdit.addedAt, h0]
  · have hl' : ¬ (0 : Fin kMaxLevel) = l := fun h => hl h.symm
    simp [VersionEdit.addedAt, h0, hl, hl']

theorem mem_addScanned (s : Startup) (e : Bytes × Option SSTable) (l : Fin kMaxLevel)
    (f : FileMeta) :
    f ∈ (s.addScanned e).vm.current.level_files l ↔
      f ∈ s.vm.current.level_files l ∨
        l = 0 ∧ ∃ t, e.2 = some t ∧ f = t.fileMeta
          (match readUnsigned 64 (stem e.1) with
            | some (n, _) => n
            | none => s.vm.next_file_number) (joinPath s.vm.db_dir e.1) := by
  unfold Startup.addScanned
  cases ht : e.2 with
  | none => simp
  | some t =>
    dsimp only
    rw [mem_applyUnlocked, addedAt_single]
    cases hn : readUnsigned 64 (stem e.1) with
    | none =>
      by_cases hl : l = 0 <;> simp [hl, VersionManager.newFileNumber]
    | some r =>
      by_cases hl : l = 0 <;> simp [hl]

theorem foldl_addScanned_mono (es : List (Bytes × Option SSTable)) (s : Startup)
    (l : Fin kMaxLevel) {f : FileMeta} (h : f ∈ s.vm.current.level_files l) :
    f ∈ (es.foldl Startup.addScanned s).vm.current.level_files l := by
  induction es generalizing s with
  | nil => exact h
  | cons e es ih => exact ih _ ((mem_addScanned s e l f).mpr (Or.inl h))

/-- Every table that opens is in L0 after the scan. -/
theorem exists_scanned {es : List (Bytes × Option SSTable)} {s : Startup}
    {e : Bytes × Option SSTable} (he : e ∈ es) {t : SSTable} (ht : e.2 = some t) :
    ∃ f ∈ (es.foldl Startup.addScanned s).vm.current.level_files 0,
      f.file_name = joinPath s.vm.db_dir e.1 := by
  induction es generalizing s with
  | nil => contradiction
  | cons e' es ih =>
    rcases List.mem_cons.mp he with rfl | he
    · exact ⟨_, foldl_addScanned_mono es _ 0
        ((mem_addScanned s e 0 _).mpr (Or.inr ⟨rfl, t, ht, rfl⟩)), rfl⟩
    · obtain ⟨f, hf, hname⟩ := ih (s := s.addScanned e') he
      exact ⟨f, hf, by rw [hname, addScanned_db_dir]⟩

theorem scanned_level (es : List (Bytes × Option SSTable)) (s : Startup) {l : Fin kMaxLevel}
    (hl : l ≠ 0) {f : FileMeta} (h : f ∈ (es.foldl Startup.addScanned s).vm.current.level_files l) :
    f ∈ s.vm.current.level_files l := by
  induction es generalizing s with
  | nil => exact h
  | cons e es ih =>
    rcases (mem_addScanned s e l f).mp (ih _ h) with h | ⟨rfl, -⟩
    · exact h
    · contradiction

/-- The file a table under a standard name is taken for. -/
def scannedFile (db_dir : Bytes) (e : Bytes × Option SSTable) : Option FileMeta :=
  e.2.bind fun t => (readUnsigned 64 (stem e.1)).map fun r => t.fileMeta r.1 (joinPath db_dir e.1)

theorem foldl_addScanned_standard (es : List (Bytes × Option SSTable)) (s : Startup)
    (h : ∀ e ∈ es, e.2.isSome → ∃ n < 2 ^ 64, e.1 = sstName n) :
    (es.foldl Startup.addScanned s).vm =
      s.vm.applyEdits ((es.filterMap (scannedFile s.vm.db_dir)).map fun f => ⟨[(0, f)], []⟩) := by
  induction es generalizing s with
  | nil => rfl
  | cons e es ih =>
    rw [List.foldl_cons, ih _ fun e' he' => h e' (List.mem_cons_of_mem e he'), addScanned_db_dir]
    cases ht : e.2 with
    | none =>
      have hfile : scannedFile s.vm.db_dir e = none := by rw [scannedFile, ht]; rfl
      have hadd : s.addScanned e = s := by rw [Startup.addScanned, ht]
      rw [List.filterMap_cons, hfile, hadd]
    | some t =>
      obtain ⟨n, hn, hname⟩ := h e List.mem_cons_self (by rw [ht]; rfl)
      have hread : readUnsigned 64 (stem e.1) = some (n, []) := by
        rw [hname]; exact readUnsigned_stem hn
      have hfile : scannedFile s.vm.db_dir e = some (t.fileMeta n (joinPath s.vm.db_dir e.1)) := by
        rw [scannedFile, ht, hread]; rfl
      have hadd : (s.addScanned e).vm =
          s.vm.applyUnlocked ⟨[(0, t.fileMeta n (joinPath s.vm.db_dir e.1))], []⟩ := by
        rw [Startup.addScanned, ht]
        dsimp only
        rw [hread]
      rw [List.filterMap_cons, hfile, hadd]
      rfl

def scanOrder (dir : SstDir) : SstDir := sortBy Prod.fst (dir.filter fun e => isSst e.1)

theorem mem_scanOrder {dir : SstDir} {e : Bytes × Option SSTable} :
    e ∈ scanOrder dir ↔ e ∈ dir ∧ isSst e.1 = true := by
  rw [scanOrder, mem_sortBy, List.mem_filter]

theorem scanDirectory_frame (s : Startup) :
    s.scanDirectory.vm.current = ((scanOrder s.dir).foldl Startup.addScanned s).vm.current ∧
      s.scanDirectory.dir = ((scanOrder s.dir).foldl Startup.addScanned s).dir := by
  unfold Startup.scanDirectory
  dsimp only
  split_ifs
  · exact ⟨rfl, rfl⟩
  · exact ⟨rfl, rfl⟩

theorem addScanned_dir (s : Startup) (e : Bytes × Option SSTable) :
    (s.addScanned e).dir = s.dir := by
  unfold Startup.addScanned
  split <;> rfl

theorem foldl_addScanned_dir (es : List (Bytes × Option SSTable)) (s : Startup) :
    (es.foldl Startup.addScanned s).dir = s.dir := by
  induction es generalizing s with
  | nil => rfl
  | cons e es ih => exact (ih _).trans (addScanned_dir s e)

theorem foldl_addScanned_files (es : List (Bytes × Option SSTable)) (s : Startup) :
    (es.foldl Startup.addScanned s).files = s.files := by
  induction es generalizing s with
  | nil => rfl
  | cons e es ih =>
    rw [List.foldl_cons, ih, Startup.addScanned]
    split <;> rfl

theorem load_of_empty {s : Startup} (h : s.vm.current.IsEmpty) :
    s.loadExistingSSTables = s.scanDirectory := by
  rw [Startup.loadExistingSSTables, if_neg fun hpos => (numFiles_pos_iff _).mp hpos h]

theorem scanned_mem_iff {db_dir : Bytes} {es : List (Bytes × Option SSTable)} {f : FileMeta} :
    f ∈ es.filterMap (scannedFile db_dir) ↔ ∃ e ∈ es, ∃ t, e.2 = some t ∧
      ∃ r, readUnsigned 64 (stem e.1) = some r ∧ f = t.fileMeta r.1 (joinPath db_dir e.1) := by
  rw [List.mem_filterMap]
  constructor
  · rintro ⟨e, he, hf⟩
    obtain ⟨t, ht, hf⟩ := Option.bind_eq_some_iff.mp hf
    obtain ⟨r, hr, rfl⟩ := Option.map_eq_some_iff.mp hf
    exact ⟨e, he, t, ht, r, hr, rfl⟩
  · rintro ⟨e, he, t, ht, r, hr, rfl⟩
    exact ⟨e, he, by rw [scannedFile, ht, Option.bind_some, hr]; rfl⟩

theorem nodup_fst_unique {α β : Type} {xs : List (α × β)} (h : (xs.map Prod.fst).Nodup) {a : α}
    {b b' : β} (hb : (a, b) ∈ xs) (hb' : (a, b') ∈ xs) : b = b' := by
  have heq := List.inj_on_of_nodup_map h hb hb' rfl
  exact congrArg Prod.snd heq

/-- A directory whose tables are exactly the files `fs` comes back as these files. -/
theorem scan_exact {s : Startup} (hempty : s.vm.current.IsEmpty)
    (hnodup : (s.dir.map Prod.fst).Nodup) {p : FileMeta → Prop}
    (hfs : ∀ f, p f → OnDisk s.vm.db_dir s.dir f)
    (hall : ∀ e ∈ s.dir, isSst e.1 = true → e.2.isSome → ∃ f, p f ∧ e.1 = sstName f.file_number) :
    s.scanDirectory.vm.current.Ordered ∧
      (∀ f, f ∈ s.scanDirectory.vm.current.level_files 0 ↔ p f) ∧
      ∀ l, l ≠ 0 → s.scanDirectory.vm.current.level_files l = [] := by
  have hstd : ∀ e ∈ scanOrder s.dir, e.2.isSome → ∃ n < 2 ^ 64, e.1 = sstName n := by
    intro e he hsome
    obtain ⟨he, hsst⟩ := mem_scanOrder.mp he
    obtain ⟨f, hf, hname⟩ := hall e he hsst hsome
    exact ⟨f.file_number, (hfs f hf).number, hname⟩
  have hord : s.vm.current.Ordered := fun l => by rw [hempty l]; exact ascending_nil
  have hmem : ∀ f, f ∈ (scanOrder s.dir).filterMap (scannedFile s.vm.db_dir) ↔ p f := by
    intro f
    rw [scanned_mem_iff]
    constructor
    · rintro ⟨⟨name, o⟩, he, t, rfl, r, hr, rfl⟩
      obtain ⟨he, hsst⟩ := mem_scanOrder.mp he
      obtain ⟨g, hg, rfl⟩ := hall _ he hsst rfl
      obtain ⟨t', ht', hgt⟩ := (hfs g hg).table
      obtain rfl : t = t' := Option.some.inj (nodup_fst_unique hnodup he ht')
      rw [readUnsigned_stem (hfs g hg).number] at hr
      obtain rfl := Option.some.inj hr
      exact hgt ▸ hg
    · intro hf
      obtain ⟨t, ht, hft⟩ := (hfs f hf).table
      exact ⟨_, mem_scanOrder.mpr ⟨ht, isSst_sstName _⟩, t, rfl, _,
        readUnsigned_stem (hfs f hf).number, hft⟩
  have hnum : (((scanOrder s.dir).filterMap (scannedFile s.vm.db_dir)).map
      FileMeta.file_number).Nodup := by
    have hnames : ((scanOrder s.dir).map Prod.fst).Nodup := by
      have hperm : ((scanOrder s.dir).map Prod.fst).Perm
          ((s.dir.filter fun e => isSst e.1).map Prod.fst) := (sortBy_perm _).map Prod.fst
      exact hperm.nodup_iff.mpr (hnodup.sublist (List.filter_sublist.map _))
    refine List.pairwise_map.mpr (List.pairwise_filterMap.mpr ?_)
    refine (List.pairwise_map.mp hnames).imp_of_mem fun {e e'} he he' hne f hf f' hf' hnum => hne ?_
    -- equal numbers, hence equal names
    obtain ⟨t, ht, hr⟩ := Option.bind_eq_some_iff.mp hf
    obtain ⟨t', ht', hr'⟩ := Option.bind_eq_some_iff.mp hf'
    obtain ⟨n, hn, hname⟩ := hstd e he (by rw [ht]; rfl)
    obtain ⟨n', hn', hname'⟩ := hstd e' he' (by rw [ht']; rfl)
    rw [hname, readUnsigned_stem hn] at hr
    rw [hname', readUnsigned_stem hn'] at hr'
    obtain rfl := Option.some.inj hr
    obtain rfl := Option.some.inj hr'
    rw [hname, hname', show n = n' from hnum]
  have hvm := foldl_addScanned_standard (scanOrder s.dir) s hstd
  obtain ⟨hframe, -⟩ := scanDirectory_frame s
  set found := (scanOrder s.dir).filterMap (scannedFile s.vm.db_dir) with hfound
  have hat : ∀ l, VersionEdit.addedAt ⟨found.map fun f => (0, f), []⟩ l =
      if l = 0 then found else [] := by
    have h0 : levelIndex 0 = some 0 := levelIndex_val 0
    intro l
    unfold VersionEdit.addedAt
    rw [List.filter_map, List.map_map]
    by_cases hl : l = 0
    · subst hl
      simp [Function.comp_def, h0]
    · have hl' : ¬ (0 : Fin kMaxLevel) = l := fun h => hl h.symm
      simp [Function.comp_def, h0, hl, hl']
  have hnew : VersionEdit.NewIn ⟨found.map fun f => (0, f), []⟩ s.vm.current := by
    intro l
    rw [hat, hempty l]
    refine ⟨?_, fun f hf => absurd hf List.not_mem_nil⟩
    split_ifs
    · exact hnum
    · exact List.nodup_nil
  obtain ⟨hord', hmem'⟩ := applyEdits_adds _ hord hnew
  rw [List.map_map] at hord' hmem'
  rw [hframe, hvm]
  refine ⟨hord', fun f => ?_, fun l hl => ?_⟩
  · refine (hmem' 0 f).trans ?_
    rw [hat, hempty 0, if_pos rfl, hmem]
    simp
  · refine List.eq_nil_iff_forall_not_mem.mpr fun f hf => ?_
    have := (hmem' l f).mp hf
    rw [hat, hempty l, if_neg hl] at this
    simp at this

end MiniTsdb
