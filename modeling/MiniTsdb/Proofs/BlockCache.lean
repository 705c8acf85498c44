import MiniTsdb.Proofs.SSTableRoundTrip
import MiniTsdb.Spec.BlockCache

/-! Readers that share a block cache answer as they do without one: what is cached under a
key is the block that the key's file has at the key's offset. -/

namespace MiniTsdb
open Lib

theorem append_cons_inj {α : Type} {x x' y y' : List α} {a : α} (hy : a ∉ y) (hy' : a ∉ y')
    (h : x ++ a :: y = x' ++ a :: y') : x = x' ∧ y = y' := by
  rcases List.append_eq_append_iff.mp h with ⟨m, rfl, hm⟩ | ⟨m, rfl, hm⟩
  · cases m with
    | nil => simpa using hm
    | cons b m =>
      obtain ⟨-, rfl⟩ := List.cons.inj hm
      exact absurd (List.mem_append_right m List.mem_cons_self) hy
  · cases m with
    | nil => simpa using hm.symm
    | cons b m =>
      obtain ⟨-, rfl⟩ := List.cons.inj hm
      exact absurd (List.mem_append_right m List.mem_cons_self) hy'

theorem hash_not_mem_decimal (n : ℕ) : (35 : Byte) ∉ decimal n :=
  fun h => absurd (decimal_isDigit n 35 h) (by decide)

theorem cacheKey_inj {fname fname' : Bytes} {offset offset' : ℕ}
    (h : cacheKey fname offset = cacheKey fname' offset') : fname = fname' ∧ offset = offset' := by
  obtain ⟨hname, hdigits⟩ :=
    append_cons_inj (hash_not_mem_decimal offset) (hash_not_mem_decimal offset') h
  refine ⟨hname, ?_⟩
  rw [← digitsValue_decimal offset, hdigits, digitsValue_decimal]

namespace BlockCache

variable {c : BlockCache} {key value : Bytes}

/-- What holds of every key and the value under it. -/
def Each (c : BlockCache) (P : Bytes → Bytes → Prop) : Prop := ∀ e ∈ c.lru, P e.key e.value

theorem each_new (capacity_bytes : ℕ) (P : Bytes → Bytes → Prop) : (new capacity_bytes).Each P := by
  intro e he
  contradiction

theorem mem_of_find {e : CacheEntry} (h : c.find key = some e) : e ∈ c.lru ∧ e.key = key :=
  ⟨List.mem_of_find?_eq_some h, by simpa using List.find?_some h⟩

theorem others_sublist (c : BlockCache) (key : Bytes) : (c.others key).Sublist c.lru :=
  List.eraseP_sublist

theorem Each.get {P : Bytes → Bytes → Prop} (h : c.Each P) (key : Bytes) :
    (c.get key).2.Each P ∧ ∀ v, (c.get key).1 = some v → P key v := by
  rw [BlockCache.get]
  cases hfind : c.find key with
  | none => exact ⟨h, fun v hv => by contradiction⟩
  | some e =>
    obtain ⟨hmem, hkey⟩ := mem_of_find hfind
    refine ⟨fun e' he' => ?_, fun v hv => ?_⟩
    · rcases List.mem_cons.mp he' with rfl | he'
      · exact h e' hmem
      · exact h e' ((others_sublist c key).subset he')
    · obtain rfl := Option.some.inj hv
      exact hkey ▸ h e hmem

theorem pruneLoop_lru (turns : ℕ) (c : BlockCache) : (pruneLoop turns c).lru <+: c.lru := by
  induction turns generalizing c with
  | zero => exact List.prefix_refl _
  | succ turns ih =>
    rw [pruneLoop]
    split
    · exact List.prefix_refl _
    · split_ifs
      · exact (ih _).trans (List.dropLast_prefix _)
      · exact List.prefix_refl _

theorem dropOld_sublist (c : BlockCache) (key : Bytes) : (c.dropOld key).lru.Sublist c.lru := by
  rw [dropOld]
  split
  · exact List.Sublist.refl _
  · exact others_sublist c key

theorem Each.put {P : Bytes → Bytes → Prop} (h : c.Each P) (hnew : P key value) :
    (c.put key value).Each P := by
  rw [BlockCache.put]
  split_ifs
  · exact h
  · intro e he
    rcases List.mem_cons.mp ((pruneLoop_lru _ _).subset he) with rfl | he
    · exact hnew
    · exact h e ((dropOld_sublist c key).subset he)

/-- One entry a key, the bytes counted right and within the capacity. -/
structure Accounted (c : BlockCache) : Prop where
  nodup : (c.lru.map CacheEntry.key).Nodup
  usage : c.usage_bytes = (c.lru.map CacheEntry.charge).sum
  bound : c.usage_bytes ≤ c.capacity_bytes

theorem accounted_new (capacity_bytes : ℕ) : (new capacity_bytes).Accounted :=
  ⟨List.nodup_nil, rfl, Nat.zero_le _⟩

theorem perm_others {e : CacheEntry} (h : c.find key = some e) :
    (e :: c.others key).Perm c.lru := by
  rw [find, List.find?_eq_some_iff_append] at h
  obtain ⟨hkey, xs, ys, heq, hxs⟩ := h
  rw [others, heq, List.eraseP_append_right _ (fun x hx => by simpa using hxs x hx),
    List.eraseP_cons_of_pos (p := fun e : CacheEntry => e.key == key) hkey]
  exact List.perm_middle.symm

theorem Accounted.get (h : c.Accounted) : (c.get key).2.Accounted := by
  rw [BlockCache.get]
  cases hfind : c.find key with
  | none => exact ⟨h.nodup, h.usage, h.bound⟩
  | some e =>
    have hperm := perm_others hfind
    refine ⟨(hperm.map CacheEntry.key).nodup_iff.mpr h.nodup, ?_, h.bound⟩
    dsimp only
    rw [h.usage, ((hperm.map CacheEntry.charge).sum_eq)]

theorem Accounted.dropOld (h : c.Accounted) (key : Bytes) :
    (c.dropOld key).Accounted ∧ key ∉ (c.dropOld key).lru.map CacheEntry.key ∧
      (c.dropOld key).capacity_bytes = c.capacity_bytes := by
  rw [BlockCache.dropOld]
  cases hfind : c.find key with
  | none =>
    refine ⟨h, fun hkey => ?_, rfl⟩
    obtain ⟨e, he, hek⟩ := List.mem_map.mp hkey
    exact List.find?_eq_none.mp hfind e he (by simpa using hek)
  | some old =>
    have hperm := perm_others hfind
    have hnodup := (hperm.map CacheEntry.key).nodup_iff.mpr h.nodup
    have hsum := (hperm.map CacheEntry.charge).sum_eq
    have hbound := h.bound
    rw [List.map_cons, List.sum_cons, ← h.usage] at hsum
    rw [List.map_cons, List.nodup_cons, (mem_of_find hfind).2] at hnodup
    refine ⟨⟨hnodup.2, ?_, ?_⟩, hnodup.1, rfl⟩
    · dsimp only
      omega
    · dsimp only
      omega

theorem accounted_pruneLoop (turns : ℕ) (hturns : c.lru.length ≤ turns)
    (hnodup : (c.lru.map CacheEntry.key).Nodup)
    (husage : c.usage_bytes = (c.lru.map CacheEntry.charge).sum) : (pruneLoop turns c).Accounted := by
  induction turns generalizing c with
  | zero =>
    have hnil : c.lru = [] := List.length_eq_zero_iff.mp (Nat.le_zero.mp hturns)
    refine ⟨hnodup, husage, ?_⟩
    rw [pruneLoop, husage, hnil]
    exact Nat.zero_le _
  | succ turns ih =>
    rw [pruneLoop]
    split
    · rename_i hnil
      refine ⟨hnodup, husage, ?_⟩
      rw [husage, List.getLast?_eq_none_iff.mp hnil]
      exact Nat.zero_le _
    · rename_i entry hlast
      split_ifs with hfull
      · have hsplit := List.dropLast_append_getLast? entry hlast
        rw [← hsplit, List.map_append, List.sum_append, List.map_singleton, List.sum_singleton]
          at husage
        refine ih ?_ (hnodup.sublist ((List.dropLast_sublist _).map _)) ?_
        · rw [List.length_dropLast]
          omega
        · dsimp only
          omega
      · exact ⟨hnodup, husage, not_lt.mp hfull⟩

theorem Accounted.put (h : c.Accounted) : (c.put key value).Accounted := by
  rw [BlockCache.put]
  split_ifs
  · exact h
  · obtain ⟨hdrop, hfree, -⟩ := h.dropOld key
    refine accounted_pruneLoop _ le_rfl (List.nodup_cons.mpr ⟨hfree, hdrop.nodup⟩) ?_
    dsimp only
    rw [List.map_cons, List.sum_cons, hdrop.usage, Nat.add_comm]

end BlockCache

/-- Under the key of a block of a file there is that block, verified. -/
def IsBlock (files : List TableFile) (key block : Bytes) : Prop :=
  ∀ f ∈ files, ∀ e ∈ f.reader.index, key = cacheKey f.fname e.offset →
    block = readBlock f.reader.file e.offset e.size

variable {files : List TableFile} (hnames : (files.map TableFile.fname).Nodup) {f : TableFile}
  (hf : f ∈ files) {c : BlockCache}

include hnames hf

theorem isBlock_readBlock {e : IndexEntry} (he : e ∈ f.reader.index) :
    IsBlock files (cacheKey f.fname e.offset) (readBlock f.reader.file e.offset e.size) := by
  intro g hg e' he' hkey
  obtain ⟨hname, hoffset⟩ := cacheKey_inj hkey
  obtain rfl : f = g := List.inj_on_of_nodup_map hnames hf hg hname
  rw [hoffset, f.one_block e he e' he' hoffset]

theorem readBlockCached_eq (hc : c.Each (IsBlock files)) {e : IndexEntry}
    (he : e ∈ f.reader.index) :
    ∃ c', readBlockCached f.fname f.reader.file e.offset e.size c =
      (readBlock f.reader.file e.offset e.size, c') ∧ c'.Each (IsBlock files) := by
  have hblock := isBlock_readBlock hnames hf he
  obtain ⟨hkeep, hvalue⟩ := hc.get (cacheKey f.fname e.offset)
  rw [readBlockCached]
  by_cases hsize : e.size < 4
  · rw [if_pos hsize, readBlock, if_pos (Or.inl hsize)]
    exact ⟨c, rfl, hc⟩
  · rw [if_neg hsize]
    cases hget : c.get (cacheKey f.fname e.offset) with
    | mk found c' =>
      rw [hget] at hkeep hvalue
      cases found with
      | some cached => exact ⟨c', by rw [hvalue cached rfl f hf e he rfl], hkeep⟩
      | none =>
        rw [readBlock] at hblock ⊢
        by_cases hshort : f.reader.file.length < e.offset + e.size
        · rw [if_pos (Or.inr hshort)]
          exact ⟨c', by simp only [if_pos hshort], hkeep⟩
        · rw [if_neg (not_or.mpr ⟨hsize, hshort⟩)] at hblock ⊢
          simp only [if_neg hshort]
          dsimp only at hblock
          split_ifs at hblock ⊢ with hcrc
          · exact ⟨_, rfl, hkeep.put hblock⟩
          · exact ⟨c', rfl, hkeep⟩

theorem getEntryCached_eq (hc : c.Each (IsBlock files)) (key : TsKey) :
    ∃ c', f.reader.getEntryCached f.fname key c = (f.reader.getEntry key, c') ∧
      c'.Each (IsBlock files) := by
  unfold SSTableReader.getEntryCached SSTableReader.getEntry
  split_ifs
  · exact ⟨c, rfl, hc⟩
  · cases f.reader.bloom.mayContain (encodeKey key) with
    | none => exact ⟨c, rfl, hc⟩
    | some may =>
      cases may with
      | false => exact ⟨c, rfl, hc⟩
      | true =>
        cases hfind : f.reader.lowerBound key with
        | none => exact ⟨c, rfl, hc⟩
        | some e =>
          have he : e ∈ f.reader.index := List.mem_of_find?_eq_some hfind
          obtain ⟨c', hread, hc'⟩ := readBlockCached_eq hnames hf hc he
          dsimp only
          rw [hread]
          exact ⟨c', rfl, hc'⟩

theorem scanIndexLoopCached_eq (first last : TsKey) {index : List IndexEntry}
    (hindex : ∀ e ∈ index, e ∈ f.reader.index) (hc : c.Each (IsBlock files)) :
    ∃ c', scanIndexLoopCached f.fname f.reader.file first last index c =
      (scanIndexLoop f.reader.file first last index, c') ∧ c'.Each (IsBlock files) := by
  induction index generalizing c with
  | nil => exact ⟨c, rfl, hc⟩
  | cons e index ih =>
    have hrest : ∀ e' ∈ index, e' ∈ f.reader.index := fun e' he' =>
      hindex e' (List.mem_cons_of_mem e he')
    rw [scanIndexLoopCached, scanIndexLoop]
    split_ifs with hbefore
    · exact ih hrest hc
    · obtain ⟨c', hread, hc'⟩ := readBlockCached_eq hnames hf hc (hindex e List.mem_cons_self)
      rw [hread]
      dsimp only
      split_ifs
      · exact ⟨c', rfl, hc'⟩
      · obtain ⟨c'', hmore, hc''⟩ := ih hrest hc'
        rw [hmore]
        exact ⟨c'', rfl, hc''⟩

/-- A call leaves the answer of the reader alone, and verified blocks in the cache. -/
theorem answerCached_eq (hc : c.Each (IsBlock files)) (call : ReaderCall) :
    ∃ c', f.reader.answerCached f.fname c call = (f.reader.answer call, c') ∧
      c'.Each (IsBlock files) := by
  cases call with
  | getEntry key =>
    obtain ⟨c', hget, hc'⟩ := getEntryCached_eq hnames hf hc key
    rw [SSTableReader.answerCached, hget]
    exact ⟨c', rfl, hc'⟩
  | rangeScanEntries first last =>
    obtain ⟨c', hscan, hc'⟩ := scanIndexLoopCached_eq hnames hf first last (fun _ he => he) hc
    rw [SSTableReader.answerCached, SSTableReader.rangeScanEntriesCached, hscan]
    exact ⟨c', rfl, hc'⟩

omit hf in
theorem answersCached_eq {calls : List (TableFile × ReaderCall)}
    (hcalls : ∀ call ∈ calls, call.1 ∈ files) (hc : c.Each (IsBlock files)) :
    answersCached calls c = calls.map fun call => call.1.reader.answer call.2 := by
  induction calls generalizing c with
  | nil => rfl
  | cons call calls ih =>
    obtain ⟨c', hanswer, hc'⟩ := answerCached_eq hnames (hcalls call List.mem_cons_self) hc call.2
    rw [answersCached, hanswer, List.map_cons, ← ih (fun _ h => hcalls _ (List.mem_cons_of_mem _ h)) hc']

omit hnames hf

/-- Readers that share a cache answer every call as they do without a cache. -/
theorem block_cache_transparent (hnames : (files.map TableFile.fname).Nodup)
    (capacity_bytes : ℕ) {calls : List (TableFile × ReaderCall)}
    (hcalls : ∀ call ∈ calls, call.1 ∈ files) :
    answersCached calls (.new capacity_bytes) =
      calls.map fun call => call.1.reader.answer call.2 :=
  answersCached_eq hnames hcalls (BlockCache.each_new _ _)

theorem ascending_indexOf {blocks : List (List (TsKey × InternalEntry))} {offset : ℕ}
    (hlen : offset + (blocksText blocks).length < 2 ^ 64) :
    Ascending (fun e => e.2.1) (indexOf offset blocks) ∧
      ∀ e ∈ indexOf offset blocks, offset ≤ e.2.1 := by
  induction blocks generalizing offset with
  | nil => exact ⟨ascending_nil, fun e he => by contradiction⟩
  | cons b blocks ih =>
    have hrecord := blockRecord_length b
    have htext : blocksText (b :: blocks) = blockRecord b ++ blocksText blocks := rfl
    rw [htext, List.length_append] at hlen
    obtain ⟨hasc, hle⟩ := ih (show offset + (blockRecord b).length + _ < _ by omega)
    have hmod : offset % 2 ^ 64 = offset := Nat.mod_eq_of_lt (by omega)
    rw [indexOf, ascending_cons, hmod]
    refine ⟨⟨fun e he => ?_, hasc⟩, fun e he => ?_⟩
    · have := hle e he
      dsimp only
      omega
    · rcases List.mem_cons.mp he with rfl | he
      · exact le_rfl
      · have := hle e he
        omega

/-- What the builder writes is an SSTable file under any name. -/
theorem tableFile_of_built (fname : Bytes) {block_size : ℤ}
    {entries : List (TsKey × InternalEntry)} {file : Bytes} (hfits : ∀ e ∈ entries, FitsEntry e)
    (hsizes : ∀ b ∈ cutBlocks block_size [] entries, (encodeBlock b).length < 2 ^ 31)
    (hbuild : buildSSTable block_size entries = some file) :
    ∃ f : TableFile, f.fname = fname ∧ f.reader.file = file := by
  have hcount := (buildSSTable_isSome_iff block_size entries).mp (by rw [hbuild]; rfl)
  obtain ⟨file', bloom, hbuild', hopen, -⟩ := opens_of_count hfits hsizes hcount
  obtain rfl := Option.some.inj (hbuild.symm.trans hbuild')
  have hfew := length_le_flatten (cutBlocks_ne_nil block_size entries [])
  rw [cutBlocks_flatten, List.nil_append] at hfew
  have htext := blocksText_length_le _ hsizes
  unfold kMaxBloomKeys at hcount
  have hlen : 0 + (blocksText (cutBlocks block_size [] entries)).length < 2 ^ 64 := by omega
  obtain ⟨hasc, -⟩ := ascending_indexOf hlen
  refine ⟨⟨fname, readerOf file _ bloom, hopen, fun e he e' he' hoffset => ?_⟩, rfl, rfl⟩
  obtain ⟨i, hi, rfl⟩ := List.mem_map.mp he
  obtain ⟨i', hi', rfl⟩ := List.mem_map.mp he'
  rw [hasc.inj hi hi' hoffset]

/-- Two files of one entry each, read in turn through a cache of 64 bytes. -/
theorem block_cache_transparent_two : ∃ f g : TableFile,
    buildSSTable 1 [(⟨[99], 1⟩, ⟨[7], .kValue⟩)] = some f.reader.file ∧
    buildSSTable 1 [(⟨[99], 1⟩, ⟨[8], .kValue⟩)] = some g.reader.file ∧
    answersCached [(f, .getEntry ⟨[99], 1⟩), (g, .getEntry ⟨[99], 1⟩),
        (f, .rangeScanEntries ⟨[], 0⟩ ⟨[100], 0⟩), (g, .getEntry ⟨[99], 1⟩)] (.new 64) =
      [(f, ReaderCall.getEntry ⟨[99], 1⟩), (g, .getEntry ⟨[99], 1⟩),
        (f, .rangeScanEntries ⟨[], 0⟩ ⟨[100], 0⟩), (g, .getEntry ⟨[99], 1⟩)].map
        fun call => call.1.reader.answer call.2 := by
  have hbuilt : ∀ v : Byte, v = 7 ∨ v = 8 → ∀ fname : Bytes, ∃ f : TableFile, f.fname = fname ∧
      buildSSTable 1 [(⟨[99], 1⟩, ⟨[v], .kValue⟩)] = some f.reader.file := by
    intro v hv fname
    obtain ⟨file, hbuild⟩ := Option.isSome_iff_exists.mp
      ((buildSSTable_isSome_iff 1 [(⟨[99], 1⟩, ⟨[v], .kValue⟩)]).mpr (by simp [kMaxBloomKeys]))
    have hfits : ∀ e ∈ [((⟨[99], 1⟩ : TsKey), (⟨[v], .kValue⟩ : InternalEntry))], FitsEntry e := by
      unfold FitsEntry
      rcases hv with rfl | rfl <;> decide +kernel
    have hsizes : ∀ b ∈ cutBlocks 1 [] [((⟨[99], 1⟩ : TsKey), (⟨[v], .kValue⟩ : InternalEntry))],
        (encodeBlock b).length < 2 ^ 31 := by
      rcases hv with rfl | rfl <;> decide +kernel
    obtain ⟨f, hname, hfile⟩ := tableFile_of_built fname hfits hsizes hbuild
    exact ⟨f, hname, hfile ▸ hbuild⟩
  obtain ⟨f, hf, hfile⟩ := hbuilt 7 (Or.inl rfl) [49]
  obtain ⟨g, hg, hgile⟩ := hbuilt 8 (Or.inr rfl) [50]
  have hnames : ([f, g].map TableFile.fname).Nodup := by simp [hf, hg]
  exact ⟨f, g, hfile, hgile, block_cache_transparent hnames 64 (by simp)⟩

end MiniTsdb
