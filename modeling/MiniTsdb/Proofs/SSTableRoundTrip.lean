import MiniTsdb.Proofs.SSTableBuild

/-! Reading a finished SSTable back: the footer, the index, the blocks behind it, and the
look-ups and scans over them. -/

namespace MiniTsdb
open Lib

def toIndexEntry (e : TsKey × ℕ × ℕ) : IndexEntry := ⟨e.1, e.2.1, e.2.2⟩

theorem decodeFixed64_of_drop {s rest : Bytes} {pos v : ℕ}
    (h : s.drop pos = encodeFixed64 v ++ rest) (hv : v < 2 ^ 64) : decodeFixed64 s pos = v := by
  have hslice := slice_of_drop h
  rw [show (encodeFixed64 v).length = 8 from leBytes_length ..] at hslice
  rw [decodeFixed64, hslice]
  exact leValue_leBytes_of_lt (by norm_num; omega)

theorem blockRecord_length (block : List (TsKey × InternalEntry)) :
    (blockRecord block).length = (encodeBlock block).length + 4 := by
  have h4 : (encodeFixed32 (crc32 (encodeBlock block) 0#32).toNat).length = 4 := leBytes_length ..
  rw [blockRecord, encodeBlockRecord, List.length_append, h4, Nat.add_comm]

theorem readBlock_record {file rest : Bytes} {offset : ℕ} {block : List (TsKey × InternalEntry)}
    (h : file.drop offset = blockRecord block ++ rest) :
    readBlock file offset (blockRecord block).length = encodeBlock block := by
  have hlen := blockRecord_length block
  have hend := pos_add_le_of_drop h (by
    intro hnil
    rw [(List.append_eq_nil_iff.mp hnil).1, List.length_nil] at hlen
    omega)
  have h4 : (encodeFixed32 (crc32 (encodeBlock block) 0#32).toNat).length = 4 := leBytes_length ..
  have hblock : (blockRecord block).drop 4 = encodeBlock block := by
    rw [← h4]
    exact List.drop_left
  have hcrc : decodeFixed32 (blockRecord block) 0 = (crc32 (encodeBlock block) 0#32).toNat := by
    rw [decodeFixed32, blockRecord, encodeBlockRecord, slice_append_left h4.symm]
    exact leValue_leBytes_of_lt (crc32_toNat_lt _ _)
  rw [List.length_append] at hend
  rw [readBlock, if_neg (by omega), slice_of_drop h]
  dsimp only
  rw [hblock, hcrc]
  exact if_pos rfl

/-- An index over the blocks of a file: the last key of each, and where to read it. -/
def Indexes (file : Bytes) : List IndexEntry → List (List (TsKey × InternalEntry)) → Prop :=
  List.Forall₂ fun e block =>
    e.last_key = lastKey block ∧ readBlock file e.offset e.size = encodeBlock block

theorem indexes_indexOf {file rest : Bytes} (blocks : List (List (TsKey × InternalEntry)))
    {offset : ℕ} (h : file.drop offset = blocksText blocks ++ rest)
    (hsizes : ∀ b ∈ blocks, (encodeBlock b).length < 2 ^ 31)
    (hlen : offset + (blocksText blocks).length < 2 ^ 64) :
    Indexes file ((indexOf offset blocks).map toIndexEntry) blocks := by
  induction blocks generalizing offset with
  | nil => exact List.Forall₂.nil
  | cons b blocks ih =>
    have hb := hsizes b List.mem_cons_self
    have hrecord := blockRecord_length b
    have htext : blocksText (b :: blocks) = blockRecord b ++ blocksText blocks := rfl
    rw [htext, List.append_assoc] at h
    rw [htext, List.length_append] at hlen
    refine List.Forall₂.cons ⟨rfl, ?_⟩ ?_
    · change readBlock file (offset % 2 ^ 64) ((blockRecord b).length % 2 ^ 32) = _
      rw [Nat.mod_eq_of_lt (by omega), Nat.mod_eq_of_lt (by omega)]
      exact readBlock_record h
    · apply ih (drop_add_of_drop h) (fun b' hb' => hsizes b' (List.mem_cons_of_mem b hb'))
      omega

def FitsIndex (e : TsKey × ℕ × ℕ) : Prop :=
  (encodeKey e.1).length < 2 ^ 31 ∧ e.2.1 < 2 ^ 64 ∧ e.2.2 < 2 ^ 32

theorem parseIndexLoop_encode {index_data : Bytes} (index : List (TsKey × ℕ × ℕ)) {pos : ℕ}
    (h : index_data.drop pos = (index.map fun e => encodeIndexEntry e.1 e.2.1 e.2.2).flatten)
    (hfits : ∀ e ∈ index, FitsIndex e) :
    parseIndexLoop index_data index.length pos = .ok (index.map toIndexEntry) := by
  induction index generalizing pos with
  | nil => rfl
  | cons e index ih =>
    obtain ⟨hkey, hoffset, hsize⟩ := hfits e List.mem_cons_self
    have hmod : (encodeKey e.1).length % 2 ^ 32 = (encodeKey e.1).length :=
      Nat.mod_eq_of_lt (by omega)
    have h8 : ∀ v, (encodeFixed64 v).length = 8 := fun _ => leBytes_length ..
    have h0 : index_data.drop pos = encodeVarint (encodeKey e.1).length ++ (encodeKey e.1 ++
        (encodeFixed64 e.2.1 ++ (encodeFixed64 e.2.2 ++
          (index.map fun e => encodeIndexEntry e.1 e.2.1 e.2.2).flatten))) := by
      rw [h, List.map_cons, List.flatten_cons, encodeIndexEntry, hmod]
      simp only [List.append_assoc]
    have h1 := drop_add_of_drop h0
    have h2 := drop_add_of_drop h1
    have h3 := drop_add_of_drop h2
    have h4 := drop_add_of_drop h3
    have hend := pos_add_le_of_drop h0 (by
      intro hnil
      have := congrArg List.length hnil
      simp only [List.length_append, h8, List.length_nil] at this
      omega)
    simp only [List.length_append, h8] at hend
    rw [h8] at h3 h4
    rw [h8] at h4
    have hrest := ih h4 fun e' he' => hfits e' (List.mem_cons_of_mem e he')
    rw [List.length_cons, parseIndexLoop, decodeVarint_encode h0 (by omega)]
    dsimp only
    rw [if_neg (by
      refine not_or.mpr ⟨decodeVarint_ne_bad hkey, ?_⟩
      omega), slice_of_drop h1, decodeKey_encode hkey]
    dsimp only
    rw [hrest]
    dsimp only
    rw [decodeFixed64_of_drop h2 hoffset, decodeFixed64_of_drop h3 (by omega),
      Nat.mod_eq_of_lt hsize]
    rfl

theorem parseIndex_encode {index : List (TsKey × ℕ × ℕ)} (hlen : index.length < 2 ^ 31)
    (hfits : ∀ e ∈ index, FitsIndex e) :
    parseIndex (indexText index) = .ok (index.map toIndexEntry) := by
  have h0 : (indexText index).drop 0 = encodeVarint index.length ++
      (index.map fun e => encodeIndexEntry e.1 e.2.1 e.2.2).flatten := by
    rw [List.drop_zero, indexText, Nat.mod_eq_of_lt (by omega)]
  rw [parseIndex, decodeVarint_encode h0 (by omega)]
  dsimp only
  rw [if_neg (decodeVarint_ne_bad hlen)]
  exact parseIndexLoop_encode index (drop_add_of_drop h0) hfits

theorem lastKey_eq {block : List (TsKey × InternalEntry)} (h : block ≠ []) :
    lastKey block = (block.getLast h).1 := by
  rw [lastKey, List.getLast?_eq_getLast_of_ne_nil h]
  rfl

theorem le_lastKey {block : List (TsKey × InternalEntry)} (hasc : Ascending Prod.fst block)
    {e : TsKey × InternalEntry} (he : e ∈ block) : e.1 ≤ lastKey block := by
  have hne := List.ne_nil_of_mem he
  rw [lastKey_eq hne]
  rw [← List.dropLast_append_getLast hne, ascending_append] at hasc
  rw [← List.dropLast_append_getLast hne] at he
  rcases List.mem_append.mp he with he | he
  · exact (hasc.2.2 e he _ (List.mem_singleton_self _)).le
  · rw [List.mem_singleton.mp he]

theorem lookup_eq_none_of_ne {entries : List (TsKey × InternalEntry)} {key : TsKey}
    (h : ∀ e ∈ entries, e.1 ≠ key) : entries.lookup key = none := by
  rw [List.lookup_eq_none_iff]
  intro e he
  simpa using (h e he).symm

/-- The block that `std::lower_bound` names holds the key if any does. -/
theorem lookup_indexes {file : Bytes} {index : List IndexEntry}
    {blocks : List (List (TsKey × InternalEntry))} (h : Indexes file index blocks)
    (hne : ∀ b ∈ blocks, b ≠ []) (hasc : Ascending Prod.fst blocks.flatten)
    (hfits : ∀ e ∈ blocks.flatten, FitsEntry e) (key : TsKey) :
    (match index.find? fun e => tsKeyComparator e.last_key key != .lt with
      | none => none
      | some e => getFromBlock (readBlock file e.offset e.size) key) =
      blocks.flatten.lookup key := by
  induction h with
  | nil => rfl
  | @cons e block index blocks hhead htail ih =>
    rw [List.flatten_cons] at hasc hfits ⊢
    obtain ⟨hblock, hrest, hlt⟩ := ascending_append.mp hasc
    have hlast : lastKey block ∈ block.map Prod.fst := by
      rw [lastKey_eq (hne block List.mem_cons_self)]
      exact List.mem_map_of_mem (List.getLast_mem _)
    obtain ⟨last, hmem, hkey⟩ := List.mem_map.mp hlast
    rw [List.lookup_append, List.find?_cons]
    by_cases hlow : lastKey block < key
    · -- the whole block is before the key
      have hcmp : tsKeyComparator e.last_key key = .lt := by
        rw [hhead.1]
        exact tsKeyComparator_lt_iff.mpr hlow
      have hnone : block.lookup key = none :=
        lookup_eq_none_of_ne fun e' he' => ((le_lastKey hblock he').trans_lt hlow).ne
      rw [hcmp, hnone, Option.none_or]
      exact ih (fun b hb => hne b (List.mem_cons_of_mem block hb)) hrest
        fun e' he' => hfits e' (List.mem_append_right block he')
    · have hcmp : (tsKeyComparator e.last_key key != .lt) = true := by
        rw [hhead.1, bne_iff_ne]
        exact fun hc => hlow (tsKeyComparator_lt_iff.mp hc)
      have hnone : blocks.flatten.lookup key = none :=
        lookup_eq_none_of_lt fun e' he' =>
          (not_lt.mp hlow).trans_lt (hkey ▸ hlt last hmem e' he')
      rw [hcmp, hnone, Option.or_none]
      dsimp only
      rw [hhead.2]
      exact getFromBlock_encode hblock fun e' he' => hfits e' (List.mem_append_left _ he')

/-- The blocks that a scan visits hold all that lies between the keys. -/
theorem scan_indexes {file : Bytes} {index : List IndexEntry}
    {blocks : List (List (TsKey × InternalEntry))} (h : Indexes file index blocks)
    (hasc : Ascending Prod.fst blocks.flatten) (hfits : ∀ e ∈ blocks.flatten, FitsEntry e)
    (first last : TsKey) :
    scanIndexLoop file first last index = recordsBetween blocks.flatten first last := by
  induction h with
  | nil => rfl
  | @cons e block index blocks hhead htail ih =>
    rw [List.flatten_cons] at hasc hfits ⊢
    obtain ⟨hblock, hrest, hlt⟩ := ascending_append.mp hasc
    have hrec := ih hrest fun e' he' => hfits e' (List.mem_append_right block he')
    obtain ⟨hrecords, hstop⟩ := scanBlockLoop_encode first last block hblock
      (fun e' he' => hfits e' (List.mem_append_left _ he')) (List.drop_zero ..)
      (length_le_encodeBlock block)
    rw [recordsBetween_append, scanIndexLoop, hhead.1]
    split_ifs with hlow
    · have hnone : recordsBetween block first last = [] := recordsBetween_eq_nil fun e' he' hr =>
        not_lt.mpr hr.1 ((le_lastKey hblock he').trans_lt (tsKeyComparator_lt_iff.mp hlow))
      rw [hnone]
      exact hrec
    · dsimp only
      rw [hhead.2]
      cases hs : (scanBlockLoop (encodeBlock block) first last (encodeBlock block).length 0).2 with
      | true =>
        -- a key behind `last` was met, so nothing of the later blocks is wanted
        obtain ⟨e', he', hbehind⟩ := hstop hs
        have hnone : recordsBetween blocks.flatten first last = [] :=
          recordsBetween_eq_nil fun e'' he'' hr =>
            not_lt.mpr hr.2 (hbehind.trans (hlt e' he' e'' he''))
        rw [if_pos rfl, hrecords, hnone, List.append_nil]
      | false => rw [if_neg (by simp), hrecords, hrec]

theorem firstKey_encode {e : TsKey × InternalEntry} {block : List (TsKey × InternalEntry)}
    (he : FitsEntry e) : firstKey (encodeBlock (e :: block)) = e.1 := by
  have hmod : (encodeKey e.1).length % 2 ^ 32 = (encodeKey e.1).length :=
    Nat.mod_eq_of_lt (by have := he.1; omega)
  obtain ⟨rest, h0⟩ : ∃ rest, (encodeBlock (e :: block)).drop 0 =
      encodeVarint (encodeKey e.1).length ++ (encodeKey e.1 ++ rest) := by
    rw [List.drop_zero, encodeBlock, List.map_cons, List.flatten_cons, encodeEntry, hmod,
      List.append_assoc, List.append_assoc]
    exact ⟨_, rfl⟩
  have h1 := drop_add_of_drop h0
  have hlen := encodeKey_length e.1
  have hend := pos_add_le_of_drop h0 (by
    intro hnil
    have := congrArg List.length hnil
    simp only [List.length_append, List.length_nil] at this
    omega)
  simp only [List.length_append] at hend
  rw [firstKey, decodeVarint_encode h0 (by have := he.1; omega)]
  dsimp only
  rw [if_pos ⟨decodeVarint_ne_bad he.1, by omega⟩, slice_of_drop h1, decodeKeyFields_encode he.1]

theorem lastKey_append {xs ys : List (TsKey × InternalEntry)} (h : ys ≠ []) :
    lastKey (xs ++ ys) = lastKey ys := by
  rw [lastKey_eq (List.append_ne_nil_of_right_ne_nil xs h), lastKey_eq h, List.getLast_append_of_ne_nil _ h]

theorem lastKey_flatten {blocks : List (List (TsKey × InternalEntry))} (hne : ∀ b ∈ blocks, b ≠ [])
    (h : blocks ≠ []) : lastKey blocks.flatten = lastKey (blocks.getLast h) := by
  have hlast := hne _ (List.getLast_mem h)
  conv_lhs => rw [← List.dropLast_append_getLast h]
  rw [List.flatten_append, lastKey_append (by simpa using hlast), List.flatten_singleton]

theorem Indexes.last_keys {file : Bytes} {index : List IndexEntry}
    {blocks : List (List (TsKey × InternalEntry))} (h : Indexes file index blocks) :
    index.map IndexEntry.last_key = blocks.map lastKey := by
  induction h with
  | nil => rfl
  | cons hhead htail ih => rw [List.map_cons, List.map_cons, ih, hhead.1]

def readerOf (file : Bytes) (index : List IndexEntry) (bloom : BloomFilter) : SSTableReader :=
  { file := file
    index := index
    bloom := bloom
    min_key := match index.head? with
      | some e => firstKey (readBlock file e.offset e.size)
      | none => .default
    max_key := match index.getLast? with
      | some e => e.last_key
      | none => .default }

theorem min_key_readerOf {file : Bytes} {index : List IndexEntry}
    {blocks : List (List (TsKey × InternalEntry))} (h : Indexes file index blocks)
    (hne : ∀ b ∈ blocks, b ≠ []) (hfits : ∀ e ∈ blocks.flatten, FitsEntry e) (bloom : BloomFilter)
    {e : TsKey × InternalEntry} (he : blocks.flatten.head? = some e) :
    (readerOf file index bloom).min_key = e.1 := by
  cases h with
  | nil => contradiction
  | @cons entry block index blocks hhead htail =>
    cases block with
    | nil => exact absurd rfl (hne [] List.mem_cons_self)
    | cons e' block =>
      obtain rfl : e' = e := by simpa using he
      change firstKey (readBlock file entry.offset entry.size) = e'.1
      rw [hhead.2]
      exact firstKey_encode (hfits e' List.mem_cons_self)

theorem max_key_readerOf {file : Bytes} {index : List IndexEntry}
    {blocks : List (List (TsKey × InternalEntry))} (h : Indexes file index blocks)
    (hne : ∀ b ∈ blocks, b ≠ []) (bloom : BloomFilter) {e : TsKey × InternalEntry}
    (he : blocks.flatten.getLast? = some e) : (readerOf file index bloom).max_key = e.1 := by
  have hblocks : blocks ≠ [] := by
    intro hnil
    rw [hnil] at he
    contradiction
  have hlast : lastKey blocks.flatten = e.1 := by
    rw [lastKey, he]
    rfl
  have hmap := congrArg List.getLast? h.last_keys
  rw [List.getLast?_map, List.getLast?_map, List.getLast?_eq_getLast_of_ne_nil hblocks,
    Option.map_some, ← lastKey_flatten hne hblocks, hlast] at hmap
  obtain ⟨entry, hentry, hkey⟩ := Option.map_eq_some_iff.mp hmap
  unfold readerOf
  dsimp only
  rw [hentry]
  exact hkey

theorem encodeVarint_length_le (n : ℕ) {v : ℕ} (h : v < 128 ^ (n + 1)) :
    (encodeVarint v).length ≤ n + 1 := by
  induction n generalizing v with
  | zero => rw [encodeVarint, if_neg (by omega)]; rfl
  | succ n ih =>
    rw [encodeVarint]
    split_ifs
    · have hdiv : v / 128 < 128 ^ (n + 1) := by
        rw [Nat.div_lt_iff_lt_mul (by norm_num), ← pow_succ]
        exact h
      rw [List.length_cons]
      have := ih hdiv
      omega
    · simp

theorem encodeVarint_length_le_five (v : ℕ) : (encodeVarint (v % 2 ^ 32)).length ≤ 5 :=
  encodeVarint_length_le 4 (lt_of_lt_of_le (Nat.mod_lt _ (by norm_num)) (by norm_num))

theorem blocksText_length_le (blocks : List (List (TsKey × InternalEntry)))
    (hsizes : ∀ b ∈ blocks, (encodeBlock b).length < 2 ^ 31) :
    (blocksText blocks).length ≤ blocks.length * 2 ^ 32 := by
  induction blocks with
  | nil => simp [blocksText]
  | cons b blocks ih =>
    have hb := hsizes b List.mem_cons_self
    have hrest := ih fun b' hb' => hsizes b' (List.mem_cons_of_mem b hb')
    have hrecord := blockRecord_length b
    have htext : blocksText (b :: blocks) = blockRecord b ++ blocksText blocks := rfl
    rw [htext, List.length_append, List.length_cons, Nat.succ_mul]
    omega

theorem indexText_length_le {index : List (TsKey × ℕ × ℕ)} (hfits : ∀ e ∈ index, FitsIndex e) :
    (indexText index).length ≤ 5 + index.length * 2 ^ 32 := by
  have hflat : ((index.map fun e => encodeIndexEntry e.1 e.2.1 e.2.2).flatten).length ≤
      index.length * 2 ^ 32 := by
    induction index with
    | nil => simp
    | cons e index ih =>
      have hrest := ih fun e' he' => hfits e' (List.mem_cons_of_mem e he')
      have hkey := (hfits e List.mem_cons_self).1
      have h5 := encodeVarint_length_le_five (encodeKey e.1).length
      have h8 : ∀ v, (encodeFixed64 v).length = 8 := fun _ => leBytes_length ..
      have hone : (encodeIndexEntry e.1 e.2.1 e.2.2).length ≤ 2 ^ 32 := by
        simp only [encodeIndexEntry, List.length_append, h8]
        omega
      rw [List.map_cons, List.flatten_cons, List.length_append, List.length_cons, Nat.succ_mul]
      omega
  have h5 := encodeVarint_length_le_five index.length
  rw [indexText, List.length_append]
  omega

theorem length_le_flatten {blocks : List (List (TsKey × InternalEntry))}
    (hne : ∀ b ∈ blocks, b ≠ []) : blocks.length ≤ blocks.flatten.length := by
  induction blocks with
  | nil => exact le_rfl
  | cons b blocks ih =>
    have hb := List.length_pos_of_ne_nil (hne b List.mem_cons_self)
    have hrest := ih fun b' hb' => hne b' (List.mem_cons_of_mem b hb')
    rw [List.flatten_cons, List.length_append, List.length_cons]
    omega

theorem length_indexOf (blocks : List (List (TsKey × InternalEntry))) (offset : ℕ) :
    (indexOf offset blocks).length = blocks.length := by
  induction blocks generalizing offset with
  | nil => rfl
  | cons b blocks ih => rw [indexOf, List.length_cons, ih, List.length_cons]

theorem fitsIndex_indexOf {blocks : List (List (TsKey × InternalEntry))}
    (hne : ∀ b ∈ blocks, b ≠ []) (hfits : ∀ e ∈ blocks.flatten, FitsEntry e) (offset : ℕ) :
    ∀ e ∈ indexOf offset blocks, FitsIndex e := by
  induction blocks generalizing offset with
  | nil => intro e he; contradiction
  | cons b blocks ih =>
    intro e he
    have hb := hne b List.mem_cons_self
    rcases List.mem_cons.mp he with rfl | he
    · refine ⟨?_, Nat.mod_lt _ (by norm_num), Nat.mod_lt _ (by norm_num)⟩
      rw [lastKey_eq hb]
      exact (hfits _ (List.mem_append_left _ (List.getLast_mem hb))).1
    · exact ih (fun b' hb' => hne b' (List.mem_cons_of_mem b hb'))
        (fun e' he' => hfits e' (List.mem_append_right b he')) _ e he

theorem open_fileText {blocks : List (List (TsKey × InternalEntry))} {bloom : BloomFilter}
    (hne : ∀ b ∈ blocks, b ≠ []) (hfits : ∀ e ∈ blocks.flatten, FitsEntry e)
    (hsizes : ∀ b ∈ blocks, (encodeBlock b).length < 2 ^ 31)
    (hcount : blocks.flatten.length ≤ kMaxBloomKeys) (hbits : bloom.bits.length < 2 ^ 32 - 12)
    (hprobes : 0 ≤ bloom.num_probes ∧ bloom.num_probes < 2 ^ 31) :
    ∃ bloom', SSTableReader.open (fileText blocks bloom) =
        some (.ok (readerOf (fileText blocks bloom) ((indexOf 0 blocks).map toIndexEntry) bloom')) ∧
      Indexes (fileText blocks bloom) ((indexOf 0 blocks).map toIndexEntry) blocks ∧
      bloom'.bits = bloom.bits ∧ bloom'.num_probes = bloom.num_probes := by
  unfold kMaxBloomKeys at hcount
  have hblocks := blocksText_length_le blocks hsizes
  have hindexFits := fitsIndex_indexOf hne hfits 0
  have hindex := indexText_length_le hindexFits
  have hindexLen := length_indexOf blocks 0
  have hfew := length_le_flatten hne
  rw [hindexLen] at hindex
  -- where each part of the file stands
  obtain ⟨index_offset, hindexOffset⟩ : ∃ n, n = (blocksText blocks).length := ⟨_, rfl⟩
  obtain ⟨bloom_offset, hbloomOffset⟩ :
      ∃ n, n = index_offset + (indexText (indexOf 0 blocks)).length := ⟨_, rfl⟩
  obtain ⟨file, hfile⟩ : ∃ f, f = fileText blocks bloom := ⟨_, rfl⟩
  have hat0 : file.drop 0 = blocksText blocks ++ (indexText (indexOf 0 blocks) ++ (bloom.encode ++
      footerText index_offset bloom_offset)) := by
    rw [List.drop_zero, hfile, fileText, hbloomOffset, hindexOffset]
  have h8 : ∀ v, (encodeFixed64 v).length = 8 := fun _ => leBytes_length ..
  have hlen : file.length = bloom_offset + bloom.encode.length + 24 := by
    rw [hfile, fileText, hbloomOffset, hindexOffset]
    simp only [footerText, List.length_append, h8]
    omega
  have hat1 := drop_add_of_drop hat0
  rw [Nat.zero_add, ← hindexOffset] at hat1
  have hat2 := drop_add_of_drop hat1
  rw [← hbloomOffset] at hat2
  have hat3 := drop_add_of_drop hat2
  rw [show bloom_offset + bloom.encode.length = file.length - 24 by omega] at hat3
  have hat4 := drop_add_of_drop hat3
  rw [h8] at hat4
  have hat5 := drop_add_of_drop hat4
  rw [h8, Nat.add_assoc, ← List.append_nil (encodeFixed64 kSSTableMagic)] at hat5
  have hread1 := decodeFixed64_of_drop hat3 (by omega)
  have hread2 := decodeFixed64_of_drop hat4 (by omega)
  have hread3 := decodeFixed64_of_drop hat5 (by decide)
  have hbloom : slice file bloom_offset (file.length - 24 - bloom_offset) = bloom.encode := by
    rw [show file.length - 24 - bloom_offset = bloom.encode.length by omega]
    exact slice_of_drop hat2
  have hindexData : slice file index_offset (bloom_offset - index_offset) =
      indexText (indexOf 0 blocks) := by
    rw [show bloom_offset - index_offset = (indexText (indexOf 0 blocks)).length by omega]
    exact slice_of_drop hat1
  have hindexes : Indexes file ((indexOf 0 blocks).map toIndexEntry) blocks :=
    indexes_indexOf blocks hat0 hsizes (by omega)
  have hdecode := BloomFilter.decode_encode hbits hprobes
  have hparse := parseIndex_encode (by rw [hindexLen]; omega) hindexFits
  rw [← hfile]
  refine ⟨bloom.decoded, ?_, hindexes, rfl, rfl⟩
  rw [SSTableReader.open, if_neg (by omega)]
  dsimp only
  rw [hread1, hread2, show file.length - 24 + 16 = file.length - 24 + (8 + 8) from rfl, hread3,
    if_neg (by
      refine not_or.mpr ⟨fun h => h rfl, not_or.mpr ⟨?_, ?_⟩⟩
      · omega
      · omega), hbloom, hdecode]
  dsimp only
  rw [hindexData, hparse]
  rfl

/-- A reader that answers as the list of entries does. -/
structure ReadsBack (r : SSTableReader) (entries : List (TsKey × InternalEntry)) : Prop where
  found : ∀ e ∈ entries, r.getEntry e.1 = some (some e.2)
  absent : ∀ key, (∀ e ∈ entries, e.1 ≠ key) → r.getEntry key = some none
  scan : ∀ first last, r.rangeScanEntries first last = recordsBetween entries first last
  min_key : ∀ e, entries.head? = some e → r.min_key = e.1
  max_key : ∀ e, entries.getLast? = some e → r.max_key = e.1

/-- Building succeeds, opening succeeds, and the reader answers as the list does. -/
def RoundTrips (block_size : ℤ) (entries : List (TsKey × InternalEntry)) : Prop :=
  ∃ file r, buildSSTable block_size entries = some file ∧
    SSTableReader.open file = some (.ok r) ∧ ReadsBack r entries

theorem getEntry_readerOf {file : Bytes} {index : List IndexEntry}
    {blocks : List (List (TsKey × InternalEntry))} (h : Indexes file index blocks)
    (hne : ∀ b ∈ blocks, b ≠ []) (hasc : Ascending Prod.fst blocks.flatten)
    (hfits : ∀ e ∈ blocks.flatten, FitsEntry e) {bloom : BloomFilter} {key : TsKey} {b : Bool}
    (hbloom : bloom.mayContain (encodeKey key) = some b)
    (hmem : key ∈ blocks.flatten.map Prod.fst → b = true) :
    (readerOf file index bloom).getEntry key = some (blocks.flatten.lookup key) := by
  have habsent : b = false → blocks.flatten.lookup key = none := by
    intro hb
    apply lookup_eq_none_of_ne
    intro e he hkey
    rw [hmem (hkey ▸ List.mem_map_of_mem he)] at hb
    contradiction
  have hfind := lookup_indexes h hne hasc hfits key
  rw [SSTableReader.getEntry, readerOf]
  dsimp only
  rw [hbloom]
  split_ifs with hempty
  · rw [List.isEmpty_iff.mp hempty] at h
    cases h
    rfl
  · cases b with
    | false => rw [habsent rfl]
    | true =>
      rw [← hfind, SSTableReader.lowerBound]
      dsimp only
      cases index.find? fun e => tsKeyComparator e.last_key key != .lt <;> rfl

theorem mayContain_congr {bloom bloom' : BloomFilter} (hbits : bloom'.bits = bloom.bits)
    (hprobes : bloom'.num_probes = bloom.num_probes) (key : Bytes) :
    bloom'.mayContain key = bloom.mayContain key := by
  rw [BloomFilter.mayContain, BloomFilter.mayContain, hbits, hprobes]

/-- A builder gets through exactly the lists that its bloom filter has room for. -/
theorem buildSSTable_isSome_iff (block_size : ℤ) (entries : List (TsKey × InternalEntry)) :
    (buildSSTable block_size entries).isSome ↔ entries.length ≤ kMaxBloomKeys := by
  have hlen : (entries.map fun e => encodeKey e.1).length = entries.length := List.length_map ..
  rw [← hlen, ← BloomFilter.addAll_new_iff]
  cases hbloom : (entries.map fun e => encodeKey e.1).foldlM BloomFilter.add (BloomFilter.new 10) with
  | none =>
    have hall := addAll_eq_none entries (b := SSTableBuilder.new block_size) hbloom
    rw [buildSSTable, hall]
    rfl
  | some bloom => rw [buildSSTable_eq hbloom]; simp

/-- A file whose keys the bloom filter has room for is opened again, with the index that was
written, and a filter that has all the keys. -/
theorem opens_of_count {block_size : ℤ} {entries : List (TsKey × InternalEntry)}
    (hfits : ∀ e ∈ entries, FitsEntry e)
    (hsizes : ∀ b ∈ cutBlocks block_size [] entries, (encodeBlock b).length < 2 ^ 31)
    (hcount : entries.length ≤ kMaxBloomKeys) :
    ∃ file bloom, buildSSTable block_size entries = some file ∧
      SSTableReader.open file = some (.ok (readerOf file
        ((indexOf 0 (cutBlocks block_size [] entries)).map toIndexEntry) bloom)) ∧
      Indexes file ((indexOf 0 (cutBlocks block_size [] entries)).map toIndexEntry)
        (cutBlocks block_size [] entries) ∧
      ∀ key, ∃ b, bloom.mayContain (encodeKey key) = some b ∧
        (key ∈ entries.map Prod.fst → b = true) := by
  have hflat := cutBlocks_flatten block_size entries []
  rw [List.nil_append] at hflat
  have hne := cutBlocks_ne_nil block_size entries []
  obtain ⟨bloom, hbloom, hsound, hkeys, hprobes⟩ := BloomFilter.addAll_new
    (show (entries.map fun e => encodeKey e.1).length ≤ kMaxBloomKeys by
      rw [List.length_map]; exact hcount)
  obtain ⟨a, -, ha, hlen⟩ := hsound.size
  have hpow : 2 ^ a ≤ 2 ^ 28 := Nat.pow_le_pow_right (by norm_num) ha
  obtain ⟨bloom', hopen, hindexes, hbits, hprobes'⟩ := open_fileText hne
    (by rw [hflat]; exact hfits) hsizes (by rw [hflat]; exact hcount)
    (show bloom.bits.length < 2 ^ 32 - 12 by rw [hlen]; omega) (by rw [hprobes]; decide)
  refine ⟨_, bloom', buildSSTable_eq hbloom, hopen, hindexes, fun key => ?_⟩
  obtain ⟨b, hmay, hb⟩ := BloomFilter.mayContain_sound hsound (encodeKey key)
  refine ⟨b, (mayContain_congr hbits hprobes' _).trans hmay, fun hmem => hb ?_⟩
  obtain ⟨e, he, hkey⟩ := List.mem_map.mp hmem
  rw [hkeys, ← hkey]
  exact List.mem_map_of_mem he

/-- A file whose keys the bloom filter has room for reads back. -/
theorem roundTrips_of_count {block_size : ℤ} {entries : List (TsKey × InternalEntry)}
    (hasc : Ascending Prod.fst entries) (hfits : ∀ e ∈ entries, FitsEntry e)
    (hsizes : ∀ b ∈ cutBlocks block_size [] entries, (encodeBlock b).length < 2 ^ 31)
    (hcount : entries.length ≤ kMaxBloomKeys) : RoundTrips block_size entries := by
  have hflat := cutBlocks_flatten block_size entries []
  rw [List.nil_append] at hflat
  have hne := cutBlocks_ne_nil block_size entries []
  obtain ⟨file, bloom, hbuild, hopen, hindexes, hmay⟩ := opens_of_count hfits hsizes hcount
  have hget : ∀ key, (readerOf file ((indexOf 0 (cutBlocks block_size [] entries)).map toIndexEntry)
      bloom).getEntry key = some (entries.lookup key) := by
    intro key
    obtain ⟨b, hb, hmem⟩ := hmay key
    have hfound := getEntry_readerOf hindexes hne (by rw [hflat]; exact hasc)
      (by rw [hflat]; exact hfits) hb (by rw [hflat]; exact hmem)
    rwa [hflat] at hfound
  refine ⟨_, _, hbuild, hopen, ?_, ?_, ?_, ?_, ?_⟩
  · intro e he
    rw [hget, hasc.lookup_eq_some he]
  · intro key hkey
    rw [hget, lookup_eq_none_of_ne hkey]
  · intro first last
    have hscan := scan_indexes hindexes (by rw [hflat]; exact hasc) (by rw [hflat]; exact hfits)
      first last
    rw [hflat] at hscan
    exact hscan
  · intro e he
    exact min_key_readerOf hindexes hne (by rw [hflat]; exact hfits) bloom (by rw [hflat]; exact he)
  · intro e he
    exact max_key_readerOf hindexes hne bloom (by rw [hflat]; exact he)

/-- An SSTable reads back what was built exactly when the bloom filter has room for its keys. -/
theorem sstable_round_trip_iff {block_size : ℤ} {entries : List (TsKey × InternalEntry)}
    (hasc : Ascending Prod.fst entries) (hfits : ∀ e ∈ entries, FitsEntry e)
    (hsizes : ∀ b ∈ cutBlocks block_size [] entries, (encodeBlock b).length < 2 ^ 31) :
    RoundTrips block_size entries ↔ entries.length ≤ kMaxBloomKeys := by
  refine ⟨fun h => ?_, fun hcount => roundTrips_of_count hasc hfits hsizes hcount⟩
  obtain ⟨file, r, hbuild, -⟩ := h
  rw [← buildSSTable_isSome_iff block_size, hbuild]
  rfl

theorem sstable_round_trip_iff_two :
    RoundTrips 4096 [(⟨[99], 1⟩, ⟨[7], .kValue⟩), (⟨[99], 2⟩, ⟨[], .kDeletion⟩)] ↔
      [(⟨[99], 1⟩, ⟨[7], .kValue⟩), ((⟨[99], 2⟩ : TsKey), (⟨[], .kDeletion⟩ : InternalEntry))].length ≤
        kMaxBloomKeys :=
  sstable_round_trip_iff (by unfold Ascending; decide +kernel)
    (by unfold FitsEntry; decide +kernel) (by decide +kernel)

def nthEntry (i : ℕ) : TsKey × InternalEntry := (⟨[], Int64.ofNat i⟩, ⟨[], .kValue⟩)

def manyEntries : List (TsKey × InternalEntry) := (List.range (kMaxBloomKeys + 1)).map nthEntry

theorem nthEntry_lt {i j : ℕ} (h : i < j) (hj : j < 2 ^ 63) : (nthEntry i).1 < (nthEntry j).1 := by
  rw [TsKey.lt_iff]
  refine Or.inr ⟨rfl, ?_⟩
  rw [Int64.lt_iff_toInt_lt]
  change (Int64.ofNat i).toInt < (Int64.ofNat j).toInt
  rw [Int64.toInt_ofNat_of_lt (by omega), Int64.toInt_ofNat_of_lt hj]
  omega

theorem encodeEntry_nthEntry (i : ℕ) : (encodeEntry (nthEntry i).1 (nthEntry i).2).length = 12 := by
  have h8 : ∀ v, (encodeFixed64 v).length = 8 := fun _ => leBytes_length ..
  have h0 : encodeVarint 0 = [0] := by rw [encodeVarint]; rfl
  have h9 : encodeVarint 9 = [9] := by rw [encodeVarint]; rfl
  simp [encodeEntry, encodeKey, nthEntry, h8, h0, h9]

theorem cutBlocks_nthEntry (is : List ℕ) :
    cutBlocks 1 [] (is.map nthEntry) = is.map fun i => [nthEntry i] := by
  induction is with
  | nil => rfl
  | cons i is ih =>
    have hlen : (encodeBlock ([] ++ [nthEntry i])).length = 12 := by
      simpa [encodeBlock] using encodeEntry_nthEntry i
    rw [List.map_cons, cutBlocks, hlen, if_pos (by decide), ih]
    rfl

/-- The key behind the filter's last one divides by a bit count of zero. -/
theorem too_many_keys :
    Ascending Prod.fst manyEntries ∧ (∀ e ∈ manyEntries, FitsEntry e) ∧
      (∀ b ∈ cutBlocks 1 [] manyEntries, (encodeBlock b).length < 2 ^ 31) ∧
      ¬ RoundTrips 1 manyEntries := by
  refine ⟨?_, ?_, ?_, ?_⟩
  · apply List.pairwise_map.mpr
    apply List.pairwise_lt_range.imp_of_mem
    intro i j hi hj hij
    have hlt := List.mem_range.mp hj
    unfold kMaxBloomKeys at hlt
    exact nthEntry_lt hij (by omega)
  · intro e he
    obtain ⟨i, -, rfl⟩ := List.mem_map.mp he
    have h8 : ∀ v, (encodeFixed64 v).length = 8 := fun _ => leBytes_length ..
    have h0 : encodeVarint 0 = [0] := by rw [encodeVarint]; rfl
    exact ⟨by simp [encodeKey, nthEntry, h8, h0], by simp [nthEntry]⟩
  · intro b hb
    rw [manyEntries, cutBlocks_nthEntry] at hb
    obtain ⟨i, -, rfl⟩ := List.mem_map.mp hb
    have hlen : (encodeBlock [nthEntry i]).length = 12 := by
      simpa [encodeBlock] using encodeEntry_nthEntry i
    rw [hlen]
    norm_num
  · intro h
    obtain ⟨file, r, hbuild, -⟩ := h
    have hsome := (buildSSTable_isSome_iff 1 manyEntries).mp (by rw [hbuild]; rfl)
    rw [manyEntries, List.length_map, List.length_range] at hsome
    omega

end MiniTsdb
