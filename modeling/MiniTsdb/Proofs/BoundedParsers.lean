import MiniTsdb.Spec.BoundedParsers

/-! On every content the parsers stay inside their buffers and their loops end: with each
access checked they return what they return without the checks. -/

namespace MiniTsdb
open Lib

/-- What a string or a file can hold, where sizes and offsets have 64 bits. -/
def InSize (s : Bytes) : Prop := s.length < 2 ^ 63

theorem varintLoopAt_eq {s : Bytes} (hs : InSize s) {turns pos shift result : ℕ}
    (hturns : shift + 7 * (turns + 1) = 35) :
    varintLoopAt s (turns + 1) pos shift result =
      .ok (decodeVarintLoop s (turns + 1) pos shift result) := by
  unfold InSize at hs
  induction turns generalizing pos shift result with
  | zero =>
    rw [varintLoopAt, decodeVarintLoop]
    cases hbyte : s[pos]? with
    | none => rw [if_pos (List.getElem?_eq_none_iff.mp hbyte)]
    | some byte =>
      have hpos : pos < s.length := (List.getElem?_eq_some_iff.mp hbyte).1
      rw [if_neg (by omega), byteAt_of_getElem? hbyte]
      dsimp only
      rw [sizeAdd_eq (by omega), if_pos (show shift + 7 ≥ 35 by omega)]
      split_ifs <;> rfl
  | succ turns ih =>
    rw [varintLoopAt, decodeVarintLoop]
    cases hbyte : s[pos]? with
    | none => rw [if_pos (List.getElem?_eq_none_iff.mp hbyte)]
    | some byte =>
      have hpos : pos < s.length := (List.getElem?_eq_some_iff.mp hbyte).1
      rw [if_neg (by omega), byteAt_of_getElem? hbyte]
      dsimp only
      rw [sizeAdd_eq (by omega), if_neg (show ¬ shift + 7 ≥ 35 by omega)]
      split_ifs
      · rfl
      · exact ih (by omega)

theorem varintAt_eq {s : Bytes} (hs : InSize s) (pos : ℕ) :
    varintAt s pos = .ok (decodeVarint s pos) := varintLoopAt_eq hs rfl

/-- Where a varint ends: not before its start, inside the buffer if it starts there, and
behind its start if it has a value. -/
structure VarintEnds (s : Bytes) (pos : ℕ) (found : ℕ × ℕ) : Prop where
  value : found.1 < 2 ^ 32
  le : pos ≤ found.2
  inside : pos ≤ s.length → found.2 ≤ s.length
  progress : found.1 ≠ kBadVarint → pos < found.2

theorem decodeVarintLoop_ends (s : Bytes) (turns pos shift result : ℕ) :
    VarintEnds s pos (decodeVarintLoop s turns pos shift result) := by
  have hbad : kBadVarint < 2 ^ 32 := by decide
  induction turns generalizing pos shift result with
  | zero => exact ⟨hbad, le_rfl, id, fun h => absurd rfl h⟩
  | succ turns ih =>
    rw [decodeVarintLoop]
    cases hbyte : s[pos]? with
    | none => exact ⟨hbad, le_rfl, id, fun h => absurd rfl h⟩
    | some byte =>
      have hpos : pos < s.length := (List.getElem?_eq_some_iff.mp hbyte).1
      dsimp only
      split_ifs
      · refine ⟨Nat.mod_lt _ (by norm_num), by simp, ?_, ?_⟩
        · intro _
          exact hpos
        · intro _
          exact Nat.lt_succ_self pos
      · obtain ⟨hvalue, hle, hinside, -⟩ := ih (pos + 1) (shift + 7)
          ((result + byte.val % 128 * 2 ^ shift) % 2 ^ 32)
        refine ⟨hvalue, by omega, ?_, ?_⟩
        · intro _
          exact hinside hpos
        · intro _
          omega

theorem decodeVarint_ends (s : Bytes) (pos : ℕ) : VarintEnds s pos (decodeVarint s pos) :=
  decodeVarintLoop_ends s 5 pos 0 0

theorem fixed64At_eq {s : Bytes} {pos : ℕ} (h : pos + 8 ≤ s.length) :
    fixed64At s pos = .ok (decodeFixed64 s pos) := fixedAt_of_le h

theorem fixed32At_eq {s : Bytes} {pos : ℕ} (h : pos + 4 ≤ s.length) :
    fixed32At s pos = .ok (decodeFixed32 s pos) := fixedAt_of_le h

theorem decodeKeyFieldsAt_eq {input : Bytes} (hs : InSize input) :
    decodeKeyFieldsAt input = .ok (decodeKeyFields input) := by
  have hends := decodeVarint_ends input 0
  unfold InSize at hs
  rw [decodeKeyFieldsAt, varintAt_eq hs, decodeKeyFields]
  generalize decodeVarint input 0 = found at hends ⊢
  obtain ⟨m_len, pos⟩ := found
  obtain ⟨hvalue, -, hinside, -⟩ := hends
  dsimp only at hvalue hinside ⊢
  have hpos := hinside (Nat.zero_le _)
  rw [sizeAdd_eq (a := pos) (by omega), sizeAdd_eq (by omega)]
  by_cases hbad : m_len = kBadVarint ∨ pos + m_len + 8 > input.length
  · rw [if_pos hbad, if_pos hbad]
  · rw [if_neg hbad, if_neg hbad, bytesAt_of_le (by omega)]
    dsimp only
    rw [fixed64At_eq (by omega)]

theorem decodeKeyAt_eq {input : Bytes} (hs : InSize input) :
    decodeKeyAt input = .ok (decodeKey input) := by
  rw [decodeKeyAt, decodeKeyFieldsAt_eq hs, decodeKey]
  cases decodeKeyFields input <;> rfl

theorem inSize_slice {s : Bytes} (hs : InSize s) (pos n : ℕ) : InSize (slice s pos n) := by
  unfold InSize at hs ⊢
  simp only [slice, List.length_take, List.length_drop]
  omega

theorem parseEntryAt_eq {block_data : Bytes} (hs : InSize block_data) {pos : ℕ}
    (hpos : pos ≤ block_data.length) :
    parseEntryAt block_data pos = .ok (parseEntry block_data pos) := by
  have hsize := hs
  unfold InSize at hsize
  have hends := decodeVarint_ends block_data pos
  rw [parseEntryAt, varintAt_eq hs, parseEntry]
  generalize decodeVarint block_data pos = found at hends ⊢
  obtain ⟨key_len, start⟩ := found
  obtain ⟨hvalue, -, hinside, -⟩ := hends
  dsimp only at hvalue hinside ⊢
  have hstart := hinside hpos
  rw [sizeAdd_eq (by omega)]
  by_cases hbad : key_len = kBadVarint ∨ start + key_len > block_data.length
  · rw [if_pos hbad, if_pos hbad]
  · rw [if_neg hbad, if_neg hbad, bytesAt_of_le (by omega)]
    dsimp only
    rw [decodeKeyAt_eq (inSize_slice hs _ _)]
    cases decodeKey (slice block_data start key_len) with
    | none => rfl
    | some key =>
      dsimp only
      cases hbyte : block_data[start + key_len]? with
      | none => rw [if_pos (List.getElem?_eq_none_iff.mp hbyte)]
      | some b =>
        have htype : start + key_len < block_data.length :=
          (List.getElem?_eq_some_iff.mp hbyte).1
        rw [if_neg (by omega), byteAt_of_getElem? hbyte]
        dsimp only
        cases entryTypeOf b with
        | none => rfl
        | some type =>
          dsimp only
          have hends' := decodeVarint_ends block_data (start + key_len + 1)
          rw [sizeAdd_eq (by omega), varintAt_eq hs]
          generalize decodeVarint block_data (start + key_len + 1) = found' at hends' ⊢
          obtain ⟨value_len, value_start⟩ := found'
          obtain ⟨hvalue', -, hinside', -⟩ := hends'
          dsimp only at hvalue' hinside' ⊢
          have hvalue_start := hinside' htype
          rw [sizeAdd_eq (by omega)]
          by_cases hbad' : value_len = kBadVarint ∨ value_start + value_len > block_data.length
          · rw [if_pos hbad', if_pos hbad']
          · rw [if_neg hbad', if_neg hbad', bytesAt_of_le (by omega)]

theorem parseEntry_ends {block_data : Bytes} {pos pos' : ℕ} {key : TsKey} {entry : InternalEntry}
    (h : parseEntry block_data pos = some (key, entry, pos')) :
    pos < pos' ∧ pos' ≤ block_data.length := by
  rw [parseEntry] at h
  have hends := decodeVarint_ends block_data pos
  generalize decodeVarint block_data pos = found at hends h
  obtain ⟨key_len, start⟩ := found
  obtain ⟨-, -, -, hprogress⟩ := hends
  dsimp only at hprogress h
  by_cases hbad : key_len = kBadVarint ∨ start + key_len > block_data.length
  · rw [if_pos hbad] at h
    contradiction
  rw [if_neg hbad] at h
  have hstart := hprogress fun heq => hbad (Or.inl heq)
  cases hkey : decodeKey (slice block_data start key_len) with
  | none => simp [hkey] at h
  | some key' =>
    rw [hkey] at h
    dsimp only at h
    cases hbyte : block_data[start + key_len]? with
    | none => simp [hbyte] at h
    | some b =>
      rw [hbyte] at h
      dsimp only at h
      cases htype : entryTypeOf b with
      | none => simp [htype] at h
      | some type =>
        rw [htype] at h
        dsimp only at h
        have hends' := decodeVarint_ends block_data (start + key_len + 1)
        generalize decodeVarint block_data (start + key_len + 1) = found' at hends' h
        obtain ⟨value_len, value_start⟩ := found'
        obtain ⟨-, hle', -, -⟩ := hends'
        dsimp only at hle' h
        split_ifs at h with hbad'
        simp only [Option.some.injEq, Prod.mk.injEq] at h
        omega

theorem readBlockAt_eq (file : Bytes) (offset size : ℕ) :
    readBlockAt file offset size = .ok (readBlock file offset size) := by
  rw [readBlockAt, readBlock]
  by_cases hbad : size < 4 ∨ file.length < offset + size
  · rw [if_pos hbad, if_pos hbad]
  · have hraw : (slice file offset size).length = size := slice_length (by omega)
    have hblock : slice (slice file offset size) 4 ((slice file offset size).length - 4) =
        (slice file offset size).drop 4 := by
      rw [slice, List.take_of_length_le (by simp)]
    rw [if_neg hbad, if_neg hbad]
    dsimp only
    rw [fixed32At_eq (by omega)]
    dsimp only
    rw [bytesAt_of_le (by omega), hblock]

theorem readBlock_length_le (file : Bytes) (offset size : ℕ) :
    (readBlock file offset size).length ≤ file.length := by
  rw [readBlock]
  split_ifs
  · simp
  · dsimp only
    split_ifs
    · simp only [slice, List.length_drop, List.length_take]
      omega
    · simp

theorem getFromBlockAt_eq {block_data : Bytes} (hs : InSize block_data) (key : TsKey)
    {turns turns' pos : ℕ} (hpos : pos ≤ block_data.length)
    (hturns : block_data.length < pos + turns) (hturns' : block_data.length ≤ pos + turns') :
    getFromBlockAt block_data key turns pos = .ok (getFromBlockLoop block_data key turns' pos) := by
  induction turns generalizing turns' pos with
  | zero => omega
  | succ turns ih =>
    rw [getFromBlockAt]
    by_cases hmore : pos < block_data.length
    · obtain _ | turns' := turns'
      · omega
      rw [getFromBlockLoop, if_pos hmore, if_pos hmore, parseEntryAt_eq hs hpos]
      cases hentry : parseEntry block_data pos with
      | none => rfl
      | some found =>
        obtain ⟨current, entry, next⟩ := found
        have hends := parseEntry_ends hentry
        dsimp only
        cases tsKeyComparator current key with
        | lt => exact ih hends.2 (by omega) (by omega)
        | eq => rfl
        | gt => rfl
    · rw [if_neg hmore]
      cases turns' with
      | zero => rfl
      | succ turns' => rw [getFromBlockLoop, if_neg hmore]

theorem scanBlockAt_eq {block_data : Bytes} (hs : InSize block_data) (first last : TsKey)
    {turns turns' pos : ℕ} (hpos : pos ≤ block_data.length)
    (hturns : block_data.length < pos + turns) (hturns' : block_data.length ≤ pos + turns') :
    scanBlockAt block_data first last turns pos =
      .ok (scanBlockLoop block_data first last turns' pos) := by
  induction turns generalizing turns' pos with
  | zero => omega
  | succ turns ih =>
    rw [scanBlockAt]
    by_cases hmore : pos < block_data.length
    · obtain _ | turns' := turns'
      · omega
      rw [scanBlockLoop, if_pos hmore, if_pos hmore, parseEntryAt_eq hs hpos]
      cases hentry : parseEntry block_data pos with
      | none => rfl
      | some found =>
        obtain ⟨key, entry, next⟩ := found
        have hends := parseEntry_ends hentry
        have hrest : scanBlockAt block_data first last turns next =
            .ok (scanBlockLoop block_data first last turns' next) :=
          ih hends.2 (by omega) (by omega)
        dsimp only
        split_ifs
        · exact hrest
        · rfl
        · rw [hrest]
    · rw [if_neg hmore]
      cases turns' with
      | zero => rfl
      | succ turns' => rw [scanBlockLoop, if_neg hmore]

theorem scanIndexAt_eq {file : Bytes} (hs : InSize file) {turns : ℕ} (hturns : file.length < turns)
    (first last : TsKey) (index : List IndexEntry) :
    scanIndexAt file turns first last index = .ok (scanIndexLoop file first last index) := by
  induction index with
  | nil => rfl
  | cons e index ih =>
    have hlen := readBlock_length_le file e.offset e.size
    have hblock : InSize (readBlock file e.offset e.size) := lt_of_le_of_lt hlen hs
    rw [scanIndexAt, scanIndexLoop, readBlockAt_eq]
    dsimp only
    rw [scanBlockAt_eq hblock first last (Nat.zero_le _) (by omega)
      (show _ ≤ 0 + (readBlock file e.offset e.size).length by omega)]
    dsimp only
    rw [ih]
    split_ifs <;> rfl

theorem parseIndexLoopAt_eq {index_data : Bytes} (hs : InSize index_data) {num_blocks pos : ℕ}
    (hpos : pos ≤ index_data.length) :
    parseIndexLoopAt index_data num_blocks pos = .ok (parseIndexLoop index_data num_blocks pos) := by
  have hsize := hs
  unfold InSize at hsize
  induction num_blocks generalizing pos with
  | zero => rfl
  | succ num_blocks ih =>
    have hends := decodeVarint_ends index_data pos
    rw [parseIndexLoopAt, varintAt_eq hs, parseIndexLoop]
    generalize decodeVarint index_data pos = found at hends ⊢
    obtain ⟨key_len, start⟩ := found
    obtain ⟨hvalue, -, hinside, -⟩ := hends
    dsimp only at hvalue hinside ⊢
    have hstart := hinside hpos
    rw [sizeAdd_eq (a := start) (by omega), sizeAdd_eq (b := 16) (by omega)]
    by_cases hbad : key_len = kBadVarint ∨ start + key_len + 16 > index_data.length
    · rw [if_pos hbad, if_pos hbad]
    · rw [if_neg hbad, if_neg hbad, bytesAt_of_le (by omega)]
      dsimp only
      rw [decodeKeyAt_eq (inSize_slice hs _ _)]
      cases decodeKey (slice index_data start key_len) with
      | none => rfl
      | some last_key =>
        dsimp only
        have hnext : sizeAdd (start + key_len) 8 = start + key_len + 8 := sizeAdd_eq (by omega)
        rw [hnext, sizeAdd_eq (b := 8) (by omega), fixed64At_eq (by omega)]
        dsimp only
        rw [fixed64At_eq (by omega)]
        dsimp only
        rw [ih (by omega)]
        cases parseIndexLoop index_data num_blocks (start + key_len + 16) <;> rfl

theorem parseIndexAt_eq {index_data : Bytes} (hs : InSize index_data) :
    parseIndexAt index_data = .ok (parseIndex index_data) := by
  have hends := decodeVarint_ends index_data 0
  rw [parseIndexAt, varintAt_eq hs, parseIndex]
  exact parseIndexLoopAt_eq hs (hends.inside (Nat.zero_le _))

theorem firstKeyAt_eq {first_block : Bytes} (hs : InSize first_block) :
    firstKeyAt first_block = .ok (firstKey first_block) := by
  have hsize := hs
  unfold InSize at hsize
  have hends := decodeVarint_ends first_block 0
  rw [firstKeyAt, varintAt_eq hs, firstKey]
  generalize decodeVarint first_block 0 = found at hends ⊢
  obtain ⟨key_len, block_pos⟩ := found
  obtain ⟨hvalue, -, hinside, -⟩ := hends
  dsimp only at hvalue hinside ⊢
  have hpos := hinside (Nat.zero_le _)
  rw [sizeAdd_eq (by omega)]
  by_cases hgood : key_len ≠ kBadVarint ∧ block_pos + key_len ≤ first_block.length
  · rw [if_pos hgood, if_pos hgood, bytesAt_of_le hgood.2]
    dsimp only
    rw [decodeKeyFieldsAt_eq (inSize_slice hs _ _)]
    cases decodeKeyFields (slice first_block block_pos key_len) <;> rfl
  · rw [if_neg hgood, if_neg hgood]

theorem minKeyAt_eq {file : Bytes} (hs : InSize file) (index : List IndexEntry) :
    minKeyAt file index = .ok (match index.head? with
      | some e => firstKey (readBlock file e.offset e.size)
      | none => .default) := by
  rw [minKeyAt]
  cases index.head? with
  | none => rfl
  | some e =>
    have hblock : InSize (readBlock file e.offset e.size) :=
      lt_of_le_of_lt (readBlock_length_le file e.offset e.size) hs
    dsimp only
    rw [readBlockAt_eq]
    dsimp only
    rw [firstKeyAt_eq hblock]

theorem readAt_of_le {file : Bytes} {offset n : ℕ} (h : offset + n ≤ file.length) :
    readAt file offset n = some (slice file offset n) := if_neg (by omega)

theorem decodeFixed64_slice {file : Bytes} {offset n pos : ℕ} (h : pos + 8 ≤ n) :
    decodeFixed64 (slice file offset n) pos = decodeFixed64 file (offset + pos) := by
  rw [decodeFixed64, decodeFixed64, slice, slice, slice, List.drop_take, List.drop_drop,
    List.take_take, min_eq_left (by omega)]

theorem openAt_eq {file : Bytes} (hs : InSize file) :
    SSTableReader.openAt file = .ok (SSTableReader.open file) := by
  have hsize := hs
  unfold InSize at hsize
  rw [SSTableReader.openAt, SSTableReader.open, parseFooterAt]
  by_cases hshort : file.length < 24
  · rw [if_pos hshort, if_pos hshort]
  rw [if_neg hshort, if_neg hshort, readAt_of_le (by omega)]
  have hfooter : (slice file (file.length - 24) 24).length = 24 := slice_length (by omega)
  dsimp only
  rw [fixed64At_eq (by omega), fixed64At_eq (by omega), fixed64At_eq (by omega),
    decodeFixed64_slice (by omega), decodeFixed64_slice (by omega), decodeFixed64_slice (by omega),
    Nat.add_zero]
  dsimp only
  generalize decodeFixed64 file (file.length - 24) = index_offset
  generalize decodeFixed64 file (file.length - 24 + 8) = bloom_offset
  by_cases hbad : decodeFixed64 file (file.length - 24 + 16) ≠ kSSTableMagic ∨
      index_offset > bloom_offset ∨ bloom_offset > file.length - 24
  · rw [if_pos hbad, if_pos hbad]
  · have hindex : sizeSub bloom_offset index_offset = bloom_offset - index_offset :=
      sizeSub_eq (by omega)
    have hbloom : sizeSub (file.length - 24) bloom_offset = file.length - 24 - bloom_offset :=
      sizeSub_eq (by omega)
    rw [if_neg hbad, if_neg hbad]
    dsimp only
    rw [hindex, hbloom, readAt_of_le (by omega)]
    dsimp only
    rw [readAt_of_le (by omega)]
    dsimp only
    cases BloomFilter.decode (slice file bloom_offset (file.length - 24 - bloom_offset)) with
    | none => rfl
    | some bloom =>
      dsimp only
      rw [parseIndexAt_eq (inSize_slice hs _ _)]
      cases parseIndex (slice file index_offset (bloom_offset - index_offset)) with
      | error status => rfl
      | ok index =>
        have hmin := minKeyAt_eq hs index
        dsimp only
        generalize minKeyAt file index = min_key at hmin ⊢
        subst hmin
        rfl

theorem byteAt_zero {fragment : Bytes} (h : fragment ≠ []) :
    byteAt fragment 0 = .ok (fragment.headD 0) := by
  obtain ⟨b, rest, rfl⟩ := List.exists_cons_of_ne_nil h
  rfl

theorem decodeLogicalRecordAt_eq {payload : Bytes} (hs : InSize payload) :
    decodeLogicalRecordAt payload = .ok (decodeLogicalRecord payload) := by
  unfold InSize at hs
  have hm := decodeFixed32_lt payload 1
  rw [decodeLogicalRecordAt, decodeLogicalRecord]
  by_cases hshort : payload.length < 1 + 4 + 8
  · rw [if_pos hshort, if_pos hshort]
  · have htype : byteAt payload 0 = .ok (payload.headD 0) := by
      obtain _ | ⟨b, rest⟩ := payload
      · simp at hshort
      · rfl
    rw [if_neg hshort, if_neg hshort, htype, fixed32At_eq (by omega), fixed64At_eq (by omega)]
    dsimp only
    generalize decodeFixed32 payload 1 = m_len at hm ⊢
    rw [sizeAdd_eq (by omega)]
    by_cases hbad : 13 + m_len > payload.length
    · rw [if_pos hbad, if_pos hbad]
    · have hsub : sizeSub payload.length (13 + m_len) = payload.length - (13 + m_len) :=
        sizeSub_eq (by omega)
      have hvalue : slice payload (13 + m_len) (payload.length - (13 + m_len)) =
          payload.drop (13 + m_len) := by
        rw [slice, List.take_of_length_le (by simp)]
      rw [if_neg hbad, if_neg hbad, hsub, bytesAt_of_le (by omega), bytesAt_of_le (by omega), hvalue]
      dsimp only
      split_ifs <;> rfl

theorem readPhysicalRecordAt_eq {data : Bytes} (hs : InSize data) {offset : ℕ}
    (h : offset + kPhysicalHeaderSize ≤ data.length) :
    readPhysicalRecordAt data offset = .ok (readPhysicalRecord data offset) := by
  unfold InSize at hs
  unfold kPhysicalHeaderSize at h
  have hlen := decodeFixed32_lt data (offset + 4)
  rw [readPhysicalRecordAt, readPhysicalRecord, sizeAdd_eq (b := 4) (by omega),
    sizeAdd_eq (b := 8) (by omega), fixed32At_eq (by omega), fixed32At_eq (by omega)]
  dsimp only
  generalize decodeFixed32 data (offset + 4) = fragment_len at hlen ⊢
  rw [sizeAdd_eq (by omega)]
  by_cases hend : offset + 8 + fragment_len > data.length
  · rw [if_pos hend, if_pos hend]
  · rw [if_neg hend, if_neg hend, bytesAt_of_le (by omega)]
    dsimp only
    split_ifs <;> rfl

theorem bytesAt_tail {fragment : Bytes} (h : fragment ≠ []) :
    bytesAt fragment 1 (sizeSub fragment.length 1) = .ok fragment.tail := by
  obtain ⟨b, rest, rfl⟩ := List.exists_cons_of_ne_nil h
  have hsub : sizeSub (b :: rest).length 1 = rest.length := by
    rw [sizeSub_eq (by simp)]
    simp
  rw [hsub, bytesAt_of_le (by simp; omega)]
  simp [slice]

theorem replayFragmentAt_eq {st : ReplayState} {fragment : Bytes} {record_end : ℕ}
    (hs : InSize (st.logical_payload ++ fragment)) (hne : fragment ≠ []) :
    replayFragmentAt st fragment record_end = .ok (replayFragment st fragment record_end) := by
  have hsize := hs
  unfold InSize at hsize
  rw [List.length_append] at hsize
  have htail : fragment.tail.length ≤ fragment.length := by simp
  have hfragment : InSize fragment := by
    unfold InSize
    omega
  have hpayload : InSize fragment.tail := by
    unfold InSize
    omega
  have hlogical : InSize (st.logical_payload ++ fragment.tail) := by
    unfold InSize
    rw [List.length_append]
    omega
  have hlegacy : (if st.assembling then Except.ok none else decodeLogicalRecordAt fragment) =
      .ok (if st.assembling then none else decodeLogicalRecord fragment) := by
    rw [decodeLogicalRecordAt_eq hfragment]
    split_ifs <;> rfl
  rw [replayFragmentAt, replayFragment, byteAt_zero hne, bytesAt_tail hne, hlegacy]
  dsimp only
  rw [decodeLogicalRecordAt_eq hpayload, decodeLogicalRecordAt_eq hlogical]
  by_cases hfull : fragment.headD 0 = kPhysicalFull
  · rw [if_pos hfull, if_pos hfull]
    cases decodeLogicalRecord fragment.tail <;> cases decodeLogicalRecord fragment <;>
      split_ifs <;> rfl
  · rw [if_neg hfull, if_neg hfull]
    cases decodeLogicalRecord (st.logical_payload ++ fragment.tail) <;> split_ifs <;> rfl

theorem readPhysicalRecord_fragment {data fragment : Bytes} {offset record_end : ℕ}
    (h : readPhysicalRecord data offset = some (fragment, record_end)) :
    fragment ≠ [] ∧ record_end = offset + 8 + fragment.length ∧ record_end ≤ data.length := by
  unfold readPhysicalRecord at h
  dsimp only at h
  split_ifs at h with hend hcrc hshort
  simp only [Option.some.injEq, Prod.mk.injEq] at h
  obtain ⟨rfl, rfl⟩ := h
  have hlen : (slice data (offset + 8) (decodeFixed32 data (offset + 4))).length =
      decodeFixed32 data (offset + 4) := slice_length (by omega)
  refine ⟨?_, by rw [hlen], by omega⟩
  intro hnil
  rw [hnil, List.length_nil] at hlen
  omega

theorem replayFragment_payload {st st' : ReplayState} {fragment : Bytes} {record_end : ℕ}
    (h : replayFragment st fragment record_end = some st') :
    st'.logical_payload.length ≤ st.logical_payload.length + fragment.length := by
  unfold replayFragment at h
  dsimp only at h
  have htail : fragment.tail.length ≤ fragment.length := by simp
  split_ifs at h with hfull hasm hput
  · cases hnew : decodeLogicalRecord fragment.tail with
    | some e =>
      rw [hnew] at h
      obtain rfl := Option.some.inj h
      exact Nat.le_add_right _ _
    | none =>
      rw [hnew] at h
      dsimp only at h
      split at h
      · obtain rfl := Option.some.inj h
        exact Nat.le_add_right _ _
      · contradiction
  · exact absurd hfull hput
  · obtain rfl := Option.some.inj h
    exact htail.trans (Nat.le_add_left _ _)
  · obtain rfl := Option.some.inj h
    rw [List.length_append]
    exact Nat.add_le_add_left htail _
  · split at h
    · obtain rfl := Option.some.inj h
      exact Nat.zero_le _
    · contradiction

theorem replayLoopAt_eq {data : Bytes} (hs : InSize data) {turns : ℕ} {st : ReplayState}
    (hoffset : st.offset ≤ data.length) (hpayload : st.logical_payload.length ≤ st.offset)
    (hturns : data.length < st.offset + turns) :
    replayLoopAt data turns st = .ok (replayLoop data st) := by
  have hsize := hs
  unfold InSize at hsize
  induction turns generalizing st with
  | zero => omega
  | succ turns ih =>
    have hheader : sizeAdd st.offset kPhysicalHeaderSize = st.offset + kPhysicalHeaderSize := by
      apply sizeAdd_eq
      unfold kPhysicalHeaderSize
      omega
    rw [replayLoopAt, hheader, replayLoop]
    by_cases hroom : st.offset + kPhysicalHeaderSize ≤ data.length
    · rw [if_pos hroom, if_pos hroom, readPhysicalRecordAt_eq hs hroom]
      rcases hrecord : readPhysicalRecord data st.offset with _ | ⟨fragment, record_end⟩
      · rfl
      · obtain ⟨hne, hend, hin⟩ := readPhysicalRecord_fragment hrecord
        have hboth : InSize (st.logical_payload ++ fragment) := by
          unfold InSize
          rw [List.length_append]
          omega
        dsimp only
        rw [replayFragmentAt_eq hboth hne]
        cases hstep : replayFragment st fragment record_end with
        | none => rfl
        | some st' =>
          have hgrow := replayFragment_payload hstep
          apply ih
          · exact hin
          · dsimp only
            omega
          · dsimp only
            omega
    · rw [if_neg hroom, if_neg hroom]

/-- On every content of an SSTable file and of a log the parsers return without a read
outside of a buffer, and what they return is what they return without the checks. The loops
over a block and over the log end within one turn more than there are bytes. -/
theorem parsers_stay_inside {file : Bytes} (hfile : file.length < 2 ^ 63) :
    SSTableReader.openAt file = .ok (SSTableReader.open file) ∧
      parseIndexAt file = .ok (parseIndex file) ∧
      (∀ (r : SSTableReader) (turns : ℕ) (first last : TsKey), r.file = file →
        file.length < turns →
        r.rangeScanEntriesAt turns first last = .ok (r.rangeScanEntries first last)) ∧
      (∀ (turns : ℕ) (key : TsKey), file.length < turns →
        getFromBlockAt file key turns 0 = .ok (getFromBlock file key)) ∧
      ∀ turns, file.length < turns →
        replayLoopAt file turns .init = .ok (replayLoop file .init) := by
  refine ⟨openAt_eq hfile, parseIndexAt_eq hfile, ?_, ?_, ?_⟩
  · intro r turns first last hr hturns
    subst hr
    exact scanIndexAt_eq hfile hturns first last r.index
  · intro turns key hturns
    exact getFromBlockAt_eq hfile key (Nat.zero_le _) (by omega) (by omega)
  · intro turns hturns
    exact replayLoopAt_eq hfile (Nat.zero_le _) le_rfl (by simpa [ReplayState.init] using hturns)

/-- A file whose footer takes two entries of a block for its index. -/
def damagedTable : Bytes :=
  encodeEntry ⟨[99], 1⟩ ⟨[7], .kValue⟩ ++ (encodeEntry ⟨[99], 2⟩ ⟨[8], .kValue⟩ ++
    (encodeFixed64 0 ++ (encodeFixed64 28 ++ encodeFixed64 kSSTableMagic)))

/-- A record, and the first sixteen bytes of another. -/
def tornLog : Bytes := ((WAL.mk []).appendAll [.put [99] 1 [7], .put [99] 2 [8]]).file.take 40

theorem parsers_stay_inside_of_damage :
    SSTableReader.openAt damagedTable = .ok (SSTableReader.open damagedTable) ∧
      parseIndexAt damagedTable = .ok (.error (.corruption "Bad index key")) ∧
      getFromBlockAt damagedTable ⟨[99], 2⟩ 60 0 = .ok (some ⟨[8], .kValue⟩) ∧
      replayLoopAt tornLog 60 .init = .ok ⟨24, 24, true, [], false, [⟨.kValue, [99], 1, [7]⟩]⟩ := by
  have htable : damagedTable.length < 2 ^ 63 := by decide +kernel
  have hlog : tornLog.length < 2 ^ 63 := by decide +kernel
  obtain ⟨hopen, hindex, -, hget, -⟩ := parsers_stay_inside htable
  obtain ⟨-, -, -, -, hreplay⟩ := parsers_stay_inside hlog
  have hrejected : parseIndex damagedTable = .error (.corruption "Bad index key") := by decide +kernel
  have hfound : getFromBlock damagedTable ⟨[99], 2⟩ = some ⟨[8], .kValue⟩ := by decide +kernel
  have hreplayed : replayLoop tornLog .init =
      ⟨24, 24, true, [], false, [⟨.kValue, [99], 1, [7]⟩]⟩ := by decide +kernel
  exact ⟨hopen, hindex.trans (congrArg _ hrejected), (hget 60 _ (by decide +kernel)).trans (congrArg _ hfound),
    (hreplay 60 (by decide +kernel)).trans (congrArg _ hreplayed)⟩

end MiniTsdb
