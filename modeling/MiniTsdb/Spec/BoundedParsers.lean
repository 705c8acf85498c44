import MiniTsdb.Lib.BufferAccess
import MiniTsdb.Spec.SSTable

/-! The parsers of `sstable.cpp`, `wal.cpp` and `compression.cpp` with each access to a buffer
checked, sizes of 64 bits that wrap, and loops that get a number of turns. -/

namespace MiniTsdb
open Lib

def varintLoopAt (s : Bytes) : ℕ → ℕ → ℕ → ℕ → Except ParseFault (ℕ × ℕ)
  | 0, _, _, _ => .error .unfinished
  | turns + 1, pos, shift, result =>
    if pos ≥ s.length then .ok (kBadVarint, pos)
    else
      match byteAt s pos with
      | .error f => .error f
      | .ok byte =>
        let pos := sizeAdd pos 1
        let result := (result + byte.val % 128 * 2 ^ shift) % 2 ^ 32
        if byte.val < 128 then .ok (result, pos)
        else if shift + 7 ≥ 35 then .ok (kBadVarint, pos)
        else varintLoopAt s turns pos (shift + 7) result

def varintAt (s : Bytes) (pos : ℕ) : Except ParseFault (ℕ × ℕ) := varintLoopAt s 5 pos 0 0

def fixed32At (s : Bytes) (pos : ℕ) : Except ParseFault ℕ := fixedAt 4 s pos
def fixed64At (s : Bytes) (pos : ℕ) : Except ParseFault ℕ := fixedAt 8 s pos

def decodeKeyFieldsAt (input : Bytes) : Except ParseFault (Option (TsKey × ℕ)) :=
  match varintAt input 0 with
  | .error f => .error f
  | .ok (m_len, pos) =>
    if m_len = kBadVarint ∨ sizeAdd (sizeAdd pos m_len) 8 > input.length then .ok none
    else
      match bytesAt input pos m_len with
      | .error f => .error f
      | .ok measurement =>
        let pos := sizeAdd pos m_len
        match fixed64At input pos with
        | .error f => .error f
        | .ok timestamp =>
          .ok (some (⟨measurement, (UInt64.ofNat timestamp).toInt64⟩, sizeAdd pos 8))

def decodeKeyAt (input : Bytes) : Except ParseFault (Option TsKey) :=
  match decodeKeyFieldsAt input with
  | .error f => .error f
  | .ok none => .ok none
  | .ok (some (key, pos)) => .ok (if pos = input.length then some key else none)

def parseEntryAt (block_data : Bytes) (pos : ℕ) :
    Except ParseFault (Option (TsKey × InternalEntry × ℕ)) :=
  match varintAt block_data pos with
  | .error f => .error f
  | .ok (key_len, pos) =>
    if key_len = kBadVarint ∨ sizeAdd pos key_len > block_data.length then .ok none
    else
      match bytesAt block_data pos key_len with
      | .error f => .error f
      | .ok key_buf =>
        let pos := sizeAdd pos key_len
        match decodeKeyAt key_buf with
        | .error f => .error f
        | .ok none => .ok none
        | .ok (some key) =>
          if pos ≥ block_data.length then .ok none
          else
            match byteAt block_data pos with
            | .error f => .error f
            | .ok b =>
              match entryTypeOf b with
              | none => .ok none
              | some type =>
                match varintAt block_data (sizeAdd pos 1) with
                | .error f => .error f
                | .ok (value_len, pos) =>
                  if value_len = kBadVarint ∨ sizeAdd pos value_len > block_data.length then .ok none
                  else
                    match bytesAt block_data pos value_len with
                    | .error f => .error f
                    | .ok value => .ok (some (key, ⟨value, type⟩, sizeAdd pos value_len))

/-- `ReadBlock`; where `ReadAt` fails, the block is empty. -/
def readBlockAt (file : Bytes) (offset size : ℕ) : Except ParseFault Bytes :=
  if size < 4 ∨ file.length < offset + size then .ok []
  else
    let raw := slice file offset size
    match fixed32At raw 0 with
    | .error f => .error f
    | .ok stored_crc =>
      match bytesAt raw 4 (raw.length - 4) with
      | .error f => .error f
      | .ok block => .ok (if (crc32 block 0#32).toNat = stored_crc then block else [])

def getFromBlockAt (block_data : Bytes) (key : TsKey) :
    ℕ → ℕ → Except ParseFault (Option InternalEntry)
  | 0, _ => .error .unfinished
  | turns + 1, pos =>
    if pos < block_data.length then
      match parseEntryAt block_data pos with
      | .error f => .error f
      | .ok none => .ok none
      | .ok (some (current, entry, pos)) =>
        match tsKeyComparator current key with
        | .eq => .ok (some entry)
        | .gt => .ok none
        | .lt => getFromBlockAt block_data key turns pos
    else .ok none

def scanBlockAt (block_data : Bytes) (first last : TsKey) :
    ℕ → ℕ → Except ParseFault (List Record × Bool)
  | 0, _ => .error .unfinished
  | turns + 1, pos =>
    if pos < block_data.length then
      match parseEntryAt block_data pos with
      | .error f => .error f
      | .ok none => .ok ([], false)
      | .ok (some (key, entry, pos)) =>
        if tsKeyComparator key first = .lt then scanBlockAt block_data first last turns pos
        else if tsKeyComparator key last = .gt then .ok ([], true)
        else
          match scanBlockAt block_data first last turns pos with
          | .error f => .error f
          | .ok (records, stop) => .ok (toRecord key entry :: records, stop)
    else .ok ([], false)

def scanIndexAt (file : Bytes) (turns : ℕ) (first last : TsKey) :
    List IndexEntry → Except ParseFault (List Record)
  | [] => .ok []
  | e :: index =>
    if tsKeyComparator e.last_key first = .lt then scanIndexAt file turns first last index
    else
      match readBlockAt file e.offset e.size with
      | .error f => .error f
      | .ok block_data =>
        match scanBlockAt block_data first last turns 0 with
        | .error f => .error f
        | .ok (records, stop) =>
          if stop then .ok records
          else
            match scanIndexAt file turns first last index with
            | .error f => .error f
            | .ok more => .ok (records ++ more)

def SSTableReader.rangeScanEntriesAt (r : SSTableReader) (turns : ℕ) (first last : TsKey) :
    Except ParseFault (List Record) :=
  scanIndexAt r.file turns first last r.index

def parseIndexLoopAt (index_data : Bytes) :
    ℕ → ℕ → Except ParseFault (Except Status (List IndexEntry))
  | 0, _ => .ok (.ok [])
  | num_blocks + 1, pos =>
    match varintAt index_data pos with
    | .error f => .error f
    | .ok (key_len, pos) =>
      if key_len = kBadVarint ∨ sizeAdd (sizeAdd pos key_len) 16 > index_data.length then
        .ok (.error (.corruption "Bad index block"))
      else
        match bytesAt index_data pos key_len with
        | .error f => .error f
        | .ok key_buf =>
          let pos := sizeAdd pos key_len
          match decodeKeyAt key_buf with
          | .error f => .error f
          | .ok none => .ok (.error (.corruption "Bad index key"))
          | .ok (some last_key) =>
            match fixed64At index_data pos with
            | .error f => .error f
            | .ok offset =>
              match fixed64At index_data (sizeAdd pos 8) with
              | .error f => .error f
              | .ok size =>
                match parseIndexLoopAt index_data num_blocks (sizeAdd (sizeAdd pos 8) 8) with
                | .error f => .error f
                | .ok (.error s) => .ok (.error s)
                | .ok (.ok index) => .ok (.ok (⟨last_key, offset, size % 2 ^ 32⟩ :: index))

def parseIndexAt (index_data : Bytes) : Except ParseFault (Except Status (List IndexEntry)) :=
  match varintAt index_data 0 with
  | .error f => .error f
  | .ok (num_blocks, pos) =>
    parseIndexLoopAt index_data (if num_blocks = kBadVarint then 0 else num_blocks) pos

def firstKeyAt (first_block : Bytes) : Except ParseFault TsKey :=
  match varintAt first_block 0 with
  | .error f => .error f
  | .ok (key_len, block_pos) =>
    if key_len ≠ kBadVarint ∧ sizeAdd block_pos key_len ≤ first_block.length then
      match bytesAt first_block block_pos key_len with
      | .error f => .error f
      | .ok key_buf =>
        match decodeKeyFieldsAt key_buf with
        | .error f => .error f
        | .ok none => .ok .default
        | .ok (some (key, _)) => .ok key
    else .ok .default

def minKeyAt (file : Bytes) (index : List IndexEntry) : Except ParseFault TsKey :=
  match index.head? with
  | none => .ok .default
  | some e =>
    match readBlockAt file e.offset e.size with
    | .error f => .error f
    | .ok first_block => firstKeyAt first_block

/-- `ReadAt`, which reports an error where the file is too short. -/
def readAt (file : Bytes) (offset n : ℕ) : Option Bytes :=
  if file.length < offset + n then none else some (slice file offset n)

/-- The footer: where the index and the filter begin, or what is wrong with it. -/
def parseFooterAt (file : Bytes) : Except ParseFault (Except Status (ℕ × ℕ)) :=
  if file.length < 24 then .ok (.error (.corruption "File too small for footer"))
  else
    match readAt file (file.length - 24) 24 with
    | none => .ok (.error (.ioError "Failed to read footer"))
    | some footer =>
      match fixed64At footer 0, fixed64At footer 8, fixed64At footer 16 with
      | .ok index_offset, .ok bloom_offset, .ok magic =>
        if magic ≠ kSSTableMagic ∨ index_offset > bloom_offset ∨
            bloom_offset > file.length - 24 then
          .ok (.error (.corruption "Bad footer"))
        else .ok (.ok (index_offset, bloom_offset))
      | .error f, _, _ => .error f
      | _, .error f, _ => .error f
      | _, _, .error f => .error f

/-- `Open`. The filter is decoded as before, with none for its undefined behaviour. -/
def SSTableReader.openAt (file : Bytes) : Except ParseFault (Option (Except Status SSTableReader)) :=
  match parseFooterAt file with
  | .error f => .error f
  | .ok (.error s) => .ok (some (.error s))
  | .ok (.ok (index_offset, bloom_offset)) =>
    match readAt file index_offset (sizeSub bloom_offset index_offset) with
    | none => .ok (some (.error (.ioError "Failed to read index block")))
    | some index_data =>
      match readAt file bloom_offset (sizeSub (file.length - 24) bloom_offset) with
      | none => .ok (some (.error (.ioError "Failed to read bloom block")))
      | some bloom_data =>
        match BloomFilter.decode bloom_data with
        | none => .ok none
        | some bloom =>
          match parseIndexAt index_data with
          | .error f => .error f
          | .ok (.error s) => .ok (some (.error s))
          | .ok (.ok index) =>
            match minKeyAt file index with
            | .error f => .error f
            | .ok min_key => .ok (some (.ok
                { file := file
                  index := index
                  bloom := bloom
                  min_key := min_key
                  max_key := match index.getLast? with
                    | some e => e.last_key
                    | none => .default }))

def decodeLogicalRecordAt (payload : Bytes) : Except ParseFault (Option WalEntry) :=
  if payload.length < 1 + 4 + 8 then .ok none
  else
    match byteAt payload 0, fixed32At payload 1, fixed64At payload 5 with
    | .ok logical_type, .ok m_len, .ok timestamp =>
      let timestamp := (UInt64.ofNat timestamp).toInt64
      if sizeAdd 13 m_len > payload.length then .ok none
      else
        let p := sizeAdd 13 m_len
        match bytesAt payload 13 m_len, bytesAt payload p (sizeSub payload.length p) with
        | .ok measurement, .ok value =>
          if logical_type = kTypePut then .ok (some ⟨.kValue, measurement, timestamp, value⟩)
          else if logical_type = kTypeDelete then
            .ok (some ⟨.kDeletion, measurement, timestamp, []⟩)
          else .ok none
        | .error f, _ => .error f
        | _, .error f => .error f
    | .error f, _, _ => .error f
    | _, .error f, _ => .error f
    | _, _, .error f => .error f

def readPhysicalRecordAt (data : Bytes) (offset : ℕ) : Except ParseFault (Option (Bytes × ℕ)) :=
  match fixed32At data offset, fixed32At data (sizeAdd offset 4) with
  | .ok stored_crc, .ok fragment_len =>
    let record_end := sizeAdd (sizeAdd offset 8) fragment_len
    if record_end > data.length then .ok none
    else
      match bytesAt data (sizeAdd offset 8) fragment_len with
      | .error f => .error f
      | .ok fragment =>
        if (crc32 fragment 0#32).toNat ≠ stored_crc then .ok none
        else if fragment_len < 1 then .ok none
        else .ok (some (fragment, record_end))
  | .error f, _ => .error f
  | _, .error f => .error f

/-- The `switch` on the physical type, with its record decoded where it is looked at. -/
def replayFragmentAt (st : ReplayState) (fragment : Bytes) (record_end : ℕ) :
    Except ParseFault (Option ReplayState) :=
  match byteAt fragment 0, bytesAt fragment 1 (sizeSub fragment.length 1),
      if st.assembling then .ok none else decodeLogicalRecordAt fragment with
  | .ok physical_type, .ok fragment_payload, .ok legacy =>
    if physical_type = kPhysicalFull then
      if st.assembling then .ok none
      else
        match decodeLogicalRecordAt fragment_payload with
        | .error f => .error f
        | .ok (some e) => .ok (some { st with
            emitted := st.emitted ++ [e], valid_offset := record_end })
        | .ok none =>
          match legacy with
          | some e =>
            if physical_type = kTypePut then
              .ok (some { st with emitted := st.emitted ++ [e], valid_offset := record_end })
            else .ok none
          | none => .ok none
    else if physical_type = kPhysicalFirst then
      if st.assembling then .ok none
      else .ok (some { st with logical_payload := fragment_payload, assembling := true })
    else if physical_type = kPhysicalMiddle then
      if st.assembling then
        .ok (some { st with logical_payload := st.logical_payload ++ fragment_payload })
      else .ok none
    else if physical_type = kPhysicalLast then
      if st.assembling then
        match decodeLogicalRecordAt (st.logical_payload ++ fragment_payload) with
        | .error f => .error f
        | .ok (some e) => .ok (some { st with
            emitted := st.emitted ++ [e], logical_payload := [], assembling := false,
            valid_offset := record_end })
        | .ok none => .ok none
      else .ok none
    else .ok none
  | .error f, _, _ => .error f
  | _, .error f, _ => .error f
  | _, _, .error f => .error f

def replayLoopAt (data : Bytes) : ℕ → ReplayState → Except ParseFault ReplayState
  | 0, _ => .error .unfinished
  | turns + 1, st =>
    if sizeAdd st.offset kPhysicalHeaderSize ≤ data.length then
      match readPhysicalRecordAt data st.offset with
      | .error f => .error f
      | .ok none => .ok { st with has_tail_corruption := true }
      | .ok (some (fragment, record_end)) =>
        match replayFragmentAt st fragment record_end with
        | .error f => .error f
        | .ok none => .ok { st with has_tail_corruption := true }
        | .ok (some st') => replayLoopAt data turns { st' with offset := record_end }
    else .ok st

end MiniTsdb
