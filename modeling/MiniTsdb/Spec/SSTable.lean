import MiniTsdb.Spec.BloomFilter
import MiniTsdb.Spec.Compression
import MiniTsdb.Spec.Status
import MiniTsdb.Spec.Wal

/-! The SSTable file (`sstable.h`, `sstable.cpp`): data blocks behind their checksums,
an index of last keys, the bloom filter and a footer. `none` is undefined behaviour of
the bloom filter. The reader has no block cache attached. -/

namespace MiniTsdb
open Lib

def kSSTableMagic : ℕ := 0x3230494E494D5F53

def encodeKey (key : TsKey) : Bytes :=
  encodeVarint (key.measurement.length % 2 ^ 32) ++
    (key.measurement ++ encodeFixed64 key.timestamp.toUInt64.toNat)

def decodeKeyFields (input : Bytes) : Option (TsKey × ℕ) :=
  let (m_len, pos) := decodeVarint input 0
  if m_len = kBadVarint ∨ pos + m_len + 8 > input.length then none
  else some (⟨slice input pos m_len, (UInt64.ofNat (decodeFixed64 input (pos + m_len))).toInt64⟩,
    pos + m_len + 8)

def decodeKey (input : Bytes) : Option TsKey :=
  match decodeKeyFields input with
  | none => none
  | some (key, pos) => if pos = input.length then some key else none

def EntryType.byte : EntryType → Byte
  | kValue => 1
  | kDeletion => 2

def entryTypeOf (b : Byte) : Option EntryType :=
  if b = 1 then some .kValue else if b = 2 then some .kDeletion else none

def encodeEntry (key : TsKey) (entry : InternalEntry) : Bytes :=
  let key_buf := encodeKey key
  encodeVarint (key_buf.length % 2 ^ 32) ++ (key_buf ++ (entry.type.byte ::
    (encodeVarint (entry.value.length % 2 ^ 32) ++ entry.value)))

/-- The entry at `pos` of a block and the position behind it; both block parsers stop
where there is none. -/
def parseEntry (block_data : Bytes) (pos : ℕ) : Option (TsKey × InternalEntry × ℕ) :=
  let (key_len, pos) := decodeVarint block_data pos
  if key_len = kBadVarint ∨ pos + key_len > block_data.length then none
  else
    match decodeKey (slice block_data pos key_len) with
    | none => none
    | some key =>
      let pos := pos + key_len
      match block_data[pos]? with
      | none => none
      | some b =>
        match entryTypeOf b with
        | none => none
        | some type =>
          let (value_len, pos) := decodeVarint block_data (pos + 1)
          if value_len = kBadVarint ∨ pos + value_len > block_data.length then none
          else some (key, ⟨slice block_data pos value_len, type⟩, pos + value_len)

structure SSTableBuilder where
  file : Bytes
  block_size : ℤ
  block_buf : Bytes
  last_block_key : TsKey
  block_offsets : List ℕ
  block_sizes : List ℕ
  block_last_keys : List TsKey
  file_offset : ℕ
  bloom : BloomFilter
  num_entries : ℕ
  deriving DecidableEq, Repr

def SSTableBuilder.new (block_size : ℤ) : SSTableBuilder :=
  ⟨[], block_size, [], .default, [], [], [], 0, .new 10, 0⟩

def encodeBlockRecord (block_buf : Bytes) : Bytes :=
  encodeFixed32 (crc32 block_buf 0#32).toNat ++ block_buf

def SSTableBuilder.flushBlock (b : SSTableBuilder) : SSTableBuilder :=
  if b.block_buf.isEmpty then b
  else
    let record := encodeBlockRecord b.block_buf
    { b with
      file := b.file ++ record
      block_offsets := b.block_offsets ++ [b.file_offset % 2 ^ 64]
      block_sizes := b.block_sizes ++ [record.length % 2 ^ 32]
      block_last_keys := b.block_last_keys ++ [b.last_block_key]
      file_offset := b.file_offset + record.length
      block_buf := [] }

def asInt32 (n : ℕ) : ℤ :=
  if n % 2 ^ 32 < 2 ^ 31 then (n % 2 ^ 32 : ℕ) else (n % 2 ^ 32 : ℕ) - 2 ^ 32

def SSTableBuilder.add (b : SSTableBuilder) (key : TsKey) (entry : InternalEntry) :
    Option SSTableBuilder :=
  match b.bloom.add (encodeKey key) with
  | none => none
  | some bloom =>
    let b := { b with
      block_buf := b.block_buf ++ encodeEntry key entry
      bloom := bloom
      last_block_key := key
      num_entries := b.num_entries + 1 }
    some (if asInt32 b.block_buf.length ≥ b.block_size then b.flushBlock else b)

def encodeIndexEntry (last_key : TsKey) (offset size : ℕ) : Bytes :=
  let key_buf := encodeKey last_key
  encodeVarint (key_buf.length % 2 ^ 32) ++ (key_buf ++ (encodeFixed64 offset ++ encodeFixed64 size))

def SSTableBuilder.indexBuf (b : SSTableBuilder) : Bytes :=
  encodeVarint (b.block_offsets.length % 2 ^ 32) ++
    ((b.block_last_keys.zip (b.block_offsets.zip b.block_sizes)).map fun e =>
      encodeIndexEntry e.1 e.2.1 e.2.2).flatten

def SSTableBuilder.finish (b : SSTableBuilder) : Bytes :=
  let b := b.flushBlock
  let index_offset := b.file_offset
  let index_buf := b.indexBuf
  let bloom_offset := index_offset + index_buf.length
  b.file ++ (index_buf ++ (b.bloom.encode ++
    (encodeFixed64 index_offset ++ (encodeFixed64 bloom_offset ++ encodeFixed64 kSSTableMagic))))

def SSTableBuilder.addAll (b : SSTableBuilder) (entries : List (TsKey × InternalEntry)) :
    Option SSTableBuilder :=
  entries.foldlM (fun b e => b.add e.1 e.2) b

def buildSSTable (block_size : ℤ) (entries : List (TsKey × InternalEntry)) : Option Bytes :=
  ((SSTableBuilder.new block_size).addAll entries).map SSTableBuilder.finish

structure IndexEntry where
  last_key : TsKey
  offset : ℕ
  size : ℕ
  deriving DecidableEq, Repr

structure SSTableReader where
  file : Bytes
  index : List IndexEntry
  bloom : BloomFilter
  min_key : TsKey
  max_key : TsKey
  deriving DecidableEq, Repr

/-- `ReadBlock` on a file; an unreadable or damaged block is empty. -/
def readBlock (file : Bytes) (offset size : ℕ) : Bytes :=
  if size < 4 ∨ file.length < offset + size then []
  else
    let raw := slice file offset size
    let block := raw.drop 4
    if (crc32 block 0#32).toNat = decodeFixed32 raw 0 then block else []

def parseIndexLoop (index_data : Bytes) : ℕ → ℕ → Except Status (List IndexEntry)
  | 0, _ => .ok []
  | num_blocks + 1, pos =>
    let (key_len, pos) := decodeVarint index_data pos
    if key_len = kBadVarint ∨ pos + key_len + 16 > index_data.length then
      .error (.corruption "Bad index block")
    else
      match decodeKey (slice index_data pos key_len) with
      | none => .error (.corruption "Bad index key")
      | some last_key =>
        let pos := pos + key_len
        match parseIndexLoop index_data num_blocks (pos + 16) with
        | .error s => .error s
        | .ok index => .ok (⟨last_key, decodeFixed64 index_data pos,
            decodeFixed64 index_data (pos + 8) % 2 ^ 32⟩ :: index)

def parseIndex (index_data : Bytes) : Except Status (List IndexEntry) :=
  let (num_blocks, pos) := decodeVarint index_data 0
  parseIndexLoop index_data (if num_blocks = kBadVarint then 0 else num_blocks) pos

def firstKey (first_block : Bytes) : TsKey :=
  let (key_len, block_pos) := decodeVarint first_block 0
  if key_len ≠ kBadVarint ∧ block_pos + key_len ≤ first_block.length then
    match decodeKeyFields (slice first_block block_pos key_len) with
    | some (key, _) => key
    | none => .default
  else .default

def SSTableReader.open (file : Bytes) : Option (Except Status SSTableReader) :=
  if file.length < 24 then some (.error (.corruption "File too small for footer"))
  else
    let footer := file.length - 24
    let index_offset := decodeFixed64 file footer
    let bloom_offset := decodeFixed64 file (footer + 8)
    let magic := decodeFixed64 file (footer + 16)
    if magic ≠ kSSTableMagic ∨ index_offset > bloom_offset ∨ bloom_offset > footer then
      some (.error (.corruption "Bad footer"))
    else
      match BloomFilter.decode (slice file bloom_offset (footer - bloom_offset)) with
      | none => none
      | some bloom =>
        match parseIndex (slice file index_offset (bloom_offset - index_offset)) with
        | .error s => some (.error s)
        | .ok index => some (.ok
          { file := file
            index := index
            bloom := bloom
            min_key := match index.head? with
              | some e => firstKey (readBlock file e.offset e.size)
              | none => .default
            max_key := match index.getLast? with
              | some e => e.last_key
              | none => .default })

/-- The loop of `GetFromBlock` from `pos` on, with `turns` entries at most. -/
def getFromBlockLoop (block_data : Bytes) (key : TsKey) : ℕ → ℕ → Option InternalEntry
  | 0, _ => none
  | turns + 1, pos =>
    if pos < block_data.length then
      match parseEntry block_data pos with
      | none => none
      | some (current, entry, pos) =>
        match tsKeyComparator current key with
        | .eq => some entry
        | .gt => none
        | .lt => getFromBlockLoop block_data key turns pos
    else none

/-- Every entry takes at least one byte, so the length bounds the turns. -/
def getFromBlock (block_data : Bytes) (key : TsKey) : Option InternalEntry :=
  getFromBlockLoop block_data key block_data.length 0

def SSTableReader.lowerBound (r : SSTableReader) (key : TsKey) : Option IndexEntry :=
  r.index.find? fun e => tsKeyComparator e.last_key key != .lt

def SSTableReader.getEntry (r : SSTableReader) (key : TsKey) : Option (Option InternalEntry) :=
  if r.index.isEmpty then some none
  else
    match r.bloom.mayContain (encodeKey key) with
    | none => none
    | some false => some none
    | some true =>
      match r.lowerBound key with
      | none => some none
      | some e => some (getFromBlock (readBlock r.file e.offset e.size) key)

/-- The inner loop of `RangeScanEntries`: the records of one block, and whether a key
behind `end` was met. -/
def scanBlockLoop (block_data : Bytes) (first last : TsKey) : ℕ → ℕ → List Record × Bool
  | 0, _ => ([], false)
  | turns + 1, pos =>
    if pos < block_data.length then
      match parseEntry block_data pos with
      | none => ([], false)
      | some (key, entry, pos) =>
        if tsKeyComparator key first = .lt then scanBlockLoop block_data first last turns pos
        else if tsKeyComparator key last = .gt then ([], true)
        else
          let (records, stop) := scanBlockLoop block_data first last turns pos
          (toRecord key entry :: records, stop)
    else ([], false)

def scanIndexLoop (file : Bytes) (first last : TsKey) : List IndexEntry → List Record
  | [] => []
  | e :: index =>
    if tsKeyComparator e.last_key first = .lt then scanIndexLoop file first last index
    else
      let block_data := readBlock file e.offset e.size
      let (records, stop) := scanBlockLoop block_data first last block_data.length 0
      if stop then records else records ++ scanIndexLoop file first last index

def SSTableReader.rangeScanEntries (r : SSTableReader) (first last : TsKey) : List Record :=
  scanIndexLoop r.file first last r.index

end MiniTsdb
