import MiniTsdb.Lib.Text
import MiniTsdb.Spec.SSTable

/-! The block cache (`block_cache.cpp`) and a reader with the cache attached. The map of the
source holds an iterator into the list for each key; here the list is searched. -/

namespace MiniTsdb
open Lib

structure CacheEntry where
  key : Bytes
  value : Bytes
  charge : ℕ
  deriving DecidableEq, Repr

/-- The entry that was used last is in front. -/
structure BlockCache where
  capacity_bytes : ℕ
  usage_bytes : ℕ
  lru : List CacheEntry
  hits : ℕ
  misses : ℕ
  deriving DecidableEq, Repr

namespace BlockCache

def new (capacity_bytes : ℕ) : BlockCache := ⟨capacity_bytes, 0, [], 0, 0⟩

def find (c : BlockCache) (key : Bytes) : Option CacheEntry := c.lru.find? fun e => e.key == key

def others (c : BlockCache) (key : Bytes) : List CacheEntry := c.lru.eraseP fun e => e.key == key

def get (c : BlockCache) (key : Bytes) : Option Bytes × BlockCache :=
  match c.find key with
  | none => (none, { c with misses := c.misses + 1 })
  | some e =>
    (some e.value, { c with
      lru := e :: c.others key
      hits := c.hits + 1 })

def pruneLoop : ℕ → BlockCache → BlockCache
  | 0, c => c
  | turns + 1, c =>
    match c.lru.getLast? with
    | none => c
    | some entry =>
      if c.usage_bytes > c.capacity_bytes then
        pruneLoop turns { c with
          usage_bytes := c.usage_bytes - entry.charge
          lru := c.lru.dropLast }
      else c

def pruneUnlocked (c : BlockCache) : BlockCache := pruneLoop c.lru.length c

/-- `Put` takes an old entry of the key out first. -/
def dropOld (c : BlockCache) (key : Bytes) : BlockCache :=
  match c.find key with
  | none => c
  | some old =>
    { c with
      usage_bytes := c.usage_bytes - old.charge
      lru := c.others key }

def put (c : BlockCache) (key value : Bytes) : BlockCache :=
  if c.capacity_bytes = 0 ∨ value.length > c.capacity_bytes then c
  else
    let c := c.dropOld key
    pruneUnlocked { c with
      lru := ⟨key, value, value.length⟩ :: c.lru
      usage_bytes := c.usage_bytes + value.length }

end BlockCache

/-- `fname#offset`. -/
def cacheKey (fname : Bytes) (offset : ℕ) : Bytes := fname ++ (35 :: decimal offset)

/-- `ReadBlock` with a cache attached. -/
def readBlockCached (fname file : Bytes) (offset size : ℕ) (c : BlockCache) : Bytes × BlockCache :=
  if size < 4 then ([], c)
  else
    match c.get (cacheKey fname offset) with
    | (some cached, c) => (cached, c)
    | (none, c) =>
      if file.length < offset + size then ([], c)
      else
        let raw := slice file offset size
        let block := raw.drop 4
        if (crc32 block 0#32).toNat = decodeFixed32 raw 0 then
          (block, c.put (cacheKey fname offset) block)
        else ([], c)

def SSTableReader.getEntryCached (r : SSTableReader) (fname : Bytes) (key : TsKey)
    (c : BlockCache) : Option (Option InternalEntry) × BlockCache :=
  if r.index.isEmpty then (some none, c)
  else
    match r.bloom.mayContain (encodeKey key) with
    | none => (none, c)
    | some false => (some none, c)
    | some true =>
      match r.lowerBound key with
      | none => (some none, c)
      | some e =>
        let (block_data, c) := readBlockCached fname r.file e.offset e.size c
        (some (getFromBlock block_data key), c)

def scanIndexLoopCached (fname file : Bytes) (first last : TsKey) :
    List IndexEntry → BlockCache → List Record × BlockCache
  | [], c => ([], c)
  | e :: index, c =>
    if tsKeyComparator e.last_key first = .lt then scanIndexLoopCached fname file first last index c
    else
      let (block_data, c) := readBlockCached fname file e.offset e.size c
      let (records, stop) := scanBlockLoop block_data first last block_data.length 0
      if stop then (records, c)
      else
        let (more, c) := scanIndexLoopCached fname file first last index c
        (records ++ more, c)

def SSTableReader.rangeScanEntriesCached (r : SSTableReader) (fname : Bytes) (first last : TsKey)
    (c : BlockCache) : List Record × BlockCache :=
  scanIndexLoopCached fname r.file first last r.index c

inductive ReaderCall
  | getEntry (key : TsKey)
  | rangeScanEntries (first last : TsKey)
  deriving DecidableEq, Repr

/-- What a call returns; no answer is undefined behaviour of the bloom filter. -/
inductive ReaderAnswer
  | entry (found : Option (Option InternalEntry))
  | records (out : List Record)
  deriving DecidableEq, Repr

def SSTableReader.answer (r : SSTableReader) : ReaderCall → ReaderAnswer
  | .getEntry key => .entry (r.getEntry key)
  | .rangeScanEntries first last => .records (r.rangeScanEntries first last)

def SSTableReader.answerCached (r : SSTableReader) (fname : Bytes) (c : BlockCache) :
    ReaderCall → ReaderAnswer × BlockCache
  | .getEntry key =>
    let (found, c) := r.getEntryCached fname key c
    (.entry found, c)
  | .rangeScanEntries first last =>
    let (out, c) := r.rangeScanEntriesCached fname first last c
    (.records out, c)

/-- An SSTable file: its name, the reader that `Open` gives, and no two blocks at one
offset, as the builder lays them out. -/
structure TableFile where
  fname : Bytes
  reader : SSTableReader
  opened : SSTableReader.open reader.file = some (.ok reader)
  one_block : ∀ e ∈ reader.index, ∀ e' ∈ reader.index, e.offset = e'.offset → e.size = e'.size

def answersCached : List (TableFile × ReaderCall) → BlockCache → List ReaderAnswer
  | [], _ => []
  | (f, call) :: calls, c =>
    let (answer, c) := f.reader.answerCached f.fname c call
    answer :: answersCached calls c

end MiniTsdb
