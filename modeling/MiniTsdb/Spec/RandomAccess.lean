import MiniTsdb.Spec.BlockCache
import MiniTsdb.Spec.Faults

/-! `RandomAccessFile` on the calls of the operating system, and a reader that reads its blocks
through it, with the block cache attached. -/

namespace MiniTsdb
open Lib

/-- What one call of `pread` reports; `failed` with the text of `errno`. -/
inductive Pread
  | read (bytes_read : ℕ)
  | interrupted
  | failed (message : String)
  deriving DecidableEq, Repr

/-- Whether `pread` may answer so where `chunk` bytes from `offset` on are asked for: it reads
bytes that the file has, and none at all only from its end on. -/
def Pread.honest (file : Bytes) (offset chunk : ℕ) : Pread → Bool
  | .read 0 => file.length ≤ offset
  | .read bytes_read => bytes_read ≤ chunk && offset + bytes_read ≤ file.length
  | _ => true

def fill (out bytes : Bytes) (done : ℕ) : Bytes :=
  out.take done ++ (bytes ++ out.drop (done + bytes.length))

/-- The loop of `ReadAt` on the answers to come, with those it leaves; no result where it still
waits for one. -/
def readAtLoop (fname file : Bytes) (offset n : ℕ) :
    List Pread → Bytes → ℕ → Option (Except Status Bytes × List Pread)
  | [], out, done => if done < n then none else some (.ok out, [])
  | answer :: answers, out, done =>
    if done < n then
      if answer.honest file (offset + done) (min (n - done) (2 ^ 63 - 1)) then
        match answer with
        | .interrupted => readAtLoop fname file offset n answers out done
        | .failed message =>
          some (.error (.ioError ("Failed to read " ++ pathText fname ++ ": " ++ message)), answers)
        | .read 0 => some (.error (.ioError ("Short read: " ++ pathText fname)), answers)
        | .read (bytes_read + 1) =>
          readAtLoop fname file offset n answers
            (fill out (slice file (offset + done) (bytes_read + 1)) done) (done + (bytes_read + 1))
      else none
    else some (.ok out, answer :: answers)

/-- `ReadAt`; an error leaves `out` empty. -/
def readAtFrom (fname file : Bytes) (offset n : ℕ) (answers : List Pread) :
    Option (Except Status Bytes × List Pread) :=
  readAtLoop fname file offset n answers (List.replicate n 0) 0

/-- The answers that `pread` has still to give, and the cache. -/
structure Reads where
  answers : List Pread
  cache : BlockCache
  deriving DecidableEq, Repr

def readBlockFrom (fname file : Bytes) (offset size : ℕ) (s : Reads) : Option (Bytes × Reads) :=
  if size < 4 then some ([], s)
  else
    match s.cache.get (cacheKey fname offset) with
    | (some cached, c) => some (cached, { s with cache := c })
    | (none, c) =>
      match readAtFrom fname file offset size s.answers with
      | none => none
      | some (.error _, answers) => some ([], ⟨answers, c⟩)
      | some (.ok raw, answers) =>
        let block := raw.drop 4
        if (crc32 block 0#32).toNat = decodeFixed32 raw 0 then
          some (block, ⟨answers, c.put (cacheKey fname offset) block⟩)
        else some ([], ⟨answers, c⟩)

def SSTableReader.getEntryFrom (r : SSTableReader) (fname : Bytes) (key : TsKey) (s : Reads) :
    Option (Option (Option InternalEntry) × Reads) :=
  if r.index.isEmpty then some (some none, s)
  else
    match r.bloom.mayContain (encodeKey key) with
    | none => some (none, s)
    | some false => some (some none, s)
    | some true =>
      match r.lowerBound key with
      | none => some (some none, s)
      | some e =>
        match readBlockFrom fname r.file e.offset e.size s with
        | none => none
        | some (block_data, s) => some (some (getFromBlock block_data key), s)

def scanIndexLoopFrom (fname file : Bytes) (first last : TsKey) :
    List IndexEntry → Reads → Option (List Record × Reads)
  | [], s => some ([], s)
  | e :: index, s =>
    if tsKeyComparator e.last_key first = .lt then scanIndexLoopFrom fname file first last index s
    else
      match readBlockFrom fname file e.offset e.size s with
      | none => none
      | some (block_data, s) =>
        let (records, stop) := scanBlockLoop block_data first last block_data.length 0
        if stop then some (records, s)
        else
          match scanIndexLoopFrom fname file first last index s with
          | none => none
          | some (more, s) => some (records ++ more, s)

def SSTableReader.answerFrom (r : SSTableReader) (fname : Bytes) (s : Reads) :
    ReaderCall → Option (ReaderAnswer × Reads)
  | .getEntry key => (r.getEntryFrom fname key s).map fun (found, s) => (.entry found, s)
  | .rangeScanEntries first last =>
    (scanIndexLoopFrom fname r.file first last r.index s).map fun (out, s) => (.records out, s)

/-- The answers to calls of readers that share the cache, and what they leave. -/
def answersFrom : List (TableFile × ReaderCall) → Reads → Option (List ReaderAnswer × Reads)
  | [], s => some ([], s)
  | (f, call) :: calls, s =>
    match f.reader.answerFrom f.fname s call with
    | none => none
    | some (answer, s) =>
      match answersFrom calls s with
      | none => none
      | some (answers, s) => some (answer :: answers, s)

end MiniTsdb
