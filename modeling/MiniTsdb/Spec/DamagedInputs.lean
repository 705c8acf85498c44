import MiniTsdb.Spec.Faults

/-! The inputs of a compaction as files on the disk that may be damaged, and the steps of
the store, those that fail among them. -/

namespace MiniTsdb
open Lib

/-- A file as `MakeSSTReader` finds it. Reads at the `unreadable` offsets fail. -/
inductive InputFile
  | unopened
  | opened (reader : SSTableReader) (unreadable : ℕ → Bool)

/-- `ReadBlock`. -/
def IndexEntry.readFrom (unreadable : ℕ → Bool) (file : Bytes) (e : IndexEntry) : Bytes :=
  if unreadable e.offset then [] else readBlock file e.offset e.size

/-- `RangeScanEntries` over the blocks from one on. -/
def scanBlocks (unreadable : ℕ → Bool) (file : Bytes) (first last : TsKey) :
    List IndexEntry → List Record
  | [] => []
  | e :: index =>
    if tsKeyComparator e.last_key first = .lt then scanBlocks unreadable file first last index
    else
      let block_data := e.readFrom unreadable file
      let (records, stop) := scanBlockLoop block_data first last block_data.length 0
      if stop then records else records ++ scanBlocks unreadable file first last index

def InputFile.records : InputFile → List Record
  | .unopened => []
  | .opened reader unreadable =>
    scanBlocks unreadable reader.file sstScanFirst sstScanLast reader.index

def recordReader (inputs : Bytes → InputFile) (fname : Bytes) : List Record := (inputs fname).records

/-- `MakeSSTReader` on a file that can be read; one that does not open has no records. -/
def makeSSTReader (file : Bytes) : Option (List Record) :=
  match SSTableReader.open file with
  | none => none
  | some (.error _) => some []
  | some (.ok reader) => some (reader.rangeScanEntries sstScanFirst sstScanLast)

/-- The block cannot be read, or does not pass its check. -/
def IndexEntry.Damaged (unreadable : ℕ → Bool) (file : Bytes) (e : IndexEntry) : Prop :=
  unreadable e.offset ∨ e.size < 4 ∨ file.length < e.offset + e.size ∨
    (crc32 ((slice file e.offset e.size).drop 4) 0#32).toNat ≠
      decodeFixed32 (slice file e.offset e.size) 0

def InputFile.Damaged : InputFile → Prop
  | .unopened => True
  | .opened reader unreadable => ∃ e ∈ reader.index, e.Damaged unreadable reader.file

inductive DiskAction
  | store (a : StoreAction)
  | finishError
  | openError (readable : Bool)
  | logFlushError (failure : LogFailure)
  | runError
  | commitError (failure : LogFailure)

def Store.diskStep (s : Store) : DiskAction → Option Store
  | .store a => s.step a
  | .finishError => s.failFinish
  | .openError readable => s.failOpen readable
  | .logFlushError failure => s.failCommitFlush failure
  | .runError => s.compaction.bind fun run => s.failRun run
  | .commitError failure => s.compaction.bind fun run => s.failCommit run failure

/-- Whether an output file of the compaction, or its `LogAndApply`, fails. -/
def DiskAction.failsJob : DiskAction → Bool
  | .runError => true
  | .commitError _ => true
  | _ => false

/-- The steps of `RunCompactionWork` on these inputs and, next to it, of the flush thread. -/
def DiskAction.During (inputs : Bytes → InputFile) : DiskAction → Prop
  | .store (.read reader) => reader = recordReader inputs
  | .store (.build _) => True
  | .store .commitFlush => True
  | .store .output => True
  | .store (.commit _ _) => True
  | .store _ => False
  | _ => True

end MiniTsdb
