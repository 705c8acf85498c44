import MiniTsdb.Spec.SSTable

/-! The SSTable builder on a file whose calls may fail. `FlushBlock` and `Finish` look at no
result of `fwrite`, `fflush` and `fsync`. -/

namespace MiniTsdb
open Lib

/-- What the calls on the file do. Where `fwrite` call `i` is short or fails it takes only some
first bytes; where `fflush` or `fsync` fails only some first bytes of the file are left. -/
structure Outcomes where
  opened : Bool
  taken : ℕ → Option ℕ
  flushed : Option ℕ
  synced : Option ℕ

def kept (limit : Option ℕ) (data : Bytes) : Bytes :=
  match limit with
  | none => data
  | some n => data.take n

structure FileBuilder where
  builder : SSTableBuilder
  calls : ℕ

namespace FileBuilder
variable (o : Outcomes)

def new (block_size : ℤ) : FileBuilder := ⟨.new block_size, 0⟩

def fwrite (w : FileBuilder) (data : Bytes) : FileBuilder :=
  ⟨{ w.builder with file := w.builder.file ++ kept (o.taken w.calls) data }, w.calls + 1⟩

def flushBlock (w : FileBuilder) : FileBuilder :=
  if w.builder.block_buf.isEmpty then w
  else
    let record := encodeBlockRecord w.builder.block_buf
    let file_offset := w.builder.file_offset
    let w := w.fwrite o record
    { w with builder := { w.builder with
        block_offsets := w.builder.block_offsets ++ [file_offset % 2 ^ 64]
        block_sizes := w.builder.block_sizes ++ [record.length % 2 ^ 32]
        block_last_keys := w.builder.block_last_keys ++ [w.builder.last_block_key]
        file_offset := file_offset + record.length
        block_buf := [] } }

def add (w : FileBuilder) (key : TsKey) (entry : InternalEntry) : Option FileBuilder :=
  if !o.opened then some w
  else
    match w.builder.bloom.add (encodeKey key) with
    | none => none
    | some bloom =>
      let b := { w.builder with
        block_buf := w.builder.block_buf ++ encodeEntry key entry
        bloom := bloom
        last_block_key := key
        num_entries := w.builder.num_entries + 1 }
      let w : FileBuilder := { w with builder := b }
      some (if asInt32 b.block_buf.length ≥ b.block_size then w.flushBlock o else w)

def finish (fname : String) (w : FileBuilder) : Status × Bytes :=
  if !o.opened then (.ioError ("File not open: " ++ fname), w.builder.file)
  else
    let w := w.flushBlock o
    let index_offset := w.builder.file_offset
    let index_buf := w.builder.indexBuf
    let bloom_offset := index_offset + index_buf.length
    let w := w.fwrite o index_buf
    let w := w.fwrite o w.builder.bloom.encode
    let w := w.fwrite o (encodeFixed64 index_offset ++
      (encodeFixed64 bloom_offset ++ encodeFixed64 kSSTableMagic))
    (.ok, kept o.synced (kept o.flushed w.builder.file))

def addAll (w : FileBuilder) (entries : List (TsKey × InternalEntry)) : Option FileBuilder :=
  entries.foldlM (fun w e => w.add o e.1 e.2) w

end FileBuilder

def buildFile (o : Outcomes) (fname : String) (block_size : ℤ) (entries : List (TsKey × InternalEntry)) :
    Option (Status × Bytes) :=
  ((FileBuilder.new block_size).addAll o entries).map fun w => w.finish o fname

end MiniTsdb
