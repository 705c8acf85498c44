import MiniTsdb.Spec.SSTable

/-! The timestamp codec of `compression.cpp`: the first timestamp as a varint, then one
prefix code for each change of the step. Bits fill a byte from its low end, fields are
written high bit first. `int64` arithmetic wraps. -/

namespace MiniTsdb
open Lib

/-- The loop of `DecodeVarint64`: as in `DecodeVarint`, in 64 bits and with zero for no value. -/
def decodeVarint64Loop (s : Bytes) : ℕ → ℕ → ℕ → ℕ → ℕ × ℕ
  | 0, pos, _, _ => (0, pos)
  | turns + 1, pos, shift, result =>
    match s[pos]? with
    | none => (0, pos)
    | some byte =>
      let result := (result + byte.val % 128 * 2 ^ shift) % 2 ^ 64
      if byte.val < 128 then (result, pos + 1)
      else decodeVarint64Loop s turns (pos + 1) (shift + 7) result

def decodeVarint64 (s : Bytes) (pos : ℕ) : ℕ × ℕ := decodeVarint64Loop s 10 pos 0 0

structure DeltaOfDeltaEncoder where
  buf : Bytes
  last_ts : UInt64
  last_delta : UInt64
  block : ℕ
  pending_bits : ℕ
  count : ℕ
  deriving DecidableEq, Repr

namespace DeltaOfDeltaEncoder

def new : DeltaOfDeltaEncoder := ⟨[], 0, 0, 0, 0, 0⟩

def writeBit (e : DeltaOfDeltaEncoder) (bit : Bool) : DeltaOfDeltaEncoder :=
  let block := e.block ||| bit.toNat <<< e.pending_bits
  if e.pending_bits + 1 = 8 then
    { e with
      buf := e.buf ++ [Fin.ofNat 256 block]
      block := 0
      pending_bits := 0 }
  else
    { e with
      block := block
      pending_bits := e.pending_bits + 1 }

def writeBits (e : DeltaOfDeltaEncoder) : ℕ → UInt64 → DeltaOfDeltaEncoder
  | 0, _ => e
  | i + 1, value => writeBits (e.writeBit (value.toNat.testBit i)) i value

def writeSigned (e : DeltaOfDeltaEncoder) (num_bits : ℕ) (dod : Int64) : DeltaOfDeltaEncoder :=
  if dod < 0 then (e.writeBit true).writeBits num_bits (-dod).toUInt64
  else (e.writeBit false).writeBits num_bits dod.toUInt64

def writeDod (e : DeltaOfDeltaEncoder) (dod : Int64) : DeltaOfDeltaEncoder :=
  if dod = 0 then e.writeBit false
  else if dod ≥ -63 ∧ dod ≤ 63 then
    ((e.writeBit true).writeBit false).writeSigned 6 dod
  else if dod ≥ -8191 ∧ dod ≤ 8191 then
    (((e.writeBit true).writeBit true).writeBit false).writeSigned 13 dod
  else (((e.writeBit true).writeBit true).writeBit true).writeSigned 64 dod

def add (e : DeltaOfDeltaEncoder) (ts : Int64) : DeltaOfDeltaEncoder :=
  if e.count = 0 then
    { e with
      buf := e.buf ++ encodeVarint ts.toUInt64.toNat
      count := 1
      last_ts := ts.toUInt64 }
  else
    let delta := ts.toUInt64 - e.last_ts
    let dod := delta.toInt64 - e.last_delta.toInt64
    { e.writeDod dod with
      last_ts := ts.toUInt64
      last_delta := delta
      count := e.count + 1 }

def finish (e : DeltaOfDeltaEncoder) : Bytes × DeltaOfDeltaEncoder :=
  let buf := if e.pending_bits > 0 then e.buf ++ [Fin.ofNat 256 e.block] else e.buf
  (encodeVarint e.count ++ buf, new)

/-- `Add` of each timestamp, then `Finish`. -/
def encode (e : DeltaOfDeltaEncoder) (tss : List Int64) : Bytes × DeltaOfDeltaEncoder :=
  (tss.foldl add e).finish

end DeltaOfDeltaEncoder

structure DeltaOfDeltaDecoder where
  data : Bytes
  pos : ℕ
  pending_bits : ℕ
  block : ℕ
  last_ts : UInt64
  last_delta : UInt64
  count : ℕ
  total_count : ℤ
  deriving DecidableEq, Repr

namespace DeltaOfDeltaDecoder

/-- `Init` sets every field, whatever was decoded before. -/
def init (compressed : Bytes) : DeltaOfDeltaDecoder :=
  let (total, pos) := decodeVarint64 compressed 0
  ⟨compressed, pos, 0, 0, 0, 0, 0, asInt32 total⟩

def takeBit (d : DeltaOfDeltaDecoder) : Bool × DeltaOfDeltaDecoder :=
  (d.block.testBit 0,
    { d with
      block := d.block >>> 1
      pending_bits := d.pending_bits - 1 })

/-- The next bit; zero behind the end of the data. -/
def readBit (d : DeltaOfDeltaDecoder) : Bool × DeltaOfDeltaDecoder :=
  if d.pending_bits = 0 then
    match d.data[d.pos]? with
    | none => (false, d)
    | some byte =>
      takeBit { d with
        block := byte.val
        pos := d.pos + 1
        pending_bits := 8 }
  else d.takeBit

def readBitsLoop (d : DeltaOfDeltaDecoder) : ℕ → UInt64 → UInt64 × DeltaOfDeltaDecoder
  | 0, val => (val, d)
  | num_bits + 1, val =>
    let (bit, d) := d.readBit
    readBitsLoop d num_bits (val <<< 1 ||| bit.toUInt64)

def readBits (d : DeltaOfDeltaDecoder) (num_bits : ℕ) : UInt64 × DeltaOfDeltaDecoder :=
  d.readBitsLoop num_bits 0

def readSigned (d : DeltaOfDeltaDecoder) (num_bits : ℕ) : DeltaOfDeltaDecoder :=
  let (sign, d) := d.readBit
  let (val, d) := d.readBits num_bits
  let dod := if sign then -val.toInt64 else val.toInt64
  { d with last_delta := (d.last_delta.toInt64 + dod).toUInt64 }

def readDod (d : DeltaOfDeltaDecoder) : DeltaOfDeltaDecoder :=
  let (b1, d) := d.readBit
  if b1 = false then d
  else
    let (b2, d) := d.readBit
    if b2 = false then d.readSigned 6
    else
      let (b3, d) := d.readBit
      if b3 = false then d.readSigned 13 else d.readSigned 64

/-- The next timestamp; `none` is `false`, which changes nothing. -/
def next (d : DeltaOfDeltaDecoder) : Option (Int64 × DeltaOfDeltaDecoder) :=
  if (d.count : ℤ) ≥ d.total_count then none
  else if d.count = 0 then
    let (first, pos) := decodeVarint64 d.data d.pos
    some ((UInt64.ofNat first).toInt64,
      { d with
        last_ts := UInt64.ofNat first
        pos := pos
        count := d.count + 1
        pending_bits := 0
        block := 0 })
  else
    let d := d.readDod
    let last_ts := d.last_ts + d.last_delta
    some (last_ts.toInt64,
      { d with
        last_ts := last_ts
        count := d.count + 1 })

/-- `Next` returns the timestamps one by one, and `false` behind the last. -/
def Yields (d : DeltaOfDeltaDecoder) : List Int64 → Prop
  | [] => d.next = none
  | ts :: tss => ∃ d', d.next = some (ts, d') ∧ d'.Yields tss

end DeltaOfDeltaDecoder
end MiniTsdb
