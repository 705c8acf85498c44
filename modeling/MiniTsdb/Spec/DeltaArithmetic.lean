import MiniTsdb.Lib.Checked
import MiniTsdb.Spec.DeltaOfDelta

/-! `DeltaOfDeltaEncoder::Add` and `DeltaOfDeltaDecoder::Next` with signed overflow as
undefined behaviour. Those of the codec wrap there. -/

namespace MiniTsdb
open Lib

namespace DeltaOfDeltaEncoder

def checkedWriteSigned (e : DeltaOfDeltaEncoder) (num_bits : ℕ) (dod : Int64) :
    Option DeltaOfDeltaEncoder :=
  if dod < 0 then
    match negInt64 dod with
    | none => none
    | some abs_dod => some ((e.writeBit true).writeBits num_bits abs_dod.toUInt64)
  else some ((e.writeBit false).writeBits num_bits dod.toUInt64)

def checkedWriteDod (e : DeltaOfDeltaEncoder) (dod : Int64) : Option DeltaOfDeltaEncoder :=
  if dod = 0 then some (e.writeBit false)
  else if dod ≥ -63 ∧ dod ≤ 63 then
    ((e.writeBit true).writeBit false).checkedWriteSigned 6 dod
  else if dod ≥ -8191 ∧ dod ≤ 8191 then
    (((e.writeBit true).writeBit true).writeBit false).checkedWriteSigned 13 dod
  else (((e.writeBit true).writeBit true).writeBit true).checkedWriteSigned 64 dod

def checkedAdd (e : DeltaOfDeltaEncoder) (ts : Int64) : Option DeltaOfDeltaEncoder :=
  if e.count = 0 then
    some { e with
      buf := e.buf ++ encodeVarint ts.toUInt64.toNat
      count := 1
      last_ts := ts.toUInt64 }
  else
    let delta := ts.toUInt64 - e.last_ts
    match subInt64 delta.toInt64 e.last_delta.toInt64 with
    | none => none
    | some dod =>
      match e.checkedWriteDod dod with
      | none => none
      | some e' => some { e' with
          last_ts := ts.toUInt64
          last_delta := delta
          count := e.count + 1 }

def checkedEncode (tss : List Int64) : Option Bytes :=
  (tss.foldlM checkedAdd new).map fun e => e.finish.1

end DeltaOfDeltaEncoder

namespace DeltaOfDeltaDecoder

def checkedReadSigned (d : DeltaOfDeltaDecoder) (num_bits : ℕ) : Option DeltaOfDeltaDecoder :=
  let (sign, d) := d.readBit
  let (val, d) := d.readBits num_bits
  match if sign then negInt64 val.toInt64 else some val.toInt64 with
  | none => none
  | some dod =>
    match addInt64 d.last_delta.toInt64 dod with
    | none => none
    | some last_delta => some { d with last_delta := last_delta.toUInt64 }

def checkedReadDod (d : DeltaOfDeltaDecoder) : Option DeltaOfDeltaDecoder :=
  let (b1, d) := d.readBit
  if b1 = false then some d
  else
    let (b2, d) := d.readBit
    if b2 = false then d.checkedReadSigned 6
    else
      let (b3, d) := d.readBit
      if b3 = false then d.checkedReadSigned 13 else d.checkedReadSigned 64

/-- What `Next` returns; none is an overflow. -/
def checkedNext (d : DeltaOfDeltaDecoder) : Option (Option (Int64 × DeltaOfDeltaDecoder)) :=
  if (d.count : ℤ) ≥ d.total_count then some none
  else if d.count = 0 then
    let (first, pos) := decodeVarint64 d.data d.pos
    some (some ((UInt64.ofNat first).toInt64,
      { d with
        last_ts := UInt64.ofNat first
        pos := pos
        count := d.count + 1
        pending_bits := 0
        block := 0 }))
  else
    match d.checkedReadDod with
    | none => none
    | some d =>
      let last_ts := d.last_ts + d.last_delta
      some (some (last_ts.toInt64,
        { d with
          last_ts := last_ts
          count := d.count + 1 }))

/-- Calls of `Next` one after the other, as long as it returns a timestamp. -/
def checkedNexts : ℕ → DeltaOfDeltaDecoder → Option DeltaOfDeltaDecoder
  | 0, d => some d
  | calls + 1, d =>
    match d.checkedNext with
    | none => none
    | some none => some d
    | some (some (_, d)) => checkedNexts calls d

end DeltaOfDeltaDecoder
end MiniTsdb
