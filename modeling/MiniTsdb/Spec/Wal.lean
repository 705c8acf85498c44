import MiniTsdb.Spec.Utils
import MiniTsdb.Spec.Crc32

/-! The write-ahead log (`wal.h`, `wal.cpp`). A logical record is split into
physical records of at most 32 KiB of payload; replay reassembles them and cuts
the file back to the last complete logical record when it finds damage. -/

namespace MiniTsdb
open Lib

def kTypePut : Byte := 1
def kTypeDelete : Byte := 2
def kMaxFragmentPayload : ℕ := 32 * 1024

def kPhysicalFull : Byte := 1
def kPhysicalFirst : Byte := 2
def kPhysicalMiddle : Byte := 3
def kPhysicalLast : Byte := 4
/-- crc32 (4), length (4) and physical type (1). -/
def kPhysicalHeaderSize : ℕ := 9

def encodeFixed32 (v : ℕ) : Bytes := leBytes 4 v
def encodeFixed64 (v : ℕ) : Bytes := leBytes 8 v
def decodeFixed32 (s : Bytes) (pos : ℕ) : ℕ := leValue (slice s pos 4)
def decodeFixed64 (s : Bytes) (pos : ℕ) : ℕ := leValue (slice s pos 8)

theorem decodeFixed32_lt (s : Bytes) (pos : ℕ) : decodeFixed32 s pos < 2 ^ 32 :=
  leValue_slice_lt s pos 4

structure WalEntry where
  type : EntryType
  measurement : Bytes
  timestamp : Int64
  value : Bytes
  deriving DecidableEq, Repr

/-- The payload that `AppendRecord` builds. -/
def encodeLogicalRecord (type : Byte) (measurement : Bytes) (timestamp : Int64)
    (value : Bytes) : Bytes :=
  type :: (encodeFixed32 measurement.length ++
    (encodeFixed64 timestamp.toUInt64.toNat ++ (measurement ++ value)))

def encodePhysicalRecord (physical_type : Byte) (data : Bytes) : Bytes :=
  let fragment := physical_type :: data
  encodeFixed32 (crc32 fragment 0#32).toNat ++ (encodeFixed32 fragment.length ++ fragment)

def fragmentLen (remaining : ℕ) : ℕ :=
  if remaining > kMaxFragmentPayload then kMaxFragmentPayload else remaining

theorem fragmentLen_pos {n : ℕ} (h : 0 < n) : 0 < fragmentLen n := by
  unfold fragmentLen kMaxFragmentPayload; split_ifs <;> omega

theorem fragmentLen_le (n : ℕ) : fragmentLen n ≤ n := by
  unfold fragmentLen; split_ifs <;> omega

theorem fragmentLen_le_max (n : ℕ) : fragmentLen n ≤ kMaxFragmentPayload := by
  unfold fragmentLen; split_ifs <;> omega

def fragmentLoop (payload : Bytes) (fragmented : Bool) (offset : ℕ) : List (Byte × Bytes) :=
  if _h : offset < payload.length then
    let fragment_len := fragmentLen (payload.length - offset)
    let physical_type :=
      if fragmented then
        if offset = 0 then kPhysicalFirst
        else if offset + fragment_len = payload.length then kPhysicalLast
        else kPhysicalMiddle
      else kPhysicalFull
    (physical_type, slice payload offset fragment_len) ::
      fragmentLoop payload fragmented (offset + fragment_len)
  else []
termination_by payload.length - offset
decreasing_by
  have := fragmentLen_pos (n := payload.length - offset) (by omega)
  omega

/-- The fragments of a payload; an empty payload still makes one. -/
def fragments (payload : Bytes) : List (Byte × Bytes) :=
  if payload.isEmpty then [(kPhysicalFull, [])]
  else fragmentLoop payload (payload.length > kMaxFragmentPayload) 0

def physicalRecords (payload : Bytes) : List Bytes :=
  (fragments payload).map fun f => encodePhysicalRecord f.1 f.2

/-- The content of `wal.log`. -/
structure WAL where
  file : Bytes
  deriving DecidableEq, Repr

/-- `AppendRecord` with every `fwrite` complete. -/
def WAL.appendRecord (wal : WAL) (type : Byte) (measurement : Bytes) (timestamp : Int64)
    (value : Bytes) : WAL :=
  ⟨wal.file ++ (physicalRecords (encodeLogicalRecord type measurement timestamp value)).flatten⟩

def WAL.appendPut (wal : WAL) (measurement : Bytes) (timestamp : Int64) (value : Bytes) : WAL :=
  wal.appendRecord kTypePut measurement timestamp value

def WAL.appendDelete (wal : WAL) (measurement : Bytes) (timestamp : Int64) : WAL :=
  wal.appendRecord kTypeDelete measurement timestamp []

/-- `WriteBatch::Operation`; also a single `Put` or `Delete`. -/
inductive Operation
  | put (measurement : Bytes) (timestamp : Int64) (value : Bytes)
  | delete (measurement : Bytes) (timestamp : Int64)
  deriving DecidableEq, Repr

def Operation.measurement : Operation → Bytes
  | put m _ _ => m
  | delete m _ => m

def Operation.timestamp : Operation → Int64
  | put _ t _ => t
  | delete _ t => t

def Operation.key (op : Operation) : TsKey := ⟨op.measurement, op.timestamp⟩

def Operation.entry : Operation → InternalEntry
  | put _ _ v => ⟨v, .kValue⟩
  | delete _ _ => ⟨[], .kDeletion⟩

def Operation.walEntry (op : Operation) : WalEntry :=
  ⟨op.entry.type, op.measurement, op.timestamp, op.entry.value⟩

def Operation.append (wal : WAL) : Operation → WAL
  | put m t v => wal.appendPut m t v
  | delete m t => wal.appendDelete m t

def WAL.appendAll (wal : WAL) (ops : List Operation) : WAL := ops.foldl Operation.append wal

/-- `AppendRecord` that returns an error: the records before `i` are written, and the `fwrite`
of that one takes only `n` of its bytes. -/
def WAL.appendRecordShort (wal : WAL) (type : Byte) (measurement : Bytes) (timestamp : Int64)
    (value : Bytes) (i n : ℕ) : WAL :=
  let records := physicalRecords (encodeLogicalRecord type measurement timestamp value)
  ⟨wal.file ++ ((records.take i).flatten ++ (records.getD i []).take n)⟩

def Operation.appendShort (wal : WAL) (i n : ℕ) : Operation → WAL
  | put m t v => wal.appendRecordShort kTypePut m t v i n
  | delete m t => wal.appendRecordShort kTypeDelete m t [] i n

def decodeLogicalRecord (payload : Bytes) : Option WalEntry :=
  if payload.length < 1 + 4 + 8 then none
  else
    let logical_type := payload.headD 0
    let m_len := decodeFixed32 payload 1
    let timestamp := (UInt64.ofNat (decodeFixed64 payload 5)).toInt64
    if 13 + m_len > payload.length then none
    else
      let measurement := slice payload 13 m_len
      let value := payload.drop (13 + m_len)
      if logical_type = kTypePut then some ⟨.kValue, measurement, timestamp, value⟩
      else if logical_type = kTypeDelete then some ⟨.kDeletion, measurement, timestamp, []⟩
      else none

structure ReplayState where
  offset : ℕ
  valid_offset : ℕ
  has_tail_corruption : Bool
  logical_payload : Bytes
  assembling : Bool
  emitted : List WalEntry
  deriving DecidableEq, Repr

def ReplayState.init : ReplayState := ⟨0, 0, false, [], false, []⟩

/-- The header checks of one turn: the fragment and the end of its record, or
`none` where the loop stops at damage. -/
def readPhysicalRecord (data : Bytes) (offset : ℕ) : Option (Bytes × ℕ) :=
  let stored_crc := decodeFixed32 data offset
  let fragment_len := decodeFixed32 data (offset + 4)
  let record_end := offset + 8 + fragment_len
  if record_end > data.length then none
  else
    let fragment := slice data (offset + 8) fragment_len
    if (crc32 fragment 0#32).toNat ≠ stored_crc then none
    else if fragment_len < 1 then none
    else some (fragment, record_end)

/-- The `switch` on the physical type; `none` where it sets the damage flag. -/
def replayFragment (st : ReplayState) (fragment : Bytes) (record_end : ℕ) :
    Option ReplayState :=
  let physical_type := fragment.headD 0
  let fragment_payload := fragment.tail
  let legacy := if st.assembling then none else decodeLogicalRecord fragment
  if physical_type = kPhysicalFull then
    if st.assembling then none
    else match decodeLogicalRecord fragment_payload with
      | some e => some { st with emitted := st.emitted ++ [e], valid_offset := record_end }
      | none => match legacy with
        | some e =>
          if physical_type = kTypePut then
            some { st with emitted := st.emitted ++ [e], valid_offset := record_end }
          else none
        | none => none
  else if physical_type = kPhysicalFirst then
    if st.assembling then none
    else some { st with logical_payload := fragment_payload, assembling := true }
  else if physical_type = kPhysicalMiddle then
    if st.assembling then some { st with logical_payload := st.logical_payload ++ fragment_payload }
    else none
  else if physical_type = kPhysicalLast then
    if st.assembling then
      match decodeLogicalRecord (st.logical_payload ++ fragment_payload) with
      | some e => some { st with
          emitted := st.emitted ++ [e], logical_payload := [], assembling := false,
          valid_offset := record_end }
      | none => none
    else none
  else none

theorem readPhysicalRecord_end {data fragment : Bytes} {offset record_end : ℕ}
    (h : readPhysicalRecord data offset = some (fragment, record_end)) :
    offset + 9 ≤ record_end ∧ record_end ≤ data.length := by
  unfold readPhysicalRecord at h
  dsimp only at h
  split_ifs at h with h1 h2 h3
  simp only [Option.some.injEq, Prod.mk.injEq] at h
  omega

def replayLoop (data : Bytes) (st : ReplayState) : ReplayState :=
  if st.offset + kPhysicalHeaderSize ≤ data.length then
    match _h : readPhysicalRecord data st.offset with
    | none => { st with has_tail_corruption := true }
    | some (fragment, record_end) =>
      match replayFragment st fragment record_end with
      | none => { st with has_tail_corruption := true }
      | some st' => replayLoop data { st' with offset := record_end }
  else st
termination_by data.length - st.offset
decreasing_by
  have := readPhysicalRecord_end _h
  simp only [kPhysicalHeaderSize] at *
  omega

/-- `ReplayEntries` with the file readable and re-openable: the handler calls,
and the file after the cut at `valid_offset` if damage was seen. -/
def WAL.replayEntries (wal : WAL) : List WalEntry × WAL :=
  let st := replayLoop wal.file .init
  let corrupt := st.has_tail_corruption || st.assembling
  (st.emitted, if corrupt then ⟨wal.file.take st.valid_offset⟩ else wal)

/-- `Rotate` renames the log away and starts an empty one. -/
def WAL.rotate (_ : WAL) : WAL := ⟨[]⟩

end MiniTsdb
