import MiniTsdb.Proofs.WalCut

/-! A log of the older layout, which has no physical type byte. Replay first reads each record
as a new one whose payload starts a byte later, and only then as what it is. -/

namespace MiniTsdb
open Lib

/-- A put as the older layout logs it; its length field has 32 bits. -/
structure LegacyPut where
  measurement : Bytes
  timestamp : Int64
  value : Bytes
  fits : 13 + (measurement.length + value.length) < 2 ^ 32

namespace LegacyPut

def payload (p : LegacyPut) : Bytes :=
  encodeLogicalRecord kTypePut p.measurement p.timestamp p.value

/-- The checksum, the length and the payload. -/
def encode (p : LegacyPut) : Bytes :=
  encodeFixed32 (crc32 p.payload 0#32).toNat ++ (encodeFixed32 p.payload.length ++ p.payload)

def walEntry (p : LegacyPut) : WalEntry := ⟨.kValue, p.measurement, p.timestamp, p.value⟩

/-- The measurement length that a reader one byte late finds: the upper three bytes of the
length, then the low byte of the timestamp. -/
def shiftedLength (p : LegacyPut) : ℕ :=
  p.measurement.length / 256 + 2 ^ 24 * (p.timestamp.toUInt64.toNat % 256)

/-- The low byte of the measurement length is a logical type, and the shifted length fits. -/
def ReadsShifted (p : LegacyPut) : Prop :=
  (p.measurement.length % 256 = 1 ∨ p.measurement.length % 256 = 2) ∧
    p.shiftedLength < p.measurement.length + p.value.length

/-- The handler call that replay makes for the record. -/
def readAs (p : LegacyPut) : WalEntry := (decodeLogicalRecord p.payload.tail).getD p.walEntry

end LegacyPut

def legacyLog (ps : List LegacyPut) : Bytes := (ps.map LegacyPut.encode).flatten

variable (p : LegacyPut)

/-- A legacy record is a new one whose physical type is its logical type. -/
theorem legacy_encode_eq : p.encode = encodePhysicalRecord kPhysicalFull p.payload.tail := rfl

theorem legacy_payload_length : p.payload.length = 13 + (p.measurement.length + p.value.length) := by
  simp [LegacyPut.payload, encodeLogicalRecord, encodeFixed32, encodeFixed64]
  omega

theorem legacy_tail_length :
    p.payload.tail.length = 12 + (p.measurement.length + p.value.length) := by
  rw [List.length_tail, legacy_payload_length]
  omega

theorem legacy_tail_length_field : decodeFixed32 p.payload.tail 1 = p.shiftedLength := by
  have hfits := p.fits
  obtain ⟨rest, hrest⟩ : ∃ rest, p.payload.tail = [Fin.ofNat 256 p.measurement.length] ++
      ((leBytes 3 (p.measurement.length / 256) ++ [Fin.ofNat 256 p.timestamp.toUInt64.toNat]) ++
        rest) := ⟨_, rfl⟩
  have hslice : slice p.payload.tail 1 4 =
      leBytes 3 (p.measurement.length / 256) ++ [Fin.ofNat 256 p.timestamp.toUInt64.toNat] := by
    rw [hrest]
    exact slice_append_of_eq rfl (by simp)
  rw [decodeFixed32, hslice, leValue_append, leValue_leBytes, leBytes_length]
  rw [Nat.mod_eq_of_lt (by norm_num; omega), LegacyPut.shiftedLength]
  simp [leValue, Fin.ofNat]

theorem ofNat_eq_iff (n : ℕ) (b : Byte) : Fin.ofNat 256 n = b ↔ n % 256 = b.val := by
  rw [Fin.ext_iff]
  rfl

/-- The late reading succeeds exactly if the record reads shifted. -/
theorem legacy_decode_tail_isSome :
    (decodeLogicalRecord p.payload.tail).isSome ↔ p.ReadsShifted := by
  have hput : p.payload.tail.headD 0 = kTypePut ↔ p.measurement.length % 256 = 1 :=
    ofNat_eq_iff _ _
  have hdelete : p.payload.tail.headD 0 = kTypeDelete ↔ p.measurement.length % 256 = 2 :=
    ofNat_eq_iff _ _
  rw [decodeLogicalRecord, LegacyPut.ReadsShifted]
  dsimp only
  rw [legacy_tail_length_field, legacy_tail_length]
  split_ifs with hshort hlong h1 h2
  · simp only [Option.isSome_none, Bool.false_eq_true, false_iff]
    omega
  · simp only [Option.isSome_none, Bool.false_eq_true, false_iff]
    omega
  · simp only [Option.isSome_some, true_iff]
    exact ⟨Or.inl (hput.mp h1), by omega⟩
  · simp only [Option.isSome_some, true_iff]
    exact ⟨Or.inr (hdelete.mp h2), by omega⟩
  · simp only [Option.isSome_none, Bool.false_eq_true, false_iff]
    rintro ⟨hm | hm, -⟩
    · exact h1 (hput.mpr hm)
    · exact h2 (hdelete.mpr hm)

/-- What a payload decodes to has no more bytes than lie behind its header. -/
theorem decodeLogicalRecord_length {s : Bytes} {e : WalEntry} (h : decodeLogicalRecord s = some e) :
    e.measurement.length + e.value.length + 13 ≤ s.length := by
  rw [decodeLogicalRecord] at h
  dsimp only at h
  split_ifs at h with hshort hlong hput hdelete
  · obtain rfl := Option.some.inj h
    rw [slice_length (by omega), List.length_drop]
    omega
  · obtain rfl := Option.some.inj h
    rw [slice_length (by omega), List.length_nil]
    omega

/-- Read a byte late, a record is never what it was. -/
theorem readAs_eq_iff : p.readAs = p.walEntry ↔ ¬ p.ReadsShifted := by
  rw [← legacy_decode_tail_isSome, LegacyPut.readAs]
  cases hdecode : decodeLogicalRecord p.payload.tail with
  | none => simp
  | some e =>
    have hlen := decodeLogicalRecord_length hdecode
    rw [legacy_tail_length] at hlen
    simp only [Option.getD_some, Option.isSome_some, not_true, iff_false]
    rintro rfl
    simp only [LegacyPut.walEntry] at hlen
    omega

theorem legacy_decode_payload : decodeLogicalRecord p.payload = some p.walEntry := by
  have hmod : p.measurement.length % 2 ^ 32 = p.measurement.length := by
    have := p.fits
    exact Nat.mod_eq_of_lt (by omega)
  rw [LegacyPut.payload, decodeLogicalRecord_encode, if_pos rfl, hmod, List.take_left,
    List.drop_left]
  rfl

theorem replayFragment_legacy (st : ReplayState) (hst : st.assembling = false) (record_end : ℕ) :
    replayFragment st (kPhysicalFull :: p.payload.tail) record_end =
      some { st with
        emitted := st.emitted ++ [p.readAs]
        valid_offset := record_end } := by
  have hfragment : kPhysicalFull :: p.payload.tail = p.payload := rfl
  have hlegacy := legacy_decode_payload p
  rw [← hfragment] at hlegacy
  rw [replayFragment]
  simp only [hst, hlegacy, List.headD_cons, List.tail_cons, if_true, Bool.false_eq_true, if_false,
    LegacyPut.readAs]
  cases decodeLogicalRecord p.payload.tail with
  | none => simp [kPhysicalFull, kTypePut]
  | some e => rfl

theorem replayLoop_legacy (pre post : Bytes) (em : List WalEntry) :
    replayLoop (pre ++ (p.encode ++ post)) ⟨pre.length, pre.length, false, [], false, em⟩ =
      replayLoop (pre ++ (p.encode ++ post))
        ⟨(pre ++ p.encode).length, (pre ++ p.encode).length, false, [], false, em ++ [p.readAs]⟩ := by
  have hfits := p.fits
  have hlen : p.payload.tail.length + 1 < 2 ^ 32 := by
    rw [legacy_tail_length]
    omega
  rw [legacy_encode_eq, replayLoop_whole _ _ _ _ hlen _ rfl,
    replayFragment_legacy p _ rfl, List.length_append]

/-- Replay takes every record, each as it reads it, and cuts nothing off. -/
theorem replayEntries_legacy (ps : List LegacyPut) :
    (WAL.mk (legacyLog ps)).replayEntries = (ps.map LegacyPut.readAs, ⟨legacyLog ps⟩) := by
  have hloop : ∀ (pre : Bytes) (em : List WalEntry),
      replayLoop (pre ++ legacyLog ps) ⟨pre.length, pre.length, false, [], false, em⟩ =
        ⟨(pre ++ legacyLog ps).length, (pre ++ legacyLog ps).length, false, [], false,
          em ++ ps.map LegacyPut.readAs⟩ := by
    induction ps with
    | nil =>
      intro pre em
      rw [replayLoop, if_neg (by simp [legacyLog, kPhysicalHeaderSize])]
      simp [legacyLog]
    | cons p ps ih =>
      intro pre em
      have hone := replayLoop_legacy p pre (legacyLog ps) em
      have hrest := ih (pre ++ p.encode) (em ++ [p.readAs])
      rw [List.append_assoc, List.append_assoc, List.singleton_append] at hrest
      exact hone.trans hrest
  have hall := hloop [] []
  rw [List.nil_append, List.nil_append, List.length_nil] at hall
  rw [WAL.replayEntries, ReplayState.init]
  dsimp only
  rw [hall]
  rfl

/-- A legacy log is replayed as it was written exactly if no record of it also reads a byte
late. -/
theorem legacy_log_replayed_iff (ps : List LegacyPut) :
    (WAL.mk (legacyLog ps)).replayEntries = (ps.map LegacyPut.walEntry, ⟨legacyLog ps⟩) ↔
      ∀ p ∈ ps, ¬ p.ReadsShifted := by
  rw [replayEntries_legacy, Prod.mk.injEq, and_iff_left rfl, List.map_inj_left]
  exact forall₂_congr fun p _ => readAs_eq_iff p

/-- A measurement of one byte, and a timestamp that is a multiple of 256. -/
def shiftedPut : LegacyPut := ⟨[109], 256, [118], by decide⟩

/-- The put comes back under another measurement. -/
theorem shifted_put_misread :
    (WAL.mk (legacyLog [shiftedPut])).replayEntries ≠
        ([shiftedPut.walEntry], ⟨legacyLog [shiftedPut]⟩) ∧
      (WAL.mk (legacyLog [shiftedPut])).replayEntries.1.map WalEntry.measurement = [[]] := by
  rw [replayEntries_legacy]
  refine ⟨fun h => ?_, by decide⟩
  have hread := congrArg Prod.fst h
  revert hread
  decide

end MiniTsdb
