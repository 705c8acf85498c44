import MiniTsdb.Spec.Wal

/-! Replay against the writer. Records that lie whole in the file are emitted one
after the other, and whatever is left of the next one is never emitted. -/

namespace MiniTsdb
open Lib

def Operation.payload (op : Operation) : Bytes :=
  encodeLogicalRecord (match op.entry.type with | .kValue => kTypePut | .kDeletion => kTypeDelete)
    op.measurement op.timestamp op.entry.value

def Operation.encode (op : Operation) : Bytes := (physicalRecords op.payload).flatten

theorem append_file (wal : WAL) (op : Operation) : (op.append wal).file = wal.file ++ op.encode := by
  cases op <;> rfl

theorem appendAll_file (ops : List Operation) (wal : WAL) :
    (wal.appendAll ops).file = wal.file ++ (ops.map Operation.encode).flatten := by
  induction ops generalizing wal with
  | nil => simp [WAL.appendAll]
  | cons op ops ih =>
    have h := ih (op.append wal)
    simp only [WAL.appendAll, List.foldl_cons, List.map_cons, List.flatten_cons] at h ⊢
    rw [h, append_file, List.append_assoc]

theorem int64_roundtrip (t : Int64) : (UInt64.ofNat t.toUInt64.toNat).toInt64 = t := by
  rw [UInt64.ofNat_toNat]; rfl

theorem uint64_toNat_lt (u : UInt64) : u.toNat < 256 ^ 8 := by
  have := u.toNat_lt; norm_num at *; omega

/-- The length field keeps the measurement length modulo `2 ^ 32`; nothing else is lost. -/
theorem decodeLogicalRecord_encode (ty : Byte) (m : Bytes) (t : Int64) (v : Bytes) :
    decodeLogicalRecord (encodeLogicalRecord ty m t v) =
      if ty = kTypePut then
        some ⟨.kValue, (m ++ v).take (m.length % 2 ^ 32), t, (m ++ v).drop (m.length % 2 ^ 32)⟩
      else if ty = kTypeDelete then some ⟨.kDeletion, (m ++ v).take (m.length % 2 ^ 32), t, []⟩
      else none := by
  have hlen : (encodeLogicalRecord ty m t v).length = 13 + (m.length + v.length) := by
    simp [encodeLogicalRecord, encodeFixed32, encodeFixed64]; omega
  have h32 : decodeFixed32 (encodeLogicalRecord ty m t v) 1 = m.length % 2 ^ 32 := by
    rw [decodeFixed32, encodeLogicalRecord, ← List.singleton_append,
      slice_append_of_eq (by simp) (by simp [encodeFixed32]), encodeFixed32, leValue_leBytes]
    norm_num
  have h64 : decodeFixed64 (encodeLogicalRecord ty m t v) 5 = t.toUInt64.toNat := by
    rw [decodeFixed64, encodeLogicalRecord, ← List.cons_append,
      slice_append_of_eq (by simp [encodeFixed32]) (by simp [encodeFixed64]), encodeFixed64]
    exact leValue_leBytes_of_lt (uint64_toNat_lt _)
  have hdrop : (encodeLogicalRecord ty m t v).drop 13 = m ++ v := by
    rw [encodeLogicalRecord, ← List.cons_append, ← List.append_assoc]
    exact List.drop_left' (by simp [encodeFixed32, encodeFixed64])
  have hmod : m.length % 2 ^ 32 ≤ m.length := Nat.mod_le _ _
  simp only [decodeLogicalRecord, hlen, h32, h64, slice, ← List.drop_drop, hdrop, int64_roundtrip]
  rw [if_neg (by omega), if_neg (by omega)]
  rfl

/-- What replay hands over for an appended operation. -/
def Operation.replayed (op : Operation) : WalEntry :=
  let s := op.measurement ++ op.entry.value
  ⟨op.entry.type, s.take (op.measurement.length % 2 ^ 32), op.timestamp,
    match op.entry.type with
    | .kValue => s.drop (op.measurement.length % 2 ^ 32)
    | .kDeletion => []⟩

theorem decode_payload (op : Operation) : decodeLogicalRecord op.payload = some op.replayed := by
  rw [Operation.payload, decodeLogicalRecord_encode]
  cases op <;> rfl

theorem replayed_eq (op : Operation) (hm : op.measurement.length < 2 ^ 32) :
    op.replayed = op.walEntry := by
  have h : op.measurement.length % 2 ^ 32 = op.measurement.length := Nat.mod_eq_of_lt hm
  rw [Operation.replayed, Operation.walEntry, h]
  cases op <;> simp [Operation.entry]

theorem encodeLogicalRecord_length (ty : Byte) (m : Bytes) (t : Int64) (v : Bytes) :
    13 ≤ (encodeLogicalRecord ty m t v).length := by
  simp [encodeLogicalRecord, encodeFixed32, encodeFixed64]; omega

@[simp] theorem encodePhysicalRecord_length (ty : Byte) (d : Bytes) :
    (encodePhysicalRecord ty d).length = 9 + d.length := by
  simp [encodePhysicalRecord, encodeFixed32]; omega

theorem header_len (pre : Bytes) (ty : Byte) (d post : Bytes) (hd : d.length + 1 < 2 ^ 32) :
    decodeFixed32 (pre ++ (encodePhysicalRecord ty d ++ post)) (pre.length + 4) =
      d.length + 1 := by
  rw [decodeFixed32, slice_append_right, encodePhysicalRecord, List.append_assoc, List.append_assoc,
    slice_append_of_eq (by simp [encodeFixed32]) (by simp [encodeFixed32]), encodeFixed32]
  exact leValue_leBytes_of_lt (by simp at *; omega)

theorem readPhysicalRecord_whole (pre : Bytes) (ty : Byte) (d post : Bytes)
    (hd : d.length + 1 < 2 ^ 32) :
    readPhysicalRecord (pre ++ (encodePhysicalRecord ty d ++ post)) pre.length =
      some (ty :: d, pre.length + (encodePhysicalRecord ty d).length) := by
  have hcrc : decodeFixed32 (pre ++ (encodePhysicalRecord ty d ++ post)) pre.length =
      (crc32 (ty :: d) 0#32).toNat := by
    rw [decodeFixed32, ← Nat.add_zero pre.length, slice_append_right, encodePhysicalRecord,
      List.append_assoc, slice_append_left (by simp [encodeFixed32]), encodeFixed32]
    exact leValue_leBytes_of_lt (crc32_toNat_lt _ _)
  have hfrag : slice (pre ++ (encodePhysicalRecord ty d ++ post)) (pre.length + 8) (d.length + 1) =
      ty :: d := by
    rw [slice_append_right, encodePhysicalRecord, List.append_assoc, List.append_assoc,
      ← List.append_assoc (encodeFixed32 _)]
    exact slice_append_of_eq (by simp [encodeFixed32]) rfl
  simp only [readPhysicalRecord, hcrc, header_len _ _ _ _ hd, hfrag]
  rw [if_neg (by simp; omega), if_neg (by simp), if_neg (by omega)]
  simp; omega

theorem readPhysicalRecord_torn (pre : Bytes) (ty : Byte) (d : Bytes) (p : ℕ)
    (hd : d.length + 1 < 2 ^ 32) (h8 : 8 ≤ p) (hp : p < (encodePhysicalRecord ty d).length) :
    readPhysicalRecord (pre ++ (encodePhysicalRecord ty d).take p) pre.length = none := by
  have hlen : decodeFixed32 (pre ++ (encodePhysicalRecord ty d).take p) (pre.length + 4) =
      d.length + 1 := by
    rw [← header_len pre ty d [] hd, decodeFixed32, decodeFixed32, slice_append_right,
      slice_append_right, slice, slice, List.append_nil, List.drop_take, List.take_take,
      Nat.min_eq_left (by omega)]
  have hlt : pre.length + 8 + (d.length + 1) > (pre ++ (encodePhysicalRecord ty d).take p).length := by
    simp at *; omega
  simp only [readPhysicalRecord, hlen, if_pos hlt]

theorem replayLoop_whole (pre : Bytes) (ty : Byte) (d post : Bytes) (hd : d.length + 1 < 2 ^ 32)
    (st : ReplayState) (ho : st.offset = pre.length) :
    replayLoop (pre ++ (encodePhysicalRecord ty d ++ post)) st =
      match replayFragment st (ty :: d) (pre.length + (encodePhysicalRecord ty d).length) with
      | none => { st with has_tail_corruption := true }
      | some st' => replayLoop (pre ++ (encodePhysicalRecord ty d ++ post))
          { st' with offset := pre.length + (encodePhysicalRecord ty d).length } := by
  rw [replayLoop, if_pos (by rw [ho]; simp [kPhysicalHeaderSize]; omega)]
  split
  · next h => rw [ho, readPhysicalRecord_whole _ _ _ _ hd] at h; contradiction
  · next fragment record_end h =>
    rw [ho, readPhysicalRecord_whole _ _ _ _ hd] at h
    simp only [Option.some.injEq, Prod.mk.injEq] at h
    obtain ⟨rfl, rfl⟩ := h
    rfl

theorem replayLoop_torn (pre : Bytes) (ty : Byte) (d : Bytes) (p : ℕ) (hd : d.length + 1 < 2 ^ 32)
    (hp : p < (encodePhysicalRecord ty d).length) (st : ReplayState) (ho : st.offset = pre.length) :
    replayLoop (pre ++ (encodePhysicalRecord ty d).take p) st =
      if p < 9 then st else { st with has_tail_corruption := true } := by
  have hlen : (pre ++ (encodePhysicalRecord ty d).take p).length = pre.length + p := by
    simp at *; omega
  rw [replayLoop]
  by_cases h9 : p < 9
  · rw [if_neg (by rw [hlen, ho]; simp [kPhysicalHeaderSize]; omega), if_pos h9]
  · rw [if_pos (by rw [hlen, ho]; simp [kPhysicalHeaderSize]; omega), if_neg h9]
    split
    · rfl
    · next h => rw [ho, readPhysicalRecord_torn _ _ _ _ hd (by omega) hp] at h; contradiction

theorem take_append_slice (s : Bytes) (pos n : ℕ) : s.take pos ++ slice s pos n = s.take (pos + n) := by
  rw [slice, List.take_add]

theorem slice_length_lt (payload : Bytes) (offset : ℕ) :
    (slice payload offset (fragmentLen (payload.length - offset))).length + 1 < 2 ^ 32 := by
  have h1 : (slice payload offset (fragmentLen (payload.length - offset))).length ≤
      fragmentLen (payload.length - offset) := List.length_take_le _ _
  have h2 := fragmentLen_le_max (payload.length - offset)
  simp only [kMaxFragmentPayload] at h2
  omega

/-- The file bytes of the fragments from `offset` on. -/
def recordsFrom (payload : Bytes) (fragmented : Bool) (offset : ℕ) : Bytes :=
  ((fragmentLoop payload fragmented offset).map fun f => encodePhysicalRecord f.1 f.2).flatten

/-- The physical type the loop gives to the fragment at `offset`. -/
def fragmentType (payload : Bytes) (fragmented : Bool) (offset : ℕ) : Byte :=
  if fragmented then
    if offset = 0 then kPhysicalFirst
    else if offset + fragmentLen (payload.length - offset) = payload.length then kPhysicalLast
    else kPhysicalMiddle
  else kPhysicalFull

theorem recordsFrom_cons {payload : Bytes} (fragmented : Bool) {offset : ℕ}
    (h : offset < payload.length) :
    recordsFrom payload fragmented offset =
      encodePhysicalRecord (fragmentType payload fragmented offset)
        (slice payload offset (fragmentLen (payload.length - offset))) ++
      recordsFrom payload fragmented (offset + fragmentLen (payload.length - offset)) := by
  rw [recordsFrom, fragmentLoop, dif_pos h]
  rfl

theorem recordsFrom_end {payload : Bytes} {fragmented : Bool} {offset : ℕ}
    (h : payload.length ≤ offset) : recordsFrom payload fragmented offset = [] := by
  rw [recordsFrom, fragmentLoop, dif_neg (by omega)]
  rfl

theorem physicalRecords_flatten {payload : Bytes} (h : 0 < payload.length) :
    (physicalRecords payload).flatten =
      recordsFrom payload (payload.length > kMaxFragmentPayload) 0 := by
  have hne : payload.isEmpty = false := by simpa using List.ne_nil_of_length_pos h
  simp [physicalRecords, fragments, hne, recordsFrom]

theorem replayLoop_open_whole {payload : Bytes} {e : WalEntry}
    (he : decodeLogicalRecord payload = some e) (post : Bytes) (vo : ℕ) (em : List WalEntry) :
    ∀ (k offset : ℕ) (pre : Bytes), payload.length - offset = k → 0 < offset →
      offset < payload.length →
      replayLoop (pre ++ (recordsFrom payload true offset ++ post))
          ⟨pre.length, vo, false, payload.take offset, true, em⟩ =
        replayLoop (pre ++ (recordsFrom payload true offset ++ post))
          ⟨pre.length + (recordsFrom payload true offset).length,
            pre.length + (recordsFrom payload true offset).length, false, [], false, em ++ [e]⟩ := by
  intro k
  induction k using Nat.strong_induction_on with
  | _ k ih =>
  intro offset pre hk h0 hlt
  have hpos := fragmentLen_pos (n := payload.length - offset) (by omega)
  have hle := fragmentLen_le (payload.length - offset)
  have hcons := recordsFrom_cons true hlt
  have hd32 := slice_length_lt payload offset
  set len := fragmentLen (payload.length - offset) with hlen
  set d := slice payload offset len with hd
  have happ : payload.take offset ++ d = payload.take (offset + len) := take_append_slice _ _ _
  rw [hcons, List.append_assoc, replayLoop_whole pre _ d _ hd32 _ rfl]
  by_cases hlast : offset + len = payload.length
  · -- the last fragment closes the record
    have hty : fragmentType payload true offset = kPhysicalLast := by
      simp [fragmentType, ← hlen, hlast, h0.ne']
    have hrest : recordsFrom payload true payload.length = [] := recordsFrom_end le_rfl
    simp [hty, replayFragment, kPhysicalLast, kPhysicalFull, kPhysicalFirst, kPhysicalMiddle, happ,
      hlast, he, hrest]
  · -- a middle fragment leaves it open
    have hty : fragmentType payload true offset = kPhysicalMiddle := by
      simp [fragmentType, ← hlen, hlast, h0.ne']
    have hnext := ih (payload.length - (offset + len)) (by omega) (offset + len)
      (pre ++ encodePhysicalRecord kPhysicalMiddle d) rfl (by omega) (by omega)
    simp only [List.append_assoc, List.length_append] at hnext
    simp only [hty, replayFragment, kPhysicalMiddle, kPhysicalFull, kPhysicalFirst, List.headD_cons,
      List.tail_cons, happ, List.length_append] at hnext ⊢
    simpa [Nat.add_assoc] using hnext

/-- How a replay ended: what it emitted, where it would cut, and whether it does. -/
structure Stopped (st : ReplayState) (vo : ℕ) (em : List WalEntry) (damaged : Bool) : Prop where
  emitted : st.emitted = em
  valid_offset : st.valid_offset = vo
  damaged : (st.has_tail_corruption || st.assembling) = damaged

/-- Cut inside an open record, replay emits nothing more and sees the damage. -/
theorem replayLoop_open_torn (payload : Bytes) (vo : ℕ) (em : List WalEntry) :
    ∀ (k offset : ℕ) (pre : Bytes) (p : ℕ), payload.length - offset = k → 0 < offset →
      offset < payload.length → p < (recordsFrom payload true offset).length →
      Stopped (replayLoop (pre ++ (recordsFrom payload true offset).take p)
        ⟨pre.length, vo, false, payload.take offset, true, em⟩) vo em true := by
  intro k
  induction k using Nat.strong_induction_on with
  | _ k ih =>
  intro offset pre p hk h0 hlt hp
  have hpos := fragmentLen_pos (n := payload.length - offset) (by omega)
  have hle := fragmentLen_le (payload.length - offset)
  have hcons := recordsFrom_cons true hlt
  have hd32 := slice_length_lt payload offset
  set len := fragmentLen (payload.length - offset) with hlen
  set d := slice payload offset len with hd
  have happ : payload.take offset ++ d = payload.take (offset + len) := take_append_slice _ _ _
  set ty := fragmentType payload true offset with hty
  rw [hcons] at hp ⊢
  by_cases hin : p < (encodePhysicalRecord ty d).length
  · rw [List.take_append_of_le_length (le_of_lt hin), replayLoop_torn _ _ _ _ hd32 hin _ rfl]
    split_ifs <;> exact ⟨rfl, rfl, by simp⟩
  · -- this fragment is whole, so it is not the last one
    have hlast : offset + len ≠ payload.length := by
      intro h
      have hrest : recordsFrom payload true (offset + len) = [] := recordsFrom_end (by omega)
      rw [hrest] at hp
      simp at hp hin; omega
    have hmid : ty = kPhysicalMiddle := by simp [hty, fragmentType, ← hlen, hlast, h0.ne']
    have hsplit : p = (encodePhysicalRecord ty d).length + (p - (encodePhysicalRecord ty d).length) :=
      by omega
    rw [hsplit, List.take_length_add_append, replayLoop_whole pre _ d _ hd32 _ rfl]
    have hnext := ih (payload.length - (offset + len)) (by omega) (offset + len)
      (pre ++ encodePhysicalRecord kPhysicalMiddle d) (p - (encodePhysicalRecord ty d).length)
      rfl (by omega) (by omega) (by simp only [List.length_append] at hp; omega)
    simp only [List.append_assoc, List.length_append] at hnext
    simpa [hmid, replayFragment, kPhysicalMiddle, kPhysicalFull, kPhysicalFirst, happ] using hnext

/-- A whole logical record is emitted and replay goes on behind it. -/
theorem replayLoop_record {payload : Bytes} {e : WalEntry} (h0 : 0 < payload.length)
    (he : decodeLogicalRecord payload = some e) (pre post : Bytes) (em : List WalEntry) :
    replayLoop (pre ++ ((physicalRecords payload).flatten ++ post))
        ⟨pre.length, pre.length, false, [], false, em⟩ =
      replayLoop (pre ++ ((physicalRecords payload).flatten ++ post))
        ⟨(pre ++ (physicalRecords payload).flatten).length,
          (pre ++ (physicalRecords payload).flatten).length, false, [], false, em ++ [e]⟩ := by
  rw [physicalRecords_flatten h0]
  have hcons := recordsFrom_cons (decide (payload.length > kMaxFragmentPayload)) h0
  have hd32 := slice_length_lt payload 0
  have hpos := fragmentLen_pos (n := payload.length - 0) (by omega)
  have hlen : fragmentLen (payload.length - 0) =
      if payload.length > kMaxFragmentPayload then kMaxFragmentPayload else payload.length := rfl
  rw [hcons, List.append_assoc, replayLoop_whole pre _ _ _ hd32 _ rfl]
  by_cases hbig : payload.length > kMaxFragmentPayload
  · -- the first fragment opens the record, the others complete it
    have hnext := replayLoop_open_whole he post pre.length em _ (0 + fragmentLen (payload.length - 0))
      (pre ++ encodePhysicalRecord kPhysicalFirst (slice payload 0 (fragmentLen (payload.length - 0))))
      rfl (by omega) (by rw [hlen, if_pos hbig]; omega)
    simp only [List.append_assoc, List.length_append] at hnext
    simp only [decide_eq_true hbig, fragmentType, if_true, replayFragment, kPhysicalFull,
      kPhysicalFirst, List.headD_cons, List.tail_cons] at hnext ⊢
    simpa [slice, Nat.add_assoc] using hnext
  · -- one fragment holds it all
    have hrest : recordsFrom payload false (0 + fragmentLen (payload.length - 0)) = [] :=
      recordsFrom_end (by rw [hlen, if_neg hbig]; omega)
    have hall : slice payload 0 (fragmentLen (payload.length - 0)) = payload := by
      rw [hlen, if_neg hbig]; simp [slice]
    simp only [decide_eq_false hbig, hrest, hall]
    simp [fragmentType, replayFragment, kPhysicalFull, he]

/-- A torn record is not emitted; the cut goes unnoticed only below nine bytes. -/
theorem replayLoop_record_torn {payload : Bytes} (h0 : 0 < payload.length) (pre : Bytes) (p : ℕ)
    (hp : p < (physicalRecords payload).flatten.length) (em : List WalEntry) :
    Stopped (replayLoop (pre ++ (physicalRecords payload).flatten.take p)
      ⟨pre.length, pre.length, false, [], false, em⟩) pre.length em (decide (9 ≤ p)) := by
  rw [physicalRecords_flatten h0] at hp ⊢
  have hcons := recordsFrom_cons (decide (payload.length > kMaxFragmentPayload)) h0
  have hd32 := slice_length_lt payload 0
  have hpos := fragmentLen_pos (n := payload.length - 0) (by omega)
  have hlen : fragmentLen (payload.length - 0) =
      if payload.length > kMaxFragmentPayload then kMaxFragmentPayload else payload.length := rfl
  rw [hcons] at hp ⊢
  set d := slice payload 0 (fragmentLen (payload.length - 0)) with hd
  set ty := fragmentType payload (decide (payload.length > kMaxFragmentPayload)) 0 with hty
  by_cases hin : p < (encodePhysicalRecord ty d).length
  · rw [List.take_append_of_le_length (le_of_lt hin), replayLoop_torn _ _ _ _ hd32 hin _ rfl]
    split_ifs with h9
    · exact ⟨rfl, rfl, by simp; omega⟩
    · exact ⟨rfl, rfl, by simp; omega⟩
  · have hbig : payload.length > kMaxFragmentPayload := by
      by_contra hbig
      rw [recordsFrom_end (by rw [hlen, if_neg hbig]; omega)] at hp
      simp at hp hin; omega
    have hfirst : ty = kPhysicalFirst := by simp [hty, fragmentType, hbig]
    have hsplit : p = (encodePhysicalRecord ty d).length + (p - (encodePhysicalRecord ty d).length) :=
      by omega
    rw [hsplit, List.take_length_add_append, replayLoop_whole pre _ d _ hd32 _ rfl]
    have hnext := replayLoop_open_torn payload pre.length em _ (0 + fragmentLen (payload.length - 0))
      (pre ++ encodePhysicalRecord kPhysicalFirst d) (p - (encodePhysicalRecord ty d).length)
      rfl (by omega) (by rw [hlen, if_pos hbig]; omega)
      (by simp only [decide_eq_true hbig, List.length_append] at hp; omega)
    simp only [List.append_assoc, List.length_append] at hnext
    have h9 : 9 ≤ p := by simp at hin; omega
    rw [← hsplit]
    simp only [decide_eq_true h9, decide_eq_true hbig, hfirst, replayFragment, kPhysicalFull,
      kPhysicalFirst, List.headD_cons, List.tail_cons] at hnext ⊢
    simpa [slice, hd] using hnext

end MiniTsdb
