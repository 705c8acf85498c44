import MiniTsdb.Proofs.Crc32
import MiniTsdb.Spec.SSTable

/-! What the checksums give the readers: a byte that is flipped in a block of an SSTable or
in a record of the log never gets through. -/

namespace MiniTsdb
open Lib

theorem set_ne_self {s : Bytes} {i : ℕ} {b : Byte} (hi : i < s.length) (hb : s[i]? ≠ some b) :
    s.set i b ≠ s := by
  intro h
  apply hb
  rw [← h, List.getElem?_set_self hi]

theorem checksum_ne_of_set {raw : Bytes} {i : ℕ} {b : Byte} (hi : i < raw.length)
    (hb : raw[i]? ≠ some b) (hcrc : (crc32 (raw.drop 4) 0#32).toNat = decodeFixed32 raw 0) :
    (crc32 ((raw.set i b).drop 4) 0#32).toNat ≠ decodeFixed32 (raw.set i b) 0 := by
  by_cases h4 : i < 4
  · -- the stored checksum changes, the data does not
    rw [List.drop_set, if_pos h4, hcrc]
    intro h
    have hstored := leValue_injective (by simp [slice]) h
    rw [slice_set_inside _ _ (by omega)] at hstored
    have hi' : i < (slice raw 0 4).length := by
      simp only [slice, List.drop_zero, List.length_take]
      omega
    apply set_ne_self (b := b) hi' _ hstored.symm
    simpa [slice, h4] using hb
  · have hstored : decodeFixed32 (raw.set i b) 0 = decodeFixed32 raw 0 := by
      rw [decodeFixed32, decodeFixed32, slice_set_behind _ _ (by omega)]
    rw [List.drop_set, if_neg h4, hstored, ← hcrc]
    intro h
    have hi' : i - 4 < (raw.drop 4).length := by
      rw [List.length_drop]
      omega
    have hb' : (raw.drop 4)[i - 4]? ≠ some b := by
      rw [List.getElem?_drop, show 4 + (i - 4) = i by omega]
      exact hb
    exact crc32_set_ne hi' hb' 0#32 (BitVec.eq_of_toNat_eq h)

theorem checksum_of_readBlock {file : Bytes} {offset size : ℕ}
    (h : readBlock file offset size ≠ []) :
    4 ≤ size ∧ offset + size ≤ file.length ∧
      (crc32 ((slice file offset size).drop 4) 0#32).toNat =
        decodeFixed32 (slice file offset size) 0 := by
  unfold readBlock at h
  dsimp only at h
  split_ifs at h with hsize hcrc
  · exact absurd rfl h
  · exact ⟨by omega, by omega, hcrc⟩
  · exact absurd rfl h

theorem readBlock_of_damage {file : Bytes} {offset size : ℕ}
    (h : (crc32 ((slice file offset size).drop 4) 0#32).toNat ≠
      decodeFixed32 (slice file offset size) 0) : readBlock file offset size = [] := by
  simp [readBlock, h]

theorem readBlock_set {file : Bytes} {offset size i : ℕ} {b : Byte}
    (hread : readBlock file offset size ≠ []) (hi : offset ≤ i) (hn : i < offset + size)
    (hb : file[i]? ≠ some b) : readBlock (file.set i b) offset size = [] := by
  obtain ⟨hsize, hfit, hcrc⟩ := checksum_of_readBlock hread
  apply readBlock_of_damage
  rw [slice_set_inside _ _ hi]
  apply checksum_ne_of_set _ _ hcrc
  · rw [slice_length hfit]
    omega
  · rw [slice_getElem? _ hi hn]
    exact hb

/-- A byte of the stored checksum or of the fragment; the length between them stays. -/
def InRecord (offset record_end i : ℕ) : Prop :=
  (offset ≤ i ∧ i < offset + 4) ∨ (offset + 8 ≤ i ∧ i < record_end)

theorem readPhysicalRecord_set {data fragment : Bytes} {offset record_end i : ℕ} {b : Byte}
    (hread : readPhysicalRecord data offset = some (fragment, record_end))
    (hi : InRecord offset record_end i) (hb : data[i]? ≠ some b) :
    readPhysicalRecord (data.set i b) offset = none := by
  have hlen : decodeFixed32 (data.set i b) (offset + 4) = decodeFixed32 data (offset + 4) := by
    rw [decodeFixed32, decodeFixed32]
    obtain ⟨_, hi⟩ | ⟨hi, _⟩ := hi
    · rw [slice_set_before _ _ hi]
    · rw [slice_set_behind _ _ (by omega)]
  unfold readPhysicalRecord at hread ⊢
  dsimp only at hread ⊢
  rw [hlen, List.length_set]
  split_ifs at hread with hend hcrc hshort
  simp only [Option.some.injEq, Prod.mk.injEq] at hread
  have hdamage : (crc32 (slice (data.set i b) (offset + 8) (decodeFixed32 data (offset + 4))) 0#32).toNat ≠
      decodeFixed32 (data.set i b) offset := by
    obtain ⟨hi, hn⟩ | ⟨hi, hn⟩ := hi
    · rw [slice_set_before _ _ (by omega), not_not.mp hcrc]
      intro h
      have hstored := leValue_injective (by simp [slice]) h
      rw [slice_set_inside _ _ hi] at hstored
      apply set_ne_self (b := b) _ _ hstored.symm
      · rw [slice_length (by omega)]
        omega
      · rw [slice_getElem? _ hi hn]
        exact hb
    · have hstored : decodeFixed32 (data.set i b) offset = decodeFixed32 data offset := by
        rw [decodeFixed32, decodeFixed32, slice_set_behind _ _ (by omega)]
      rw [slice_set_inside _ _ hi, hstored, ← not_not.mp hcrc]
      intro h
      refine crc32_set_ne ?_ ?_ 0#32 (BitVec.eq_of_toNat_eq h)
      · rw [slice_length (by omega)]
        omega
      · rw [slice_getElem? _ hi (by omega)]
        exact hb
  rw [if_neg hend, if_pos hdamage]

/-- The loop stops at the record and reports the damage. -/
theorem replayLoop_set {data fragment : Bytes} {record_end i : ℕ} {b : Byte} (st : ReplayState)
    (hread : readPhysicalRecord data st.offset = some (fragment, record_end))
    (hi : InRecord st.offset record_end i) (hb : data[i]? ≠ some b) :
    replayLoop (data.set i b) st = { st with has_tail_corruption := true } := by
  have hend := readPhysicalRecord_end hread
  have hnone := readPhysicalRecord_set hread hi hb
  unfold replayLoop
  have hroom : st.offset + kPhysicalHeaderSize ≤ (data.set i b).length := by
    rw [List.length_set, kPhysicalHeaderSize]
    omega
  rw [if_pos hroom]
  split
  · rfl
  · next fragment' record_end' hsome =>
    rw [hnone] at hsome
    simp at hsome

/-- Any difference within four consecutive bytes changes the checksum; a flipped byte of a
block leaves nothing to read, one of a log record stops the replay with the damage seen. -/
theorem crc32_detects_bursts :
    (∀ (xs ys : Bytes) (crc : BitVec 32) (i : ℕ), xs.length = ys.length → xs ≠ ys →
      (∀ j, xs[j]? ≠ ys[j]? → i ≤ j ∧ j < i + 4) → crc32 xs crc ≠ crc32 ys crc) ∧
    (∀ (file : Bytes) (offset size i : ℕ) (b : Byte), readBlock file offset size ≠ [] →
      offset ≤ i → i < offset + size → file[i]? ≠ some b →
      readBlock (file.set i b) offset size = []) ∧
    ∀ (data fragment : Bytes) (record_end i : ℕ) (b : Byte) (st : ReplayState),
      readPhysicalRecord data st.offset = some (fragment, record_end) →
      InRecord st.offset record_end i → data[i]? ≠ some b →
      replayLoop (data.set i b) st = { st with has_tail_corruption := true } := by
  refine ⟨?_, ?_, ?_⟩
  · intro xs ys crc i hlen hne hwindow
    exact crc32_ne_of_burst crc hlen hne hwindow
  · intro file offset size i b hread hi hn hb
    exact readBlock_set hread hi hn hb
  · intro data fragment record_end i b st hread hi hb
    exact replayLoop_set st hread hi hb

set_option maxRecDepth 100000 in
theorem crc32_detects_bursts_of_two_bytes :
    crc32 [1, 2, 3] 0#32 ≠ crc32 [1, 9, 8] 0#32 ∧
      readBlock (encodeBlockRecord [7]) 0 5 ≠ [] ∧
      readBlock ((encodeBlockRecord [7]).set 4 6) 0 5 = [] ∧
      replayLoop ((encodePhysicalRecord kPhysicalFull [7]).set 9 6) .init =
        { ReplayState.init with has_tail_corruption := true } := by
  have hblock : readBlock (encodeBlockRecord [7]) 0 5 ≠ [] := by decide
  have hrecord : readPhysicalRecord (encodePhysicalRecord kPhysicalFull [7]) 0 =
      some ([1, 7], 10) := by decide
  refine ⟨?_, hblock, ?_, ?_⟩
  · apply crc32_detects_bursts.1 _ _ _ 1 (by decide) (by decide)
    intro j hj
    obtain _ | _ | _ | j := j
    · simp at hj
    · omega
    · omega
    · simp at hj
  · exact crc32_detects_bursts.2.1 _ 0 5 4 6 hblock (by decide) (by decide) (by decide)
  · exact crc32_detects_bursts.2.2 _ _ 10 9 6 .init hrecord (Or.inr (by decide)) (by decide)

end MiniTsdb
