import MiniTsdb.Proofs.WalCut

/-! Appending after a recovery. Operations appended behind a recovered log replay
exactly when recovery left the file on a record boundary. -/

namespace MiniTsdb
open Lib

/-- Recover the log of `ops` cut at `n`, append any operations, replay again: what
was recovered and what was appended come back. -/
def UsableAfterCut (ops : List Operation) (n : ℕ) : Prop :=
  ∀ more : List Operation, (∀ op ∈ more, op.measurement.length < 2 ^ 32) →
    ((WAL.mk (((WAL.mk []).appendAll ops).file.take n)).replayEntries.2.appendAll more).replayEntries.1 =
      (WAL.mk (((WAL.mk []).appendAll ops).file.take n)).replayEntries.1 ++
        more.map Operation.walEntry

theorem encode_small (op : Operation) (h : op.payload.length ≤ kMaxFragmentPayload) :
    op.encode = encodePhysicalRecord kPhysicalFull op.payload := by
  have hpos := payload_pos op
  have hlen : fragmentLen (op.payload.length - 0) = op.payload.length := by
    rw [Nat.sub_zero, fragmentLen, if_neg (by omega)]
  have hrest : recordsFrom op.payload false op.payload.length = [] := recordsFrom_end le_rfl
  rw [Operation.encode, physicalRecords_flatten hpos, decide_eq_false (by omega),
    recordsFrom_cons false hpos, hlen, Nat.zero_add, hrest, List.append_nil]
  simp [fragmentType, slice]

/-- The operation that shows the damage: its record starts with a byte that is no
physical type. -/
def probeOp : Operation := .put [] 0 []

theorem probe_encode :
    probeOp.encode = [52, 65, 34, 145, 14, 0, 0, 0, 1, 1, 0, 0, 0, 0, 0, 0, 0, 0, 0, 0, 0, 0] := by
  rw [encode_small _ (by decide)]
  decide +kernel

/-- One to seven stray bytes shift a large byte into the length field. -/
theorem stray_length (tail : Bytes) (h1 : 1 ≤ tail.length) (h7 : tail.length ≤ 7) :
    22 ≤ decodeFixed32 (tail ++ probeOp.encode) 4 := by
  rw [probe_encode, decodeFixed32]
  obtain _ | ⟨a, _ | ⟨b, _ | ⟨c, _ | ⟨d, _ | ⟨e, _ | ⟨f, _ | ⟨g, _ | ⟨x, xs⟩⟩⟩⟩⟩⟩⟩⟩ := tail
  · contradiction
  · exact le_trans (by norm_num) (le_leValue [145] 14 [0, 0])
  · exact le_trans (by norm_num) (le_leValue [34, 145] 14 [0])
  · exact le_trans (by norm_num) (le_leValue [65, 34, 145] 14 [])
  · exact le_trans (by norm_num) (le_leValue [] 52 [65, 34, 145])
  · exact le_trans (by norm_num) (le_leValue [e] 52 [65, 34])
  · exact le_trans (by norm_num) (le_leValue [e, f] 52 [65])
  · exact le_trans (by norm_num) (le_leValue [e, f, g] 52 [])
  · simp only [List.length_cons] at h7
    omega

/-- Behind one to eight stray bytes the probe is never emitted. -/
theorem replayLoop_stray (pre tail : Bytes) (h1 : 1 ≤ tail.length) (h8 : tail.length ≤ 8)
    (em : List WalEntry) :
    (replayLoop (pre ++ (tail ++ probeOp.encode))
      ⟨pre.length, pre.length, false, [], false, em⟩).emitted = em := by
  have hplen : probeOp.encode.length = 22 := by rw [probe_encode]; rfl
  rw [replayLoop, if_pos (by simp [kPhysicalHeaderSize, hplen])]
  split
  · rfl
  · next fragment record_end h =>
    rw [readPhysicalRecord, decodeFixed32, slice_append_right] at h
    dsimp only at h
    split_ifs at h with hend hcrc hlt
    simp only [Option.some.injEq, Prod.mk.injEq] at h
    obtain ⟨hfrag, -⟩ := h
    by_cases h7 : tail.length ≤ 7
    · -- the length read runs past the end of the file
      have hlen := stray_length tail h1 h7
      simp only [decodeFixed32] at hlen
      simp only [List.length_append, hplen] at hend
      omega
    · -- eight stray bytes: the fragment starts with the first byte of the probe
      have ht : tail.length = 8 := by omega
      have hhead : fragment.headD 0 = 52 := by
        obtain ⟨n, hn⟩ : ∃ n, leValue (slice (tail ++ probeOp.encode) 4 4) = n + 1 :=
          ⟨_, (Nat.succ_pred (by omega)).symm⟩
        rw [← hfrag, slice_append_right, ← ht, ← Nat.add_zero tail.length, slice_append_right, hn,
          probe_encode]
        rfl
      have hnone : ∀ st, replayFragment st fragment record_end = none := by
        intro st
        simp only [replayFragment, hhead]
        simp [kPhysicalFull, kPhysicalFirst, kPhysicalMiddle, kPhysicalLast]
      rw [hnone]

theorem not_usable_of_stray {ops : List Operation} {n : ℕ} (h1 : 1 ≤ tornTail ops n)
    (h8 : tornTail ops n ≤ 8) : ¬ UsableAfterCut ops n := by
  obtain ⟨tail, htake, htail⟩ := encodeLog_take ops n
  unfold UsableAfterCut
  rw [appendAll_empty, replayEntries_cut]
  intro h
  have hp := h [probeOp] (by simp [probeOp, Operation.measurement])
  have hstray := replayLoop_stray (encodeLog (completeOps ops n)) tail (by omega) (by omega)
    ((completeOps ops n).map Operation.replayed)
  have hlog := replayLoop_log (completeOps ops n) [] (tail ++ probeOp.encode) []
  rw [if_neg (by omega), htake] at hp
  simp only [List.nil_append, List.length_nil] at hlog
  simp only [WAL.replayEntries, WAL.appendAll, List.foldl_cons, List.foldl_nil, append_file,
    List.append_assoc, ReplayState.init, hlog, hstray] at hp
  simp at hp

theorem usable_of_boundary {ops : List Operation} {n : ℕ}
    (hgood : ¬ (1 ≤ tornTail ops n ∧ tornTail ops n ≤ 8)) : UsableAfterCut ops n := by
  obtain ⟨tail, htake, htail⟩ := encodeLog_take ops n
  intro more hmore
  rw [appendAll_empty, replayEntries_cut]
  dsimp only
  have hfile : (if 9 ≤ tornTail ops n then (⟨encodeLog (completeOps ops n)⟩ : WAL)
      else ⟨(encodeLog ops).take n⟩) = ⟨encodeLog (completeOps ops n)⟩ := by
    split_ifs with h9
    · rfl
    · have hnil : tail = [] := List.eq_nil_of_length_eq_zero (by omega)
      rw [htake, hnil, List.append_nil]
  have hlog : (WAL.mk (encodeLog (completeOps ops n))).appendAll more =
      ⟨encodeLog (completeOps ops n ++ more)⟩ := by
    have h := appendAll_file more ⟨encodeLog (completeOps ops n)⟩
    rw [encodeLog_append]
    exact congrArg WAL.mk h
  have hcut := replayEntries_cut (completeOps ops n ++ more)
    (encodeLog (completeOps ops n ++ more)).length
  rw [List.take_length, completeOps_all _ le_rfl] at hcut
  have hmap : more.map Operation.replayed = more.map Operation.walEntry :=
    List.map_congr_left fun op hop => replayed_eq op (hmore op hop)
  rw [hfile, hlog, hcut, List.map_append, hmap]

/-- The log is usable after recovering from a cut exactly when the cut does not keep
one to eight bytes of the first incomplete record. -/
theorem usable_after_cut_iff (ops : List Operation) (n : ℕ) :
    UsableAfterCut ops n ↔ ¬ (1 ≤ tornTail ops n ∧ tornTail ops n ≤ 8) :=
  ⟨fun h hstray => not_usable_of_stray hstray.1 hstray.2 h, usable_of_boundary⟩

/-- Five bytes of a torn record: replay leaves them in place, and the next append
is lost behind them. -/
theorem five_stray_bytes : ¬ UsableAfterCut [.put [] 0 []] 5 := by
  have hlen : (Operation.put [] 0 []).encode.length = 22 := by
    rw [show Operation.put [] 0 [] = probeOp from rfl, probe_encode]; rfl
  have htail : tornTail [.put [] 0 []] 5 = 5 := by
    rw [tornTail, hlen]; rfl
  exact not_usable_of_stray (by omega) (by omega)

end MiniTsdb
