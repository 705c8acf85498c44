import MiniTsdb.Proofs.WalReplay

/-! A log cut at any byte. Replay emits the operations that are whole, and the
file it leaves ends on a record boundary unless one to eight bytes of the next
record survive: the loop never looks at a remainder shorter than a header. -/

namespace MiniTsdb
open Lib

/-- The operations whose records lie within the first `p` bytes of their log. -/
def completeOps : List Operation → ℕ → List Operation
  | [], _ => []
  | op :: ops, p =>
    if op.encode.length ≤ p then op :: completeOps ops (p - op.encode.length) else []

/-- The bytes the cut at `p` keeps of the first incomplete record. -/
def tornTail : List Operation → ℕ → ℕ
  | [], _ => 0
  | op :: ops, p => if op.encode.length ≤ p then tornTail ops (p - op.encode.length) else p

def encodeLog (ops : List Operation) : Bytes := (ops.map Operation.encode).flatten

@[simp] theorem encodeLog_nil : encodeLog [] = [] := rfl

@[simp] theorem encodeLog_cons (op : Operation) (ops : List Operation) :
    encodeLog (op :: ops) = op.encode ++ encodeLog ops := rfl

theorem encodeLog_append (as bs : List Operation) :
    encodeLog (as ++ bs) = encodeLog as ++ encodeLog bs := by simp [encodeLog]

theorem payload_pos (op : Operation) : 0 < op.payload.length := by
  have h : 13 ≤ op.payload.length := encodeLogicalRecord_length _ _ _ _
  omega

theorem replayLoop_operation (op : Operation) (pre post : Bytes) (em : List WalEntry) :
    replayLoop (pre ++ (op.encode ++ post)) ⟨pre.length, pre.length, false, [], false, em⟩ =
      replayLoop (pre ++ (op.encode ++ post))
        ⟨(pre ++ op.encode).length, (pre ++ op.encode).length, false, [], false,
          em ++ [op.replayed]⟩ :=
  replayLoop_record (payload_pos op) (decode_payload op) pre post em

theorem replayLoop_operation_torn (op : Operation) (pre : Bytes) (p : ℕ) (hp : p < op.encode.length)
    (em : List WalEntry) :
    Stopped (replayLoop (pre ++ op.encode.take p) ⟨pre.length, pre.length, false, [], false, em⟩)
      pre.length em (decide (9 ≤ p)) :=
  replayLoop_record_torn (payload_pos op) pre p hp em

/-- The cut log is its complete operations followed by the torn tail. -/
theorem encodeLog_take (ops : List Operation) (p : ℕ) :
    ∃ tail, (encodeLog ops).take p = encodeLog (completeOps ops p) ++ tail ∧
      tail.length = tornTail ops p := by
  induction ops generalizing p with
  | nil => exact ⟨[], by simp [completeOps, tornTail]⟩
  | cons op ops ih =>
    by_cases h : op.encode.length ≤ p
    · obtain ⟨tail, h1, h2⟩ := ih (p - op.encode.length)
      refine ⟨tail, ?_, by rw [tornTail, if_pos h, h2]⟩
      rw [encodeLog_cons, completeOps, if_pos h, encodeLog_cons, List.append_assoc, ← h1,
        List.take_append, List.take_of_length_le h]
    · refine ⟨op.encode.take p, ?_, by rw [tornTail, if_neg h]; simp; omega⟩
      rw [encodeLog_cons, completeOps, if_neg h, List.take_append_of_le_length (by omega)]
      rfl

theorem replayLoop_log (ops : List Operation) (pre post : Bytes) (em : List WalEntry) :
    replayLoop (pre ++ (encodeLog ops ++ post)) ⟨pre.length, pre.length, false, [], false, em⟩ =
      replayLoop (pre ++ (encodeLog ops ++ post))
        ⟨(pre ++ encodeLog ops).length, (pre ++ encodeLog ops).length, false, [], false,
          em ++ ops.map Operation.replayed⟩ := by
  induction ops generalizing pre em with
  | nil => simp
  | cons op ops ih =>
    have h1 := replayLoop_operation op pre (encodeLog ops ++ post) em
    have h2 := ih (pre ++ op.encode) (em ++ [op.replayed])
    simp only [encodeLog_cons, List.append_assoc, List.map_cons] at h1 h2 ⊢
    exact h1.trans (by simpa using h2)

theorem replayLoop_cut (ops : List Operation) (p : ℕ) :
    Stopped (replayLoop ((encodeLog ops).take p) .init) (encodeLog (completeOps ops p)).length
      ((completeOps ops p).map Operation.replayed) (decide (9 ≤ tornTail ops p)) := by
  suffices h : ∀ (pre : Bytes) (em : List WalEntry),
      Stopped (replayLoop (pre ++ (encodeLog ops).take p)
        ⟨pre.length, pre.length, false, [], false, em⟩)
        (pre ++ encodeLog (completeOps ops p)).length
        (em ++ (completeOps ops p).map Operation.replayed) (decide (9 ≤ tornTail ops p)) by
    simpa [ReplayState.init] using h [] []
  induction ops generalizing p with
  | nil =>
    intro pre em
    rw [replayLoop, if_neg (by simp [kPhysicalHeaderSize])]
    exact ⟨by simp [completeOps], by simp [completeOps], by simp [tornTail]⟩
  | cons op ops ih =>
    intro pre em
    by_cases h : op.encode.length ≤ p
    · have h1 := replayLoop_operation op pre ((encodeLog ops).take (p - op.encode.length)) em
      have h2 := ih (p - op.encode.length) (pre ++ op.encode) (em ++ [op.replayed])
      simp only [completeOps, tornTail, if_pos h, encodeLog_cons, List.take_append,
        List.take_of_length_le h, List.append_assoc, List.map_cons, List.singleton_append] at h2 ⊢
      exact h1 ▸ h2
    · have h1 := replayLoop_operation_torn op pre p (by omega) em
      simp only [completeOps, tornTail, if_neg h, encodeLog_cons,
        List.take_append_of_le_length (le_of_not_ge h), encodeLog_nil, List.append_nil,
        List.map_nil] at h1 ⊢
      exact h1

theorem appendAll_empty (ops : List Operation) : ((WAL.mk []).appendAll ops).file = encodeLog ops := by
  rw [appendAll_file]; rfl

theorem replayEntries_cut (ops : List Operation) (p : ℕ) :
    (WAL.mk ((encodeLog ops).take p)).replayEntries =
      ((completeOps ops p).map Operation.replayed,
        if 9 ≤ tornTail ops p then ⟨encodeLog (completeOps ops p)⟩
        else ⟨(encodeLog ops).take p⟩) := by
  have h := replayLoop_cut ops p
  obtain ⟨tail, htake, -⟩ := encodeLog_take ops p
  simp only [WAL.replayEntries, h.emitted, h.valid_offset, h.damaged, decide_eq_true_eq]
  rw [htake, List.take_left]

theorem completeOps_all (ops : List Operation) {p : ℕ} (h : (encodeLog ops).length ≤ p) :
    completeOps ops p = ops := by
  induction ops generalizing p with
  | nil => rfl
  | cons op ops ih =>
    simp only [encodeLog_cons, List.length_append] at h
    rw [completeOps, if_pos (by omega), ih (by omega)]

/-- Replay of an undamaged log returns it and leaves the file as it is. -/
theorem replayEntries_log (ops : List Operation) (hm : ∀ op ∈ ops, op.measurement.length < 2 ^ 32) :
    (WAL.mk (encodeLog ops)).replayEntries = (ops.map Operation.walEntry, ⟨encodeLog ops⟩) := by
  have h := replayEntries_cut ops (encodeLog ops).length
  rw [List.take_length, completeOps_all ops le_rfl, ite_self] at h
  rw [h]
  congr 1
  exact List.map_congr_left fun op hop => replayed_eq op (hm op hop)

/-- Where the fragments of a record end, if it starts at `base`. -/
def fragmentEnds (base : ℕ) : List Bytes → List ℕ
  | [] => []
  | r :: rs => (base + r.length) :: fragmentEnds (base + r.length) rs

/-- The operations, in order, all of whose fragments lie within the first `n`
bytes of the log; `base` is where the first one starts. -/
def completeWithin (n : ℕ) : ℕ → List Operation → List Operation
  | _, [] => []
  | base, op :: ops =>
    let rest := completeWithin n (base + op.encode.length) ops
    if ∀ e ∈ fragmentEnds base (physicalRecords op.payload), e ≤ n then op :: rest else rest

theorem fragmentEnds_le_iff (base n : ℕ) (rs : List Bytes) (hrs : rs ≠ []) :
    (∀ e ∈ fragmentEnds base rs, e ≤ n) ↔ base + rs.flatten.length ≤ n := by
  induction rs generalizing base with
  | nil => contradiction
  | cons r rs ih =>
    cases rs with
    | nil => simp [fragmentEnds]
    | cons r' rs =>
      have h := ih (base + r.length) (by simp)
      rw [fragmentEnds, List.forall_mem_cons, h]
      simp only [List.flatten_cons, List.length_append]
      omega

theorem physicalRecords_ne_nil (op : Operation) : physicalRecords op.payload ≠ [] := by
  have h := payload_pos op
  have hne : op.payload.isEmpty = false := by simpa using List.ne_nil_of_length_pos h
  rw [physicalRecords, fragments, hne, if_neg (by simp), fragmentLoop, dif_pos h]
  simp

theorem encode_length_pos (op : Operation) : 0 < op.encode.length := by
  cases h : physicalRecords op.payload with
  | nil => exact absurd h (physicalRecords_ne_nil op)
  | cons r rs =>
    have hmem : r ∈ physicalRecords op.payload := by rw [h]; exact List.mem_cons_self
    obtain ⟨f, -, rfl⟩ := List.mem_map.mp hmem
    rw [Operation.encode, h]
    simp

theorem completeWithin_beyond {n base : ℕ} (h : n ≤ base) (ops : List Operation) :
    completeWithin n base ops = [] := by
  induction ops generalizing base with
  | nil => rfl
  | cons op ops ih =>
    have hpos := encode_length_pos op
    have hout : ¬ ∀ e ∈ fragmentEnds base (physicalRecords op.payload), e ≤ n := by
      rw [fragmentEnds_le_iff _ _ _ (physicalRecords_ne_nil op)]
      simp only [Operation.encode] at hpos
      omega
    rw [completeWithin, if_neg hout]
    exact ih (by omega)

theorem completeWithin_eq (n : ℕ) (base : ℕ) (ops : List Operation) (h : base ≤ n) :
    completeWithin n base ops = completeOps ops (n - base) := by
  induction ops generalizing base with
  | nil => rfl
  | cons op ops ih =>
    have hiff := fragmentEnds_le_iff base n _ (physicalRecords_ne_nil op)
    rw [completeWithin, completeOps]
    by_cases hop : op.encode.length ≤ n - base
    · rw [if_pos (hiff.mpr (by simp only [Operation.encode] at hop; omega)), if_pos hop,
        ih _ (by omega), Nat.sub_add_eq]
    · rw [if_neg (fun hall => hop (by have := hiff.mp hall; simp only [Operation.encode]; omega)),
        if_neg hop]
      exact completeWithin_beyond (by omega) ops

/-- Replaying the first `n` bytes of a log returns, in order and unchanged, the
operations that have all their fragments there, and nothing else. -/
theorem replay_of_cut_log (ops : List Operation) (hm : ∀ op ∈ ops, op.measurement.length < 2 ^ 32)
    (n : ℕ) :
    (WAL.mk (((WAL.mk []).appendAll ops).file.take n)).replayEntries.1 =
      (completeWithin n 0 ops).map Operation.walEntry := by
  rw [appendAll_empty, replayEntries_cut, completeWithin_eq n 0 ops (Nat.zero_le n), Nat.sub_zero]
  have hsub : ∀ (ops : List Operation) (p : ℕ), ∀ op ∈ completeOps ops p, op ∈ ops := by
    intro ops
    induction ops with
    | nil => intro p op h; simp [completeOps] at h
    | cons o ops ih =>
      intro p op h
      rw [completeOps] at h
      split_ifs at h
      · rcases List.mem_cons.mp h with rfl | h
        · exact List.mem_cons_self
        · exact List.mem_cons_of_mem _ (ih _ _ h)
      · simp at h
  exact List.map_congr_left fun op hop => replayed_eq op (hm op (hsub ops n op hop))

theorem replay_of_cut_log_thirty :
    (∀ op ∈ [Operation.put [7] 1 [2], .delete [7] 1], op.measurement.length < 2 ^ 32) ∧
      (WAL.mk (((WAL.mk []).appendAll [.put [7] 1 [2], .delete [7] 1]).file.take 30)).replayEntries.1 =
        (completeWithin 30 0 [.put [7] 1 [2], .delete [7] 1]).map Operation.walEntry :=
  ⟨by decide, replay_of_cut_log _ (by decide) 30⟩

end MiniTsdb
