import MiniTsdb.Proofs.WalCut

/-! Appends that fail half way. Replay takes what was accepted before the first torn append,
and, unless the torn bytes pass for a record, nothing of what comes behind it. -/

namespace MiniTsdb
open Lib

/-- One call of `AppendRecord`: it returned OK, or an `fwrite` took too few bytes. -/
inductive AppendCall
  | ok (op : Operation)
  | short (op : Operation) (i n : ℕ)
      (h : ∃ r, (physicalRecords op.payload)[i]? = some r ∧ n < r.length)

namespace AppendCall

def apply (wal : WAL) : AppendCall → WAL
  | ok op => op.append wal
  | short op i n _ => op.appendShort wal i n

def bytes : AppendCall → Bytes
  | ok op => op.encode
  | short op i n _ =>
    ((physicalRecords op.payload).take i).flatten ++ ((physicalRecords op.payload).getD i []).take n

def accepted : AppendCall → Option Operation
  | ok op => some op
  | short .. => none

/-- The call failed, and not before its first byte. -/
def tears : AppendCall → Bool
  | ok _ => false
  | short _ i n _ => i != 0 || n != 0

end AppendCall

def logBytes (calls : List AppendCall) : Bytes := (calls.map AppendCall.bytes).flatten

def acceptedOps (calls : List AppendCall) : List Operation := calls.filterMap AppendCall.accepted

def logAfter (calls : List AppendCall) : WAL := calls.foldl AppendCall.apply ⟨[]⟩

/-- Replay emits every accepted operation, in order. -/
def AllReplayed (calls : List AppendCall) : Prop :=
  ((acceptedOps calls).map Operation.walEntry).Sublist (logAfter calls).replayEntries.1

/-- No call is accepted behind one that tears the log, and every accepted measurement has a
length that the record can hold. -/
structure HarmlessFailures (calls : List AppendCall) : Prop where
  none_behind : calls.Pairwise fun a b => a.tears = true → b.accepted = none
  lengths : ∀ op ∈ acceptedOps calls, op.measurement.length < 2 ^ 32

/-- Where the first physical record begins that is in the log in part; `base` is where the
calls begin. -/
def tornAt : ℕ → List AppendCall → Option ℕ
  | _, [] => none
  | base, .ok op :: calls => tornAt (base + op.encode.length) calls
  | base, .short op i n _ :: calls =>
    let whole := base + ((physicalRecords op.payload).take i).flatten.length
    if n = 0 then tornAt whole calls else some whole

/-- The torn record does not pass for a record together with the bytes behind it. -/
def TornNoticed (calls : List AppendCall) : Prop :=
  ∀ offset, tornAt 0 calls = some offset → readPhysicalRecord (logBytes calls) offset = none

theorem logAfter_file (calls : List AppendCall) : (logAfter calls).file = logBytes calls := by
  suffices h : ∀ wal : WAL, (calls.foldl AppendCall.apply wal).file = wal.file ++ logBytes calls from
    h ⟨[]⟩
  induction calls with
  | nil => intro wal; simp [logBytes]
  | cons a calls ih =>
    intro wal
    have hone : (a.apply wal).file = wal.file ++ a.bytes := by
      cases a with
      | ok op => exact append_file wal op
      | short op i n h => cases op <;> rfl
    rw [List.foldl_cons, ih, hone, List.append_assoc]
    rfl

/-- The entries that were emitted on top of `em`, each decoded from some payload. -/
def Emits (em em' : List WalEntry) : Prop :=
  ∃ more, em' = em ++ more ∧ ∀ e ∈ more, ∃ payload, decodeLogicalRecord payload = some e

theorem Emits.refl (em : List WalEntry) : Emits em em := ⟨[], by simp, fun _ h => by contradiction⟩

theorem Emits.one (em : List WalEntry) {payload : Bytes} {e : WalEntry}
    (h : decodeLogicalRecord payload = some e) : Emits em (em ++ [e]) :=
  ⟨[e], rfl, fun e' he' => ⟨payload, by rw [List.mem_singleton.mp he', h]⟩⟩

theorem Emits.trans {em em₁ em₂ : List WalEntry} (h₁ : Emits em em₁) (h₂ : Emits em₁ em₂) :
    Emits em em₂ := by
  obtain ⟨more₁, rfl, hd₁⟩ := h₁
  obtain ⟨more₂, rfl, hd₂⟩ := h₂
  refine ⟨more₁ ++ more₂, List.append_assoc _ _ _, fun e he => ?_⟩
  exact (List.mem_append.mp he).elim (hd₁ e) (hd₂ e)

theorem replayFragment_emits {st st' : ReplayState} {fragment : Bytes} {record_end : ℕ}
    (h : replayFragment st fragment record_end = some st') : Emits st.emitted st'.emitted := by
  unfold replayFragment at h
  dsimp only at h
  split_ifs at h with hfull hasm hput
  · cases hnew : decodeLogicalRecord fragment.tail with
    | some e =>
      rw [hnew] at h
      obtain rfl := Option.some.inj h
      exact .one _ hnew
    | none =>
      rw [hnew] at h
      dsimp only at h
      split at h
      · rename_i e hlegacy
        obtain rfl := Option.some.inj h
        exact .one _ hlegacy
      · contradiction
  · exact absurd hfull hput
  · obtain rfl := Option.some.inj h
    exact .refl _
  · obtain rfl := Option.some.inj h
    exact .refl _
  · split at h
    · rename_i e he
      obtain rfl := Option.some.inj h
      exact .one _ he
    · contradiction

theorem replayLoop_emits (data : Bytes) (st : ReplayState) :
    Emits st.emitted (replayLoop data st).emitted := by
  induction st using replayLoop.induct data with
  | case1 st hlen hread =>
    rw [replayLoop, if_pos hlen]
    split
    · exact .refl _
    · rename_i h
      rw [hread] at h
      contradiction
  | case2 st hlen fragment record_end hread hfragment =>
    rw [replayLoop, if_pos hlen]
    split
    · exact .refl _
    · rename_i h
      obtain ⟨rfl, rfl⟩ := Prod.mk.inj (Option.some.inj (hread.symm.trans h))
      rw [hfragment]
      exact .refl _
  | case3 st hlen fragment record_end hread st' hfragment ih =>
    rw [replayLoop, if_pos hlen]
    split
    · exact .refl _
    · rename_i h
      obtain ⟨rfl, rfl⟩ := Prod.mk.inj (Option.some.inj (hread.symm.trans h))
      rw [hfragment]
      exact (replayFragment_emits hfragment).trans ih
  | case4 st hlen =>
    rw [replayLoop, if_neg hlen]
    exact .refl _

theorem decodeLogicalRecord_measurement {payload : Bytes} {e : WalEntry}
    (h : decodeLogicalRecord payload = some e) : e.measurement.length < 2 ^ 32 := by
  have hfield := decodeFixed32_lt payload 1
  have hle : ∀ n, (slice payload 13 n).length ≤ n := fun n => List.length_take_le _ _
  rw [decodeLogicalRecord] at h
  dsimp only at h
  split_ifs at h
  · obtain rfl := Option.some.inj h
    exact (hle _).trans_lt hfield
  · obtain rfl := Option.some.inj h
    exact (hle _).trans_lt hfield

theorem replayLoop_stops {data : Bytes} {st : ReplayState}
    (h : readPhysicalRecord data st.offset = none) : (replayLoop data st).emitted = st.emitted := by
  rw [replayLoop]
  split_ifs
  · split
    · rfl
    · rename_i hread
      rw [h] at hread
      contradiction
  · rfl

/-- A first or only fragment ends the replay of an open record. -/
theorem replayLoop_reopened {ty : Byte} (hty : ty = kPhysicalFull ∨ ty = kPhysicalFirst) {d : Bytes}
    (hd : d.length + 1 < 2 ^ 32) (pre post : Bytes) {st : ReplayState} (ho : st.offset = pre.length)
    (hopen : st.assembling = true) :
    (replayLoop (pre ++ (encodePhysicalRecord ty d ++ post)) st).emitted = st.emitted := by
  rw [replayLoop_whole pre ty d post hd st ho]
  have hnone : replayFragment st (ty :: d) (pre.length + (encodePhysicalRecord ty d).length) =
      none := by
    rcases hty with rfl | rfl <;>
      simp [replayFragment, hopen, kPhysicalFull, kPhysicalFirst]
  rw [hnone]

theorem physicalRecords_eq (op : Operation) : physicalRecords op.payload =
    (fragmentLoop op.payload (op.payload.length > kMaxFragmentPayload) 0).map
      fun f => encodePhysicalRecord f.1 f.2 := by
  have hpos := payload_pos op
  have hne : op.payload.isEmpty = false := by
    cases h : op.payload with
    | nil => rw [h] at hpos; contradiction
    | cons => rfl
  rw [physicalRecords, fragments, hne]
  rfl

theorem fragmentLoop_cons {payload : Bytes} (fragmented : Bool) {offset : ℕ}
    (h : offset < payload.length) :
    fragmentLoop payload fragmented offset =
      (fragmentType payload fragmented offset,
        slice payload offset (fragmentLen (payload.length - offset))) ::
      fragmentLoop payload fragmented (offset + fragmentLen (payload.length - offset)) := by
  rw [fragmentLoop, dif_pos h]
  rfl

theorem fragmentLoop_end {payload : Bytes} {fragmented : Bool} {offset : ℕ}
    (h : payload.length ≤ offset) : fragmentLoop payload fragmented offset = [] := by
  rw [fragmentLoop, dif_neg (by omega)]

/-- The first record of an append opens it or is all of it. -/
theorem physicalRecords_cons (op : Operation) : ∃ ty d rest,
    physicalRecords op.payload = encodePhysicalRecord ty d :: rest ∧
      (ty = kPhysicalFull ∨ ty = kPhysicalFirst) ∧ d.length + 1 < 2 ^ 32 := by
  rw [physicalRecords_eq, fragmentLoop_cons _ (payload_pos op), List.map_cons]
  refine ⟨_, _, _, rfl, ?_, slice_length_lt op.payload 0⟩
  rw [fragmentType, if_pos rfl]
  split_ifs
  · exact Or.inr rfl
  · exact Or.inl rfl

theorem replayLoop_middle {payload : Bytes} (post : Bytes) (vo : ℕ) (em : List WalEntry) (i : ℕ) :
    ∀ (offset : ℕ) (pre part : Bytes), 0 < offset →
      i < (fragmentLoop payload true offset).length →
      ∃ taken part', ((fragmentLoop payload true offset).map fun f =>
          encodePhysicalRecord f.1 f.2).take i = taken ∧
        replayLoop (pre ++ (taken.flatten ++ post)) ⟨pre.length, vo, false, part, true, em⟩ =
          replayLoop (pre ++ (taken.flatten ++ post))
            ⟨(pre ++ taken.flatten).length, vo, false, part', true, em⟩ := by
  induction i with
  | zero => exact fun offset pre part _ _ => ⟨[], part, rfl, by simp⟩
  | succ i ih =>
    intro offset pre part h0 hi
    have hlt : offset < payload.length := by
      by_contra hge
      rw [fragmentLoop_end (not_lt.mp hge)] at hi
      contradiction
    have hd32 := slice_length_lt payload offset
    rw [fragmentLoop_cons true hlt] at hi ⊢
    rw [List.length_cons] at hi
    have hmiddle : fragmentType payload true offset = kPhysicalMiddle := by
      have hlast : ¬ offset + fragmentLen (payload.length - offset) = payload.length := by
        intro h
        rw [h, fragmentLoop_end le_rfl] at hi
        simp at hi
      rw [fragmentType, if_pos rfl, if_neg h0.ne', if_neg hlast]
    rw [hmiddle]
    set d := slice payload offset (fragmentLen (payload.length - offset)) with hd
    obtain ⟨taken, part', htaken, hloop⟩ := ih (offset + fragmentLen (payload.length - offset))
      (pre ++ encodePhysicalRecord kPhysicalMiddle d) (part ++ d) (by omega) (by omega)
    refine ⟨encodePhysicalRecord kPhysicalMiddle d :: taken, part', ?_, ?_⟩
    · rw [List.map_cons, List.take_succ_cons, htaken]
    · have hone := replayLoop_whole pre kPhysicalMiddle d (taken.flatten ++ post) hd32
        ⟨pre.length, vo, false, part, true, em⟩ rfl
      rw [List.flatten_cons, List.append_assoc]
      rw [List.append_assoc, List.append_assoc, List.length_append] at hloop
      exact hone.trans hloop

/-- All but the last fragment leave a record open. -/
theorem replayLoop_first_fragments (op : Operation) (pre post : Bytes) (em : List WalEntry) {i : ℕ}
    (h0 : 0 < i) (hi : i < (physicalRecords op.payload).length) :
    ∃ part, replayLoop (pre ++ (((physicalRecords op.payload).take i).flatten ++ post))
        ⟨pre.length, pre.length, false, [], false, em⟩ =
      replayLoop (pre ++ (((physicalRecords op.payload).take i).flatten ++ post))
        ⟨(pre ++ ((physicalRecords op.payload).take i).flatten).length, pre.length, false, part, true,
          em⟩ := by
  obtain ⟨i, rfl⟩ := Nat.exists_eq_succ_of_ne_zero h0.ne'
  have hpos := fragmentLen_pos (n := op.payload.length - 0) (payload_pos op)
  have hd32 := slice_length_lt op.payload 0
  rw [physicalRecords_eq, List.length_map] at hi
  rw [physicalRecords_eq]
  rw [fragmentLoop_cons _ (payload_pos op), List.length_cons] at hi
  rw [fragmentLoop_cons _ (payload_pos op)]
  have hbig : op.payload.length > kMaxFragmentPayload := by
    by_contra hsmall
    have hall : fragmentLen (op.payload.length - 0) = op.payload.length - 0 := if_neg hsmall
    rw [hall, fragmentLoop_end (by omega)] at hi
    simp at hi
  rw [decide_eq_true hbig] at hi ⊢
  have hfirst : fragmentType op.payload true 0 = kPhysicalFirst := rfl
  rw [hfirst]
  set d := slice op.payload 0 (fragmentLen (op.payload.length - 0)) with hd
  obtain ⟨taken, part, htaken, hloop⟩ := replayLoop_middle post pre.length em i
    (0 + fragmentLen (op.payload.length - 0)) (pre ++ encodePhysicalRecord kPhysicalFirst d) d
    (by omega) (Nat.lt_of_succ_lt_succ hi)
  refine ⟨part, ?_⟩
  have hone := replayLoop_whole pre kPhysicalFirst d (taken.flatten ++ post) hd32
    ⟨pre.length, pre.length, false, [], false, em⟩ rfl
  rw [List.map_cons, List.take_succ_cons, htaken, List.flatten_cons, List.append_assoc]
  rw [List.append_assoc, List.append_assoc, List.length_append] at hloop
  exact hone.trans hloop

theorem logBytes_cons (a : AppendCall) (calls : List AppendCall) :
    logBytes (a :: calls) = a.bytes ++ logBytes calls := rfl

theorem bytes_of_not_tears {op : Operation} {i n : ℕ}
    {h : ∃ r, (physicalRecords op.payload)[i]? = some r ∧ n < r.length}
    (ht : (AppendCall.short op i n h).tears = false) :
    (AppendCall.short op i n h).bytes = [] ∧ i = 0 ∧ n = 0 := by
  obtain ⟨rfl, rfl⟩ : i = 0 ∧ n = 0 := by simpa [AppendCall.tears] using ht
  exact ⟨by simp [AppendCall.bytes], rfl, rfl⟩

/-- With a record open, nothing that is appended afterwards is emitted. -/
theorem replayLoop_open_calls (pre : Bytes) {st : ReplayState} (ho : st.offset = pre.length)
    (hopen : st.assembling = true) {calls : List AppendCall}
    (hnoticed : ∀ offset, tornAt pre.length calls = some offset →
      readPhysicalRecord (pre ++ logBytes calls) offset = none) :
    (replayLoop (pre ++ logBytes calls) st).emitted = st.emitted := by
  induction calls with
  | nil =>
    rw [replayLoop, if_neg (by simp [logBytes, ho, kPhysicalHeaderSize])]
  | cons a calls ih =>
    cases a with
    | ok op =>
      obtain ⟨ty, d, rest, hrecords, hty, hd⟩ := physicalRecords_cons op
      rw [logBytes_cons, AppendCall.bytes, Operation.encode, hrecords, List.flatten_cons,
        List.append_assoc]
      exact replayLoop_reopened hty hd pre _ ho hopen
    | short op i n h =>
      cases ht : (AppendCall.short op i n h).tears with
      | false =>
        obtain ⟨hbytes, rfl, rfl⟩ := bytes_of_not_tears ht
        rw [logBytes_cons, hbytes, List.nil_append] at hnoticed ⊢
        exact ih hnoticed
      | true =>
        cases i with
        | zero =>
          have hn : n ≠ 0 := by simpa [AppendCall.tears] using ht
          refine replayLoop_stops ?_
          rw [ho]
          exact hnoticed _ (by rw [tornAt, if_neg hn]; rfl)
        | succ i =>
          obtain ⟨ty, d, rest, hrecords, hty, hd⟩ := physicalRecords_cons op
          rw [logBytes_cons, AppendCall.bytes, hrecords, List.take_succ_cons, List.flatten_cons,
            List.append_assoc, List.append_assoc]
          exact replayLoop_reopened hty hd pre _ ho hopen

/-- The calls before the first one that tears the log, and those from it on. -/
def wholeCalls (calls : List AppendCall) : List AppendCall := calls.takeWhile fun a => !a.tears

def tornCalls (calls : List AppendCall) : List AppendCall := calls.dropWhile fun a => !a.tears

/-- If the torn record is noticed, replay emits what was accepted before it. -/
theorem replayLoop_calls (pre : Bytes) (em : List WalEntry) {calls : List AppendCall}
    (hnoticed : ∀ offset, tornAt pre.length calls = some offset →
      readPhysicalRecord (pre ++ logBytes calls) offset = none) :
    (replayLoop (pre ++ logBytes calls) ⟨pre.length, pre.length, false, [], false, em⟩).emitted =
      em ++ (acceptedOps (wholeCalls calls)).map Operation.replayed := by
  induction calls generalizing pre em with
  | nil =>
    rw [replayLoop, if_neg (by simp [logBytes, kPhysicalHeaderSize])]
    simp [acceptedOps, wholeCalls]
  | cons a calls ih =>
    cases a with
    | ok op =>
      have hone := replayLoop_operation op pre (logBytes calls) em
      rw [logBytes_cons, AppendCall.bytes, hone, ← List.append_assoc,
        ih (pre ++ op.encode) (em ++ [op.replayed]), List.append_assoc]
      · rfl
      · intro offset hat
        rw [List.length_append] at hat
        rw [List.append_assoc]
        exact hnoticed offset hat
    | short op i n h =>
      cases ht : (AppendCall.short op i n h).tears with
      | false =>
        obtain ⟨hbytes, rfl, rfl⟩ := bytes_of_not_tears ht
        rw [logBytes_cons, hbytes, List.nil_append] at hnoticed ⊢
        rw [ih pre em hnoticed]
        rfl
      | true =>
        have hwhole : wholeCalls (.short op i n h :: calls) = [] := by
          rw [wholeCalls, List.takeWhile_cons, ht]
          rfl
        rw [hwhole]
        change _ = em ++ []
        rw [List.append_nil]
        rw [tornAt] at hnoticed
        cases i with
        | zero =>
          have hn : n ≠ 0 := by simpa [AppendCall.tears] using ht
          refine replayLoop_stops (hnoticed _ ?_)
          rw [if_neg hn]
          rfl
        | succ i =>
          obtain ⟨r, hr, hlen⟩ := h
          obtain ⟨part, hopen⟩ := replayLoop_first_fragments op pre
            (((physicalRecords op.payload).getD (i + 1) []).take n ++ logBytes calls) em
            (Nat.succ_pos i) (List.getElem?_eq_some_iff.mp hr).1
          rw [logBytes_cons, AppendCall.bytes] at hnoticed ⊢
          rw [List.append_assoc] at hnoticed ⊢
          rw [hopen, ← List.append_assoc]
          rw [← List.append_assoc, ← List.length_append] at hnoticed
          by_cases hn : n = 0
          · -- the record is left open between two fragments
            rw [if_pos hn, hn, List.take_zero, List.nil_append] at hnoticed
            rw [hn, List.take_zero, List.nil_append]
            exact replayLoop_open_calls _ rfl rfl hnoticed
          · rw [if_neg hn] at hnoticed
            exact replayLoop_stops (hnoticed _ rfl)

/-- Whatever stands behind, what was accepted before the first torn append is emitted. -/
theorem replayLoop_whole_calls (pre post : Bytes) (em : List WalEntry) {calls : List AppendCall}
    (hwhole : ∀ a ∈ calls, a.tears = false) :
    (replayLoop (pre ++ (logBytes calls ++ post)) ⟨pre.length, pre.length, false, [], false, em⟩) =
      replayLoop (pre ++ (logBytes calls ++ post))
        ⟨(pre ++ logBytes calls).length, (pre ++ logBytes calls).length, false, [], false,
          em ++ (acceptedOps calls).map Operation.replayed⟩ := by
  have hlog : logBytes calls = encodeLog (acceptedOps calls) := by
    induction calls with
    | nil => rfl
    | cons a calls ih =>
      have hrest := ih fun b hb => hwhole b (List.mem_cons_of_mem a hb)
      cases a with
      | ok op => rw [logBytes_cons, hrest]; rfl
      | short op i n h =>
        rw [logBytes_cons, (bytes_of_not_tears (hwhole _ List.mem_cons_self)).1, hrest]
        rfl
  rw [hlog]
  exact replayLoop_log _ pre post em

theorem calls_split (calls : List AppendCall) :
    acceptedOps calls = acceptedOps (wholeCalls calls) ++ acceptedOps (tornCalls calls) := by
  rw [acceptedOps, acceptedOps, acceptedOps, ← List.filterMap_append, wholeCalls, tornCalls,
    List.takeWhile_append_dropWhile]

theorem not_tears_wholeCalls {calls : List AppendCall} {a : AppendCall} (h : a ∈ wholeCalls calls) :
    a.tears = false := by
  simpa using List.mem_takeWhile_imp h

theorem accepted_of_tears {a : AppendCall} (h : a.tears = true) : a.accepted = none := by
  cases a with
  | ok op => contradiction
  | short => rfl

theorem acceptedOps_eq_nil_iff {calls : List AppendCall} :
    acceptedOps calls = [] ↔ ∀ a ∈ calls, a.accepted = none := List.filterMap_eq_nil_iff

/-- Nothing is accepted behind a torn append exactly if nothing is from the first one on. -/
theorem none_behind_iff (calls : List AppendCall) :
    (calls.Pairwise fun a b => a.tears = true → b.accepted = none) ↔
      acceptedOps (tornCalls calls) = [] := by
  have hsplit : wholeCalls calls ++ tornCalls calls = calls := List.takeWhile_append_dropWhile
  rw [acceptedOps_eq_nil_iff]
  constructor
  · intro h
    rw [← hsplit] at h
    have htorn := (List.pairwise_append.mp h).2.1
    cases hcalls : tornCalls calls with
    | nil => exact fun a ha => by contradiction
    | cons a rest =>
      have hhead : a.tears = true := by
        have hstop := List.head?_dropWhile_not (fun a : AppendCall => !a.tears) calls
        rw [show calls.dropWhile (fun a => !a.tears) = a :: rest from hcalls] at hstop
        simpa using hstop
      rw [hcalls, List.pairwise_cons] at htorn
      intro b hb
      rcases List.mem_cons.mp hb with rfl | hb
      · exact accepted_of_tears hhead
      · exact htorn.1 b hb hhead
  · intro h
    rw [← hsplit]
    refine List.pairwise_append.mpr ⟨?_, ?_, ?_⟩
    · refine List.pairwise_of_forall_mem_list fun a ha b _ ht => ?_
      rw [not_tears_wholeCalls ha] at ht
      contradiction
    · exact List.pairwise_of_forall_mem_list fun a _ b hb _ => h b hb
    · exact fun a _ b hb _ => h b hb

theorem logBytes_split (calls : List AppendCall) :
    logBytes calls = logBytes (wholeCalls calls) ++ logBytes (tornCalls calls) := by
  rw [logBytes, logBytes, logBytes, ← List.flatten_append, ← List.map_append, wholeCalls, tornCalls,
    List.takeWhile_append_dropWhile]

theorem replayed_map_eq {ops : List Operation} (h : ∀ op ∈ ops, op.measurement.length < 2 ^ 32) :
    ops.map Operation.replayed = ops.map Operation.walEntry :=
  List.map_congr_left fun op hop => replayed_eq op (h op hop)

theorem emitted_logAfter (calls : List AppendCall) :
    (logAfter calls).replayEntries.1 = (replayLoop (logBytes calls) .init).emitted := by
  rw [WAL.replayEntries, logAfter_file]

theorem allReplayed_of_harmlessFailures {calls : List AppendCall} (h : HarmlessFailures calls) :
    AllReplayed calls := by
  have hbehind := (none_behind_iff calls).mp h.none_behind
  have hlengths := h.lengths
  have hloop := replayLoop_whole_calls [] (logBytes (tornCalls calls)) []
    fun a (ha : a ∈ wholeCalls calls) => not_tears_wholeCalls ha
  rw [List.nil_append, List.nil_append, List.nil_append, List.length_nil, ← logBytes_split]
    at hloop
  rw [calls_split, hbehind, List.append_nil] at hlengths
  rw [AllReplayed, emitted_logAfter, calls_split, hbehind, List.append_nil, ReplayState.init]
  obtain ⟨more, hmore, -⟩ := replayLoop_emits (logBytes calls)
    ⟨(logBytes (wholeCalls calls)).length, (logBytes (wholeCalls calls)).length, false, [], false,
      (acceptedOps (wholeCalls calls)).map Operation.replayed⟩
  rw [replayed_map_eq hlengths] at hloop hmore
  have hemitted := congrArg ReplayState.emitted hloop
  rw [hmore] at hemitted
  rw [hemitted]
  exact List.sublist_append_left _ more

theorem lengths_of_allReplayed {calls : List AppendCall} (h : AllReplayed calls) :
    ∀ op ∈ acceptedOps calls, op.measurement.length < 2 ^ 32 := by
  intro op hop
  rw [AllReplayed, emitted_logAfter] at h
  have hmem := h.subset (List.mem_map_of_mem hop)
  obtain ⟨more, hmore, hdecoded⟩ := replayLoop_emits (logBytes calls) .init
  rw [hmore, ReplayState.init, List.nil_append] at hmem
  obtain ⟨payload, hpayload⟩ := hdecoded _ hmem
  exact decodeLogicalRecord_measurement hpayload

/-- If the torn record is noticed, only harmless failures lose nothing. -/
theorem harmlessFailures_of_allReplayed {calls : List AppendCall} (hnoticed : TornNoticed calls)
    (h : AllReplayed calls) : HarmlessFailures calls := by
  refine ⟨?_, lengths_of_allReplayed h⟩
  have hlen := List.Sublist.length_le h
  have hloop := replayLoop_calls [] [] hnoticed
  rw [List.nil_append, List.nil_append, List.length_nil] at hloop
  rw [emitted_logAfter, ReplayState.init, hloop, List.length_map, List.length_map, calls_split,
    List.length_append] at hlen
  exact (none_behind_iff calls).mpr (List.length_eq_zero_iff.mp (by omega))

/-- Every accepted operation is replayed if no append is accepted behind a torn one; if the
torn record is noticed, then only so. -/
theorem accepted_ops_replayed_iff (calls : List AppendCall) :
    (HarmlessFailures calls → AllReplayed calls) ∧
      (TornNoticed calls → (AllReplayed calls ↔ HarmlessFailures calls)) :=
  ⟨allReplayed_of_harmlessFailures, fun hnoticed =>
    ⟨harmlessFailures_of_allReplayed hnoticed, allReplayed_of_harmlessFailures⟩⟩

/-- Four bytes of a put, and a put behind them. -/
def tornThenOk : List AppendCall :=
  [.short (.put [97] 1 [120]) 0 4
      ⟨(physicalRecords (Operation.put [97] 1 [120]).payload).getD 0 [], by decide +kernel,
        by decide +kernel⟩,
    .ok (.put [98] 2 [121])]

/-- The accepted put is not replayed. -/
theorem accepted_op_lost :
    acceptedOps tornThenOk = [.put [98] 2 [121]] ∧ (logAfter tornThenOk).replayEntries.1 = [] ∧
      ¬ AllReplayed tornThenOk := by
  have hnone : (logAfter tornThenOk).replayEntries.1 = [] := by
    rw [emitted_logAfter]
    exact replayLoop_stops (by decide +kernel)
  refine ⟨rfl, hnone, fun h => ?_⟩
  rw [AllReplayed, hnone] at h
  have hlen := h.length_le
  contradiction

end MiniTsdb
