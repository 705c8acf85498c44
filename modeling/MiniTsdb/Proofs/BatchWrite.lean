import MiniTsdb.Lib.Runs
import MiniTsdb.Proofs.Durability
import MiniTsdb.Proofs.FaultSteps
import MiniTsdb.Spec.WriteFailures

/-! A batch whose log fails. Nothing of it is read before a restart; behind a restart its
first operations are there, as many as have their records whole. -/

namespace MiniTsdb
open Lib

/-- The log is the records of some operations, one behind the other. -/
def WAL.Whole (wal : WAL) : Prop := ∃ log, wal = ⟨encodeLog log⟩

theorem WAL.Whole.appendAll {wal : WAL} (h : wal.Whole) (ops : List Operation) :
    (wal.appendAll ops).Whole := by
  obtain ⟨log, rfl⟩ := h
  exact ⟨log ++ ops, encodeLog_appendAll log ops⟩

theorem WAL.Whole.replayed {wal : WAL} (h : wal.Whole) : wal.replayEntries.2 = wal := by
  obtain ⟨log, rfl⟩ := h
  have hall := replayEntries_cut log (encodeLog log).length
  rw [List.take_length, completeOps_all log le_rfl, ite_self] at hall
  rw [hall]

theorem applyOps_wal (e : Engine) (id : ℕ) (ops : List Operation) :
    (e.applyOps id ops).wal = e.wal := by
  refine applyOps_induct (P := fun e' _ => e'.wal = e.wal) (fun _ _ _ h => h) ?_ (fun _ _ h => h)
    (fun _ h => h) rfl
  intro e₁ e₂ ops h hr
  rcases makeRoom_cases hr with rfl | ⟨rfl, -, -⟩
  · exact h
  · exact h

theorem room_wal {e e' : Engine} (h : e' = e ∨ e' = e.rotate ∧ e.imm = none ∧ e.flush = .idle) :
    e'.wal = e.wal := by
  rcases h with rfl | ⟨rfl, -, -⟩ <;> rfl

theorem whole_enter {e : Engine} (h : e.wal.Whole) (ops : List Operation) : (e.enter ops).wal.Whole := by
  rw [Engine.enter]
  dsimp only
  cases hr : Engine.makeRoomForWrite { e with next_call := e.next_call + 1 } with
  | none => exact h
  | some e₁ =>
    have hsame := room_wal (makeRoom_cases hr)
    dsimp only
    rw [Engine.logAndApplyOps, applyOps_wal, hsame]
    exact h.appendAll ops

theorem whole_resume {e e' : Engine} {id : ℕ} (h : e.wal.Whole) (hs : e.resume id = some e') :
    e'.wal.Whole := by
  unfold Engine.resume at hs
  split at hs
  · contradiction
  · rename_i c _
    obtain ⟨e₁, hr, rfl⟩ := Option.map_eq_some_iff.mp hs
    have hsame := room_wal (wakeUp_cases hr)
    dsimp only
    split_ifs
    · rw [applyOps_wal, hsame]
      exact h
    · rw [Engine.logAndApplyOps, applyOps_wal, hsame]
      exact h.appendAll c.ops

theorem whole_step {e e' : Engine} {a : EngineAction} (h : e.wal.Whole) (hs : e.step a = some e') :
    e'.wal.Whole := by
  cases step_kind hs with
  | enter hops => exact whole_enter h _
  | resume hr => exact whole_resume h hr
  | rotate hr =>
    obtain ⟨rfl, -, -⟩ := flushMem_eq hr
    exact h
  | takeImm ht =>
    obtain ⟨m, -, -, rfl⟩ := takeImm_eq ht
    exact h
  | buildSST hb =>
    obtain ⟨m, s, -, -, rfl⟩ := buildSST_eq hb
    exact h
  | logFlush hl =>
    obtain ⟨m, s, -, -, rfl⟩ := logFlush_eq hl
    exact h
  | finishFlush hf =>
    obtain ⟨m, -, rfl⟩ := finishFlush_eq hf
    exact ⟨[], rfl⟩
  | closing _ hc =>
    rw [closing_eq hc]
    exact h
  | shutdown _ hd =>
    obtain ⟨s, -, rfl⟩ := shutdown_spec hd
    exact h
  | crash =>
    rw [Engine.crash, Engine.open]
    dsimp only
    rw [h.replayed]
    exact h
  | _ => exact h

theorem whole_fault {e e' : Engine} {a : FaultAction} (h : e.wal.Whole)
    (hs : e.faultStep a = some e') : e'.wal.Whole := by
  cases fault_kind hs with
  | engine hs => exact whole_step h hs
  | logFlushError _ _ => exact ⟨[], rfl⟩
  | _ => exact h

theorem whole_of_reach {db_dir : Bytes} {limit : Int64} {target : ℕ} {e : Engine}
    (h : Reach Engine.faultStep (fun _ _ => True) (Engine.start db_dir limit target) e) :
    e.wal.Whole := by
  refine h.invariant (I := fun e => e.wal.Whole) ?_ fun _ _ _ hi _ hs => whole_fault hi hs
  rw [start_open]
  exact ⟨[], rfl⟩

theorem prefix_completeOps (ops : List Operation) (n : ℕ) : completeOps ops n <+: ops := by
  induction ops generalizing n with
  | nil => exact List.prefix_refl _
  | cons op ops ih =>
    rw [completeOps]
    split_ifs
    · exact (List.prefix_cons_inj op).mpr (ih _)
    · exact List.nil_prefix

theorem completeOps_append (log ops : List Operation) (n : ℕ) :
    completeOps (log ++ ops) ((encodeLog log).length + n) = log ++ completeOps ops n := by
  induction log with
  | nil => simp
  | cons op log ih =>
    have hlen : (encodeLog (op :: log)).length + n - op.encode.length = (encodeLog log).length + n := by
      rw [encodeLog_cons, List.length_append]
      omega
    rw [List.cons_append, completeOps, if_pos, hlen, ih, List.cons_append]
    rw [encodeLog_cons, List.length_append]
    omega

/-- The operations that are whole are those whose records end within the first `n` bytes. -/
theorem le_length_completeOps (ops : List Operation) (i n : ℕ) :
    i ≤ (completeOps ops n).length ↔ i ≤ ops.length ∧ (encodeLog (ops.take i)).length ≤ n := by
  induction ops generalizing i n with
  | nil => simp [completeOps]
  | cons op ops ih =>
    cases i with
    | zero => simp
    | succ i =>
      rw [List.take_succ_cons, encodeLog_cons, List.length_append, completeOps]
      split_ifs with h
      · rw [List.length_cons, List.length_cons, Nat.succ_le_succ_iff, Nat.succ_le_succ_iff, ih]
        exact and_congr_right fun _ => by omega
      · rw [List.length_nil]
        omega

/-- The bytes that a short append adds are the first of its records. -/
theorem appendShort_file (op : Operation) (wal : WAL) (j n : ℕ) :
    ∃ bytes, bytes <+: op.encode ∧ (op.appendShort wal j n).file = wal.file ++ bytes := by
  refine ⟨((physicalRecords op.payload).take j).flatten ++
    ((physicalRecords op.payload).getD j []).take n, ?_, by cases op <;> rfl⟩
  rw [Operation.encode]
  generalize physicalRecords op.payload = records
  induction records generalizing j with
  | nil => simp
  | cons r rs ih =>
    cases j with
    | zero => exact (List.take_prefix n r).trans (List.prefix_append _ _)
    | succ j =>
      rw [List.take_succ_cons, List.flatten_cons, List.flatten_cons, List.append_assoc]
      exact (List.prefix_append_right_inj r).mpr (ih j)

theorem appendPrefix_file (wal : WAL) (batch : List Operation) (n : ℕ) :
    (wal.appendPrefix batch n).file = wal.file ++ (encodeLog batch).take n := by
  change ((wal.appendAll batch).file.take (wal.file.length + n)) = _
  rw [appendAll_file, List.take_length_add_append]
  rfl

/-- However the log fails, some first bytes of the batch are in it. -/
theorem exists_appendPrefix (failure : WriteFailure) (wal : WAL) (batch : List Operation) :
    ∃ n, failure.log wal batch = wal.appendPrefix batch n := by
  have hbytes : ∀ (log : WAL) (bytes : Bytes), bytes <+: encodeLog batch →
      log.file = wal.file ++ bytes → ∃ n, log = wal.appendPrefix batch n := by
    intro log bytes hfirst hlog
    refine ⟨bytes.length, ?_⟩
    have hfile := appendPrefix_file wal batch bytes.length
    rw [← List.prefix_iff_eq_take.mp hfirst] at hfile
    exact congrArg WAL.mk (hlog.trans hfile.symm)
  have hwhole : ∃ n, wal.appendAll batch = wal.appendPrefix batch n :=
    hbytes _ _ (List.prefix_refl _) (appendAll_file batch wal)
  cases failure with
  | notOpen => exact hbytes _ _ List.nil_prefix (List.append_nil _).symm
  | append i j n =>
    cases hop : batch[i]? with
    | none =>
      simp only [WriteFailure.log, hop]
      exact hwhole
    | some op =>
      obtain ⟨bytes, hfirst, hfile⟩ := appendShort_file op (wal.appendAll (batch.take i)) j n
      refine hbytes _ (encodeLog (batch.take i) ++ bytes) ?_ ?_
      · obtain ⟨hi, rfl⟩ := List.getElem?_eq_some_iff.mp hop
        have hsplit : encodeLog batch =
            encodeLog (batch.take i) ++ (batch[i].encode ++ encodeLog (batch.drop (i + 1))) := by
          rw [← encodeLog_cons, ← encodeLog_append, ← List.drop_eq_getElem_cons hi,
            List.take_append_drop]
        rw [hsplit]
        exact (List.prefix_append_right_inj _).mpr (hfirst.trans (List.prefix_append _ _))
      · simp only [WriteFailure.log, hop]
        rw [hfile, appendAll_file, List.append_assoc]
        rfl
  | flush n => exact ⟨n, rfl⟩
  | sync => exact hwhole

/-- A `Write` of `batch` that returns the error of `failure`, at once or after a wait. -/
def Engine.Fails (e : Engine) (batch : List Operation) (failure : WriteFailure)
    (result : Engine × Status) : Prop :=
  e.writeError batch failure = some result ∨
    ∃ id, (e.calls.find? fun c => c.id == id) = some ⟨id, false, batch⟩ ∧
      e.resumeError id failure = some result

/-- The engine that opens after a crash with `wal` as the log. -/
def Engine.recover (e : Engine) (wal : WAL) : Engine := { e with wal := wal }.crash

/-- Whatever waits, only the log and the place of the memtable have changed. -/
theorem fails_cases {e : Engine} {batch : List Operation} {failure : WriteFailure}
    {result : Engine × Status} (h : e.Fails batch failure result) :
    ∃ e₁ calls n, (e₁ = e ∨ e₁ = e.rotate ∧ e.imm = none) ∧
      result = ({ e₁ with calls := calls, next_call := n, wal := failure.log e.wal batch },
        failure.status e.store.vmgr.db_dir) := by
  rcases h with h | ⟨id, hc, h⟩
  · rw [Engine.writeError] at h
    split_ifs at h
    obtain ⟨e₁, hr, rfl⟩ := Option.map_eq_some_iff.mp h
    rcases makeRoom_cases hr with rfl | ⟨rfl, himm, -⟩
    · exact ⟨e, e.calls, e.next_call + 1, Or.inl rfl, rfl⟩
    · exact ⟨e.rotate, e.calls, e.next_call + 1, Or.inr ⟨rfl, himm⟩, rfl⟩
  · rw [Engine.resumeError, hc] at h
    obtain ⟨e₁, hr, rfl⟩ := Option.map_eq_some_iff.mp h
    rcases wakeUp_cases hr with rfl | ⟨rfl, himm, -⟩
    · exact ⟨e₁, _, e₁.next_call, Or.inl rfl, rfl⟩
    · exact ⟨e.rotate, _, e.next_call, Or.inr ⟨rfl, himm⟩, rfl⟩

theorem get_rotate {e : Engine} (himm : e.imm = none) (key : TsKey) : e.rotate.get key = e.get key := by
  simp only [Engine.get, ReadView.get, Engine.captureReadView, Engine.rotate, getEntry_new, himm,
    Option.bind_some, Option.bind_none]
  rfl

/-- Recovery from a log with the first bytes of a batch behind it. -/
theorem replay_appendPrefix {wal : WAL} (h : wal.Whole) (batch : List Operation) (n : ℕ) :
    (wal.appendPrefix batch n).replayEntries.1 =
      wal.replayEntries.1 ++ (completeOps batch n).map Operation.replayed := by
  obtain ⟨log, rfl⟩ := h
  have hcut := replayEntries_cut (log ++ batch) ((encodeLog log).length + n)
  have hall := replayEntries_cut log (encodeLog log).length
  rw [List.take_length, completeOps_all log le_rfl] at hall
  have hfile : (WAL.mk (encodeLog log)).appendPrefix batch n =
      ⟨(encodeLog (log ++ batch)).take ((encodeLog log).length + n)⟩ := by
    rw [WAL.appendPrefix, encodeLog_appendAll]
  rw [hfile, hcut, hall, completeOps_append, List.map_append]

theorem memory_appendPrefix {e : Engine} (h : e.wal.Whole) (batch : List Operation) (n : ℕ) :
    (e.wal.appendPrefix batch n).replayEntries.1.foldl replayHandler (.new, fun _ => none) =
      ((completeOps batch n).map Operation.replayed).foldl replayHandler (e.crash.mem, e.crash.ttl_map) := by
  rw [replay_appendPrefix h, List.foldl_append, ← crash_memory]

/-- A `Write` whose log fails returns an error, and no read finds anything of the batch. The
log has some first bytes of the batch; from any number of them, recovery applies exactly the
first operations whose records end within them, behind what was in the log. -/
theorem failed_write_applies_first (db_dir : Bytes) (limit : Int64) (target : ℕ) {e : Engine}
    (h : Reach Engine.faultStep (fun _ _ => True) (Engine.start db_dir limit target) e)
    {batch : List Operation} {failure : WriteFailure} {r : Engine} {s : Status}
    (hfail : e.Fails batch failure (r, s)) :
    s.isOk = false ∧ (∀ key, r.get key = e.get key) ∧
      (∃ n, r.wal = e.wal.appendPrefix batch n) ∧
      ∀ n, ∃ k, (∀ i, i ≤ k ↔ i ≤ batch.length ∧
          (e.wal.appendAll (batch.take i)).file.length ≤ e.wal.file.length + n) ∧
        (r.recover (e.wal.appendPrefix batch n)).store = e.crash.store ∧
        ((r.recover (e.wal.appendPrefix batch n)).mem, (r.recover (e.wal.appendPrefix batch n)).ttl_map) =
          ((batch.take k).map Operation.replayed).foldl replayHandler (e.crash.mem, e.crash.ttl_map) ∧
        ((∀ op ∈ batch, op.measurement.length < 2 ^ 32) →
          (r.recover (e.wal.appendPrefix batch n)).mem = (batch.take k).foldl MemTable.apply e.crash.mem) := by
  obtain ⟨e₀, calls, number, hroom, heq⟩ := fails_cases hfail
  obtain ⟨rfl, rfl⟩ := Prod.mk.inj heq
  have hstore : e₀.store = e.store := by
    rcases hroom with rfl | ⟨rfl, -⟩ <;> rfl
  refine ⟨by cases failure <;> rfl, fun key => ?_, exists_appendPrefix failure e.wal batch, fun n => ?_⟩
  · rcases hroom with rfl | ⟨rfl, himm⟩
    · rfl
    · exact get_rotate himm key
  · have hk : completeOps batch n = batch.take (completeOps batch n).length :=
      List.prefix_iff_eq_take.mp (prefix_completeOps batch n)
    have hmemory := memory_appendPrefix (whole_of_reach h) batch n
    refine ⟨(completeOps batch n).length, fun i => ?_, ?_⟩
    · rw [le_length_completeOps, appendAll_file, List.length_append, Nat.add_le_add_iff_left]
      rfl
    · rw [← hk]
      refine ⟨by rw [Engine.recover, crash_store, crash_store, hstore], hmemory, fun hshort => ?_⟩
      have hmap : (completeOps batch n).map Operation.replayed =
          (completeOps batch n).map Operation.walEntry :=
        List.map_congr_left fun op hop =>
          replayed_eq op (hshort op ((prefix_completeOps batch n).subset hop))
      rw [hmap] at hmemory
      exact (congrArg Prod.fst hmemory).trans (foldl_replayHandler _ _ _)

/-- The first of two puts is in the log, the append of the second fails: the call returns an
error, and after a restart the first can be read and the second cannot. -/
theorem half_batch_recovered :
    ∃ e r s, Reach Engine.faultStep (fun _ _ => True) (Engine.start (ascii "db") 1000 0) e ∧
      e.Fails [.put (ascii "cpu") 5 (ascii "v"), .put (ascii "cpu") 6 (ascii "w")]
        (.append 1 0 0) (r, s) ∧
      s = .ioError "WAL write failed" ∧ e.crash.get ⟨ascii "cpu", 5⟩ = none ∧
      r.crash.get ⟨ascii "cpu", 5⟩ = some (ascii "v") ∧ r.crash.get ⟨ascii "cpu", 6⟩ = none := by
  have hrun : (((Engine.start (ascii "db") 1000 0).writeError
      [.put (ascii "cpu") 5 (ascii "v"), .put (ascii "cpu") 6 (ascii "w")] (.append 1 0 0)).map
        fun r => (r.2, r.1.crash.get ⟨ascii "cpu", 5⟩, r.1.crash.get ⟨ascii "cpu", 6⟩)) =
      some (.ioError "WAL write failed", some (ascii "v"), none) := by decide +kernel
  obtain ⟨⟨r, s⟩, hr, hstate⟩ := Option.map_eq_some_iff.mp hrun
  obtain ⟨hs, hfirst, hsecond⟩ := by simpa only [Prod.mk.injEq] using hstate
  exact ⟨_, r, s, .start, Or.inl hr, hs, by decide +kernel, hfirst, hsecond⟩

theorem failed_write_applies_first_cpu :
    ∃ r s, (Engine.start (ascii "db") 1000 0).Fails
        [.put (ascii "cpu") 5 (ascii "v"), .put (ascii "cpu") 6 (ascii "w")] (.append 1 0 0) (r, s) ∧
      s.isOk = false ∧ r.get ⟨ascii "cpu", 5⟩ = (Engine.start (ascii "db") 1000 0).get ⟨ascii "cpu", 5⟩ := by
  have hrun : ((Engine.start (ascii "db") 1000 0).writeError
      [.put (ascii "cpu") 5 (ascii "v"), .put (ascii "cpu") 6 (ascii "w")] (.append 1 0 0)).isSome := by
    decide +kernel
  obtain ⟨⟨r, s⟩, hr⟩ := Option.isSome_iff_exists.mp hrun
  obtain ⟨hs, hget, -⟩ := failed_write_applies_first (ascii "db") 1000 0 .start (Or.inl hr)
  exact ⟨r, s, Or.inl hr, hs, hget _⟩

end MiniTsdb
