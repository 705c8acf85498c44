import MiniTsdb.Proofs.MemTable
import MiniTsdb.Proofs.StoreRuns
import MiniTsdb.Spec.Engine

/-! The engine's invariant: the store's own, and the flush thread and the store agree on the
memtable that is on its way to disk. -/

namespace MiniTsdb
open Lib

/-- The memtable in the hands of the flush thread. -/
def FlushThread.memtable : FlushThread → Option MemTable
  | idle => none
  | taken m => some m
  | built m => some m
  | logged m => some m

/-- The versions of a key in memory, newest first. -/
def Engine.memVersions (e : Engine) (key : TsKey) : List InternalEntry :=
  (e.mem.getEntry key).toList ++ ((e.imm.bind fun m => m.getEntry key).toList ++
    (e.flush.memtable.bind fun m => m.getEntry key).toList)

/-- The versions of a key in memory and on disk, newest first. -/
def Engine.sources (e : Engine) (key : TsKey) : List InternalEntry :=
  e.memVersions key ++ e.store.met key

/-- The keys that the record reader of a compaction returns. -/
def sstScanned (key : TsKey) : Bool := decide (sstScanFirst ≤ key ∧ key ≤ sstScanLast)

theorem readerScans_makeSSTReader (s : Store) (job : CompactionJob) :
    ReaderScans sstScanned s job s.makeSSTReader := by
  intro input _ t ht
  rw [Store.makeSSTReader, ht]
  rfl

theorem inProgress_eq_false {f : FlushThread} : f.inProgress = false ↔ f = .idle := by
  cases f <;> simp [FlushThread.inProgress]

theorem makeRoom_cases {e e' : Engine} (h : e.makeRoomForWrite = some e') :
    e' = e ∨ e' = e.rotate ∧ e.imm = none ∧ e.flush = .idle := by
  unfold Engine.makeRoomForWrite at h
  split_ifs at h with hstop husage hfree
  · exact Or.inl (Option.some.inj h).symm
  · obtain ⟨himm, hidle⟩ := Bool.and_eq_true_iff.mp hfree
    refine Or.inr ⟨(Option.some.inj h).symm, Option.isNone_iff_eq_none.mp himm, ?_⟩
    exact inProgress_eq_false.mp (by simpa using hidle)
  · exact Or.inl (Option.some.inj h).symm

theorem wakeUp_cases {e e' : Engine} (h : e.wakeUp = some e') :
    e' = e ∨ e' = e.rotate ∧ e.imm = none ∧ e.flush = .idle := by
  unfold Engine.wakeUp at h
  split_ifs at h
  · exact makeRoom_cases h
  · exact Or.inl (Option.some.inj h).symm

theorem flushMem_eq {e e' : Engine} (h : e.flushMem = some e') :
    e' = e.rotate ∧ e.imm = none ∧ e.flush = .idle := by
  unfold Engine.flushMem at h
  split_ifs at h with hfree
  obtain ⟨-, hfree⟩ := Bool.and_eq_true_iff.mp hfree
  obtain ⟨himm, hidle⟩ := Bool.and_eq_true_iff.mp hfree
  refine ⟨(Option.some.inj h).symm, Option.isNone_iff_eq_none.mp himm, ?_⟩
  exact inProgress_eq_false.mp (by simpa using hidle)

theorem memVersions_rotate {e : Engine} (himm : e.imm = none) (key : TsKey) :
    e.rotate.memVersions key = e.memVersions key := by
  simp [Engine.memVersions, Engine.rotate, himm]

/-- The rule for the loop of a call: `P` holds with the operations that are left. -/
theorem applyOps_induct {P : Engine → List Operation → Prop} {Q : Engine → Prop} {id : ℕ}
    (hop : ∀ e op ops, P e (op :: ops) → P (e.applyOp id op) ops)
    (hroom : ∀ e e' ops, P e ops → e.makeRoomForWrite = some e' → P e' ops)
    (hwait : ∀ e ops, P e ops → Q { e with calls := ⟨id, true, ops⟩ :: e.calls })
    (hdone : ∀ e, P e [] → Q e) {ops : List Operation} {e : Engine} (h : P e ops) :
    Q (e.applyOps id ops) := by
  induction ops generalizing e with
  | nil => exact hdone e h
  | cons op ops ih =>
    rw [Engine.applyOps]
    have hnext := hop e op ops h
    cases hr : (e.applyOp id op).makeRoomForWrite with
    | none => exact hwait _ _ hnext
    | some e' => exact ih (hroom _ _ _ hnext hr)

/-- What holds whatever the log and the waiting calls are. -/
structure CallRule (Q : Engine → Prop) : Prop where
  frame : ∀ e wal calls n, Q e → Q { e with wal := wal, calls := calls, next_call := n }
  rotate : ∀ e, Q e → e.imm = none → e.flush = .idle → Q e.rotate
  op : ∀ e id op, Q e → Q (e.applyOp id op)

section
variable {Q : Engine → Prop} (hQ : CallRule Q)
include hQ

theorem CallRule.room {e e' : Engine} (h : Q e)
    (hr : e' = e ∨ e' = e.rotate ∧ e.imm = none ∧ e.flush = .idle) : Q e' := by
  rcases hr with rfl | ⟨rfl, himm, hidle⟩
  · exact h
  · exact hQ.rotate e h himm hidle

theorem CallRule.applyOps {e : Engine} (h : Q e) (id : ℕ) (ops : List Operation) :
    Q (e.applyOps id ops) :=
  applyOps_induct (P := fun e _ => Q e) (fun e op _ h => hQ.op e id op h)
    (fun _ _ _ h hr => hQ.room h (makeRoom_cases hr)) (fun e _ h => hQ.frame e e.wal _ e.next_call h)
    (fun _ h => h) h

theorem CallRule.enter {e : Engine} (h : Q e) (ops : List Operation) : Q (e.enter ops) := by
  have hnumber := hQ.frame e e.wal e.calls (e.next_call + 1) h
  rw [Engine.enter]
  dsimp only
  cases hr : Engine.makeRoomForWrite { e with next_call := e.next_call + 1 } with
  | none => exact hQ.frame e e.wal _ (e.next_call + 1) h
  | some e' =>
    have hroom := hQ.room hnumber (makeRoom_cases hr)
    exact hQ.applyOps (hQ.frame e' _ e'.calls e'.next_call hroom) _ _

theorem CallRule.resume {e e' : Engine} {id : ℕ} (h : Q e) (hs : e.resume id = some e') : Q e' := by
  unfold Engine.resume at hs
  split at hs
  · contradiction
  · obtain ⟨e₁, hr, rfl⟩ := Option.map_eq_some_iff.mp hs
    have hroom := hQ.room h (wakeUp_cases hr)
    dsimp only
    split_ifs
    · exact hQ.applyOps (hQ.frame e₁ e₁.wal _ e₁.next_call hroom) _ _
    · exact hQ.applyOps (hQ.frame e₁ _ _ e₁.next_call hroom) _ _

end

/-- What the flush thread and the store know of each other. -/
def FlushInv (e : Engine) : Prop :=
  match e.flush with
  | .idle => e.store.built = none
  | .taken _ => e.store.built = none
  | .built m => ∃ n t, e.store.built = some (n, t) ∧ t.entries = m.iterateEntries
  | .logged m => e.store.built = none ∧ ∀ key entry, m.iterateEntries.lookup key = some entry →
      (e.store.met key).head? = some entry

structure EngineInv (e : Engine) : Prop where
  store : StoreInv sstScanned e.store
  flush : FlushInv e
  imm : e.flush ≠ .idle → e.imm = none
  low : ∀ key, ¬ TsKey.default ≤ key → e.store.met key = []

theorem callRule_engineInv : CallRule EngineInv := by
  refine ⟨?_, ?_, ?_⟩
  · intro e wal calls n h
    exact ⟨h.store, h.flush, h.imm, h.low⟩
  · intro e h himm hidle
    exact ⟨h.store, h.flush, fun hne => absurd hidle hne, h.low⟩
  · intro e id op h
    exact ⟨h.store, h.flush, h.imm, h.low⟩

/-- The store actions that the flush thread has no part in. -/
def StoreAction.background : StoreAction → Bool
  | .build _ | .commitFlush => false
  | _ => true

theorem background_built {s s' : Store} {a : StoreAction} (ha : a.background = true)
    (hmet : Met sstScanned s s' a) : s'.built = s.built := by
  cases a with
  | build entries => contradiction
  | commitFlush => contradiction
  | _ => exact hmet.1

theorem background_met_nil {s s' : Store} {a : StoreAction} (ha : a.background = true)
    (hmet : Met sstScanned s s' a) {key : TsKey} (h : s.met key = []) : s'.met key = [] := by
  cases a with
  | build entries => contradiction
  | commitFlush => contradiction
  | commit cleanup_obsolete held =>
    obtain ⟨-, -, run, -, hmet⟩ := hmet
    obtain ⟨hbefore, hafter⟩ := hmet key
    rw [h] at hbefore
    obtain ⟨hnewer, hrest⟩ := List.append_eq_nil_iff.mp hbefore.symm
    obtain ⟨hinputs, hdeeper⟩ := List.append_eq_nil_iff.mp hrest
    rw [hafter, hnewer, hinputs, hdeeper, leftOver]
    simp
  | _ =>
    rw [hmet.2.2 key]
    exact h

/-- What a background action changes is in the store, and while the flush thread keeps the
lock, not in what a search meets. -/
theorem engineInv_background {e : Engine} {s' : Store} {a : StoreAction} (h : EngineInv e)
    (ha : a.background = true) (hmet : Met sstScanned e.store s' a) (hstore : StoreInv sstScanned s')
    (hlocked : e.flush.locks = true → ∀ key, s'.met key = e.store.met key) :
    EngineInv { e with store := s' } := by
  have hbuilt := background_built ha hmet
  refine ⟨hstore, ?_, h.imm, fun key hlow => background_met_nil ha hmet (h.low key hlow)⟩
  have hflush := h.flush
  unfold FlushInv at hflush ⊢
  cases hf : e.flush with
  | idle =>
    rw [hf] at hflush
    exact hbuilt.trans hflush
  | taken m =>
    rw [hf] at hflush
    exact hbuilt.trans hflush
  | built m =>
    rw [hf] at hflush
    obtain ⟨n, t, hb, hentries⟩ := hflush
    exact ⟨n, t, hbuilt.trans hb, hentries⟩
  | logged m =>
    rw [hf] at hflush hlocked
    obtain ⟨hb, hhead⟩ := hflush
    refine ⟨hbuilt.trans hb, fun key entry hentry => ?_⟩
    rw [hlocked rfl key]
    exact hhead key entry hentry

theorem takeImm_eq {e e' : Engine} (hs : e.takeImm = some e') :
    ∃ m, e.imm = some m ∧ e.flush = .idle ∧ e' = { e with
      imm := none, flush := .taken m, taken := e.taken ++ [m] } := by
  unfold Engine.takeImm at hs
  split at hs
  · rename_i m himm hflush _
    exact ⟨m, himm, hflush, (Option.some.inj hs).symm⟩
  · contradiction

theorem engineInv_takeImm {e e' : Engine} (h : EngineInv e) (hs : e.takeImm = some e') :
    EngineInv e' := by
  obtain ⟨m, -, hidle, rfl⟩ := takeImm_eq hs
  have hflush := h.flush
  unfold FlushInv at hflush
  rw [hidle] at hflush
  exact ⟨h.store, hflush, fun _ => rfl, h.low⟩

theorem buildSST_eq {e e' : Engine} (hs : e.buildSST = some e') :
    ∃ m s, e.flush = .taken m ∧ e.store.step (.build m.iterateEntries) = some s ∧
      e' = { e with store := s, flush := .built m } := by
  unfold Engine.buildSST at hs
  split at hs
  · rename_i m hflush
    obtain ⟨s, hb, rfl⟩ := Option.map_eq_some_iff.mp hs
    exact ⟨m, s, hflush, hb, rfl⟩
  · contradiction

theorem engineInv_buildSST {e e' : Engine} (h : EngineInv e) (hs : e.buildSST = some e') :
    EngineInv e' := by
  obtain ⟨m, s, hflush, hb, rfl⟩ := buildSST_eq hs
  have hstore := storeInv_step h.store (a := .build m.iterateEntries) (ascending_iterateEntries m) hb
  obtain ⟨-, ⟨n, t, hbuilt, hentries⟩, -, hmet⟩ := met_step h.store hb
  refine ⟨hstore, ⟨n, t, hbuilt, hentries⟩, fun _ => h.imm (by rw [hflush]; simp), fun key hlow => ?_⟩
  exact (hmet key).trans (h.low key hlow)

theorem logFlush_eq {e e' : Engine} (hs : e.logFlush = some e') :
    ∃ m s, e.flush = .built m ∧ e.store.step .commitFlush = some s ∧
      e' = { e with
        store := s
        flush := .logged m
        flushes := e.flushes ++ e.store.built.toList.map fun b => (m, b.1) } := by
  unfold Engine.logFlush at hs
  split at hs
  · rename_i m hflush
    obtain ⟨s, hc, rfl⟩ := Option.map_eq_some_iff.mp hs
    exact ⟨m, s, hflush, hc, rfl⟩
  · contradiction

/-- The commit of a flush puts its versions in front of all others on disk. -/
theorem logFlush_spec {e e' : Engine} (h : EngineInv e) (hs : e.logFlush = some e') :
    ∃ m s, e.flush = .built m ∧ e.store.step .commitFlush = some s ∧
      e' = { e with
        store := s
        flush := .logged m
        flushes := e.flushes ++ e.store.built.toList.map fun b => (m, b.1) } ∧
      ∀ key, s.met key = (m.iterateEntries.lookup key).toList ++ e.store.met key := by
  obtain ⟨m, s, hflush, hc, he⟩ := logFlush_eq hs
  obtain ⟨n, t, hbuilt, -, -, hmet⟩ := met_step h.store (a := .commitFlush) hc
  have hinv := h.flush
  unfold FlushInv at hinv
  rw [hflush] at hinv
  obtain ⟨n', t', hbuilt', hentries⟩ := hinv
  rw [hbuilt'] at hbuilt
  obtain ⟨rfl, rfl⟩ := Prod.mk.inj (Option.some.inj hbuilt)
  refine ⟨m, s, hflush, hc, he, fun key => ?_⟩
  rw [hmet key, SSTable.getEntry, hentries]

theorem engineInv_logFlush {e e' : Engine} (h : EngineInv e) (hs : e.logFlush = some e') :
    EngineInv e' := by
  obtain ⟨m, s, hflush, hc, rfl, hmet⟩ := logFlush_spec h hs
  have hstore := storeInv_step h.store (a := .commitFlush) trivial hc
  obtain ⟨-, -, -, hbuilt, -, -⟩ := met_step h.store (a := .commitFlush) hc
  refine ⟨hstore, ⟨hbuilt, fun key entry hentry => ?_⟩, fun _ => h.imm (by rw [hflush]; simp),
    fun key hlow => ?_⟩
  · rw [hmet key, hentry]
    rfl
  · rw [hmet key, lookup_iterateEntries, if_neg hlow, h.low key hlow]
    rfl

theorem finishFlush_eq {e e' : Engine} (hs : e.finishFlush = some e') :
    ∃ m, e.flush = .logged m ∧ e' = { e with wal := e.wal.rotate, flush := .idle } := by
  unfold Engine.finishFlush at hs
  split at hs
  · rename_i m hflush
    exact ⟨m, hflush, (Option.some.inj hs).symm⟩
  · contradiction

theorem engineInv_finishFlush {e e' : Engine} (h : EngineInv e) (hs : e.finishFlush = some e') :
    EngineInv e' := by
  obtain ⟨m, hflush, rfl⟩ := finishFlush_eq hs
  have hinv := h.flush
  unfold FlushInv at hinv
  rw [hflush] at hinv
  exact ⟨h.store, hinv.1, fun hne => absurd rfl hne, h.low⟩

/-- A step of `Close`, or the end of the flush thread, before the shutdown. -/
theorem closing_eq {e e' : Engine}
    (h : e.exitFlush = some e' ∨ e.close = e' ∨ e.closeFlushed = some e' ∨ e.stop = some e') :
    e' = { e with closing := e'.closing, flush_exited := e'.flush_exited } := by
  rcases h with h | rfl | h | h
  · unfold Engine.exitFlush at h
    split_ifs at h
    rw [← Option.some.inj h]
  · unfold Engine.close
    split_ifs <;> rfl
  · unfold Engine.closeFlushed at h
    split_ifs at h
    rw [← Option.some.inj h]
  · unfold Engine.stop at h
    split_ifs at h
    rw [← Option.some.inj h]

theorem shutdown_spec {e e' : Engine} {held : List Bytes} (hs : e.shutdown held = some e') :
    ∃ s, e.store.step (.shutdown held) = some s ∧ e' = { e with store := s, closing := .done } := by
  unfold Engine.shutdown at hs
  split_ifs at hs
  obtain ⟨s, hstep, rfl⟩ := Option.map_eq_some_iff.mp hs
  exact ⟨s, hstep, rfl⟩

end MiniTsdb
