import MiniTsdb.Proofs.Durability
import MiniTsdb.Proofs.FaultSteps
import MiniTsdb.Proofs.StoreFaults

/-! Flushes that fail. The memtable is gone from memory after the attempt, and its entries
are read only where the tables have them already; the runs in which they are, and what such
runs keep. -/

namespace MiniTsdb
open Lib

section
variable {e e' : Engine} {b : DiskAction} (hf : Fault e e' b) (h : EngineInv e) (hn : Numbered e.store)
include hf h hn

theorem Fault.forgets : Forgets e.store e'.store := forgets_fails h.store hn hf.store

theorem Fault.engineInv : EngineInv e' := by
  have hforgets := hf.forgets h hn
  have himm : e'.imm = e.imm := by rw [hf.frame]
  refine ⟨storeInv_forgets h.store hforgets, ?_, fun hne => ?_, fun key hlow => ?_⟩
  · rcases hf.flush with ⟨-, hidle, -, hbuilt⟩ | ⟨-, hsame, hbuilt⟩
    · unfold FlushInv
      rw [hidle]
      exact hbuilt
    · have hflush := h.flush
      unfold FlushInv at hflush ⊢
      rw [hsame, hbuilt]
      cases hphase : e.flush with
      | logged m =>
        rw [hphase] at hflush
        refine ⟨hflush.1, fun key entry hentry => ?_⟩
        rw [met_forgets h.store hforgets]
        exact hflush.2 key entry hentry
      | _ =>
        rw [hphase] at hflush
        exact hflush
  · rw [himm]
    rcases hf.flush with ⟨-, hidle, -, -⟩ | ⟨-, hsame, -⟩
    · exact absurd hidle hne
    · exact h.imm (hsame ▸ hne)
  · rw [met_forgets h.store hforgets]
    exact h.low key hlow

theorem Fault.noTtl (httl : NoTtl e) : NoTtl e' := by
  have hforgets := hf.forgets h hn
  refine ⟨?_, fun run hrun => ?_⟩
  · rw [hf.frame]
    exact httl.now
  · rcases hforgets.run with ⟨hsame, -, -⟩ | ⟨hnone, -, -⟩
    · exact httl.snapshot run (hsame ▸ hrun)
    · rw [hnone] at hrun
      contradiction

theorem Fault.engineDisk (hd : EngineDisk e) (hsilent : b.silent = true) : EngineDisk e' := by
  refine ⟨diskInv_fails hf.store h.store hd.disk, fun x hx t ht => ?_,
    logged_fails hf.store h.store hn hsilent hd.logged⟩
  rcases dir_fails hf.store with hdir | ⟨n, t', o, hb, ho, hdir⟩
  · exact hd.above x (hdir.subset hx) t ht
  · rw [hdir] at hx
    rcases List.mem_append.mp hx with hx | hx
    · exact hd.above x (List.mem_of_mem_filter hx) t ht
    · rw [List.mem_singleton.mp hx] at ht
      obtain ⟨y, hy, hopen⟩ := openTable_mem (h.store.built n t' hb).1
      exact hd.above y hy t (ho t ht ▸ hopen)

omit hn h in
theorem Fault.lastApplied (key : TsKey) : e'.lastApplied key = e.lastApplied key := by
  rw [hf.frame]
  rfl

omit hn h in
theorem Fault.unapplied (key : TsKey) : e'.unapplied key [] = e.unapplied key [] := by
  rw [hf.frame]
  rfl

end

/-- The version that the flush thread has of a key is written over in memory, or is the one
that a search of the tables finds. -/
def Engine.Covered (key : TsKey) (e : Engine) : Prop :=
  ∀ m, e.flush.memtable = some m →
    m.getEntry key = none ∨ e.mem.getEntry key ≠ none ∨ (e.store.met key).head? = m.getEntry key

section
variable {key : TsKey} {e e' : Engine} {b : DiskAction} (hf : Fault e e' b) (h : EngineInv e)
  (hn : Numbered e.store)
include hf h hn

omit hn h in
theorem Fault.memVersions_subset : (e'.memVersions key).Sublist (e.memVersions key) := by
  have hmem : e'.mem = e.mem ∧ e'.imm = e.imm := by
    rw [hf.frame]
    exact ⟨rfl, rfl⟩
  rw [Engine.memVersions, Engine.memVersions, hmem.1, hmem.2]
  rcases hf.flush with ⟨-, hidle, -, -⟩ | ⟨-, hsame, -⟩
  · rw [hidle]
    exact (List.Sublist.refl _).append ((List.Sublist.refl _).append (List.nil_sublist _))
  · rw [hsame]

theorem Fault.newest (hcovered : b.endsFlush = true → e.Covered key) (hnewest : e.Newest key) :
    e'.Newest key := by
  have hmet := met_forgets h.store (hf.forgets h hn) key
  have hmem : e'.mem = e.mem ∧ e'.imm = e.imm := by
    rw [hf.frame]
    exact ⟨rfl, rfl⟩
  rw [Engine.Newest, hf.lastApplied, ← hnewest, Engine.sources, Engine.sources, hmet,
    Engine.memVersions, Engine.memVersions, hmem.1, hmem.2]
  rcases hf.flush with ⟨hends, hidle, hbusy, -⟩ | ⟨-, hsame, -⟩
  · rw [hidle, h.imm hbusy]
    cases hkey : e.mem.getEntry key with
    | some entry => rfl
    | none =>
      cases hm : e.flush.memtable with
      | none => rfl
      | some m =>
        -- what the thread had is on disk
        rcases hcovered hends m hm with hnone | hover | hdisk
        · simp [FlushThread.memtable, hnone]
        · exact absurd hkey hover
        · cases hentry : m.getEntry key <;> simp [FlushThread.memtable, hentry, hdisk]
  · rw [hsame]

/-- The log is as good as it was, or it is emptied with nothing in it that the tables lack. -/
theorem Fault.logHeld (hnewest : e'.Newest key) (hheld : LogHeld key e)
    (hrotates : (∃ failure, b = .logFlushError failure) →
      e.mem.getEntry key = none ∧ e.unapplied key [] = []) : LogHeld key e' := by
  obtain ⟨hcalls, log, hlog⟩ := hheld
  have hframe : e'.calls = e.calls ∧ e'.next_call = e.next_call ∧ e'.mem = e.mem ∧ e'.imm = e.imm := by
    rw [hf.frame]
    exact ⟨rfl, rfl, rfl, rfl⟩
  obtain ⟨hsame, hnext, hmem, himm⟩ := hframe
  have hmet := met_forgets h.store (hf.forgets h hn) key
  have hunapplied := hf.unapplied key
  have hlast := hf.lastApplied key
  refine ⟨⟨hsame ▸ hcalls.ids, ?_⟩, ?_⟩
  · rw [hsame, hnext]
    exact hcalls.fresh
  · rcases hf.wal with hwal | ⟨hwal, failure, rfl⟩
    · refine ⟨log, hwal.trans hlog.wal, hlog.short, fun hne => hlog.covers fun hnil => hne ?_, ?_, ?_⟩
      · obtain ⟨hmemory, hcalled⟩ := List.append_eq_nil_iff.mp hnil
        rw [hunapplied, hcalled, List.append_nil]
        exact List.sublist_nil.mp (hmemory ▸ hf.memVersions_subset)
      · rw [hunapplied]
        exact hlog.alone
      · rw [hmet, hunapplied, hlast]
        exact hlog.newest
    · obtain ⟨hgone, hnone⟩ := hrotates ⟨failure, rfl⟩
      obtain ⟨-, hidle, hbusy, -⟩ := hf.flush.resolve_right fun hother => by
        obtain ⟨hends, -⟩ := hother
        contradiction
      have hempty : e'.memVersions key = [] := by
        rw [Engine.memVersions, hmem, himm, hidle, h.imm hbusy, hgone]
        rfl
      refine ⟨[], hwal, fun op hop => by contradiction, fun hne => absurd ?_ hne, ?_, ?_⟩
      · rw [hempty, hunapplied, hnone]
        rfl
      · rw [hunapplied, hnone]
        exact Nat.zero_le 1
      · rw [hunapplied, hnone, List.nil_append, Option.head?_toList, ← hnewest, Engine.sources, hempty]
        rfl

end

/-- Steps that keep the last write of a key, where flushes and compactions may fail. A flush
whose memtable has the key fails only where nothing of it is lost; a manifest that cannot be
written is left as it is. -/
def Engine.PersistsPast (key : TsKey) (e : Engine) : FaultAction → Prop
  | .engine a => e.Persists key a
  | .finishError => e.Covered key
  | .openError _ => e.Covered key
  | .logFlushError failure => e.Covered key ∧ e.mem.getEntry key = none ∧ e.unapplied key [] = [] ∧
      failure.silent = true
  | .runError => True
  | .commitError failure => failure.silent = true

/-- What every such run keeps. -/
structure FaultInv (key : TsKey) (e : Engine) : Prop where
  durable : DurableInv key e
  numbered : Numbered e.store

theorem numbered_fresh {scanned : TsKey → Bool} {s : Store} (h : StoreInv scanned s)
    (hnone : s.unpublished = []) (hrun : s.compaction = none) : Numbered s := by
  refine ⟨fun l f hf n hn heq => ?_, fun n hn => ?_, ?_, fun run hr => ?_⟩
  · rw [(h.live l f hf).path] at heq
    have hlt := h.below l f hf
    rw [newFileName_injective _ heq] at hlt
    rcases hn with hn | hn
    · rw [hnone] at hn
      contradiction
    · exact absurd hlt (not_lt.mpr hn)
  · rw [hnone] at hn
    contradiction
  · rw [hnone]
    exact List.nodup_nil
  · rw [hrun] at hr
    contradiction

theorem numbered_step {key : TsKey} {e e' : Engine} {a : EngineAction} (h : FaultInv key e)
    (hok : e.Persists key a) (hs : e.step a = some e') : Numbered e'.store := by
  by_cases hcrash : a = .crash
  · subst hcrash
    obtain rfl := step_crash hs
    have hopened := (durableInv_crash h.durable hok).read.engine.store
    rw [crash_store] at hopened ⊢
    exact numbered_fresh hopened rfl rfl
  · rcases store_step hs hcrash with hsame | ⟨b, -, -, hstep, -⟩
    · rw [hsame]
      exact h.numbered
    · exact h.numbered.step (a := .store b) hstep

theorem faultInv_step {key : TsKey} {e e' : Engine} {a : FaultAction} (h : FaultInv key e)
    (hok : e.PersistsPast key a) (hs : e.faultStep a = some e') : FaultInv key e' := by
  cases fault_cases hs with
  | engine hstep => exact ⟨durableInv_step h.durable hok hstep, numbered_step h hok hstep⟩
  | @fails _ b hb hf =>
    obtain ⟨⟨⟨hinv, httl, hnewest⟩, hheld, hdisk⟩, hnumbered⟩ := h
    have hends : b.endsFlush = true → e.Covered key := by
      cases a with
      | engine a => contradiction
      | finishError => exact fun _ => hok
      | openError readable => exact fun _ => hok
      | logFlushError failure => exact fun _ => hok.1
      | _ =>
        obtain rfl := Option.some.inj hb
        exact fun h => by contradiction
    have hsilent : b.silent = true := by
      cases a with
      | engine a => contradiction
      | logFlushError failure =>
        obtain rfl := Option.some.inj hb
        exact hok.2.2.2
      | commitError failure =>
        obtain rfl := Option.some.inj hb
        exact hok
      | _ =>
        obtain rfl := Option.some.inj hb
        rfl
    have hnewest' : e'.Newest key := hf.newest hinv hnumbered hends hnewest
    refine ⟨⟨⟨hf.engineInv hinv hnumbered, hf.noTtl hinv hnumbered httl, hnewest'⟩,
      hf.logHeld hinv hnumbered hnewest' hheld ?_, hf.engineDisk hinv hnumbered hdisk hsilent⟩,
      (hnumbered.fails hf.store).1⟩
    rintro ⟨failure, rfl⟩
    cases a with
    | logFlushError _ => exact ⟨hok.2.1, hok.2.2.1⟩
    | engine a => contradiction
    | _ => cases Option.some.inj hb

theorem faultInv_start (db_dir : Bytes) (limit : Int64) (target : ℕ) (key : TsKey) :
    FaultInv key (Engine.start db_dir limit target) := by
  have hdurable := durableInv_start db_dir limit target key
  refine ⟨hdurable, ?_⟩
  have hstore := hdurable.read.engine.store
  rw [start_open] at hstore ⊢
  exact numbered_fresh hstore rfl rfl

/-- A flush attempt that ends with an error. -/
def FaultAction.failsFlush : FaultAction → Bool
  | .finishError | .openError _ | .logFlushError _ => true
  | _ => false

/-- A check that is enough for puts, flushes and a `Finish` that fails. -/
def Engine.persistsNow (key : TsKey) (e : Engine) : FaultAction → Bool
  | .engine (.put measurement _ _) => measurement.length < 2 ^ 32 && e.calls.isEmpty
  | .engine .flush | .engine .takeImm | .engine .buildSST => true
  | .engine .logFlush => e.LogsBack .logFlush
  | .engine .finishFlush => (e.mem.getEntry key).isNone && e.calls.isEmpty && TsKey.default ≤ key
  | .finishError => e.flush.memtable.all fun m => (e.store.met key).head? = m.getEntry key
  | _ => false

theorem unapplied_of_no_calls {e : Engine} (h : e.calls.isEmpty = true) (key : TsKey) :
    e.unapplied key [] = [] := by
  rw [Engine.unapplied, List.isEmpty_iff.mp h]
  rfl

theorem persistsPast_of_now {key : TsKey} {e : Engine} {a : FaultAction}
    (h : e.persistsNow key a = true) : e.PersistsPast key a := by
  cases a with
  | engine a =>
    cases a with
    | put measurement timestamp value =>
      obtain ⟨hshort, hcalls⟩ := Bool.and_eq_true_iff.mp h
      refine fun _ => ⟨fun op hop => ?_, Or.inr (unapplied_of_no_calls hcalls key)⟩
      rw [List.mem_singleton.mp hop]
      exact of_decide_eq_true hshort
    | logFlush =>
      have hback : e.LogsBack .logFlush := of_decide_eq_true h
      exact hback
    | finishFlush =>
      obtain ⟨hfree, hle⟩ := Bool.and_eq_true_iff.mp h
      obtain ⟨hmem, hcalls⟩ := Bool.and_eq_true_iff.mp hfree
      exact ⟨Option.isNone_iff_eq_none.mp hmem, unapplied_of_no_calls hcalls key,
        fun _ _ => Or.inl (of_decide_eq_true hle)⟩
    | flush | takeImm | buildSST => trivial
    | _ => contradiction
  | finishError =>
    intro m hm
    rw [Engine.persistsNow, hm] at h
    exact Or.inr (Or.inr (of_decide_eq_true h))
  | _ => contradiction

end MiniTsdb
